import NogoCommons.Nogopow.SealPreimage
import NogoCommons.Nogopow.DseLaws
import NogoCommons.Nogopow.Compact
import NogoCommons.Nogopow.SimpleLruRuns
import NogoCommons.Nogopow.VerifyHeaders
import NogoCommons.Nogopow.Bridge
import NogoCommons.Nogopow.EntryPoints
import NogoCommons.Nogopow.AiHash
import NogoCommons.Treap.Runs
import NogoCommons.Ffldb.Regions
import NogoCommons.Ffldb.BucketRefines
import NogoCommons.Wire.V2Message
import NogoCommons.Nogoec.Musig2
import NogoCommons.Nogoec.Ecdsa
import NogoCommons.Address.Bech32Laws
import NogoCommons.Address.RoundTrip
import NogoCommons.V2transport.Handshake
import NogoCommons.Peer.Shutdown
import NogoCommons.Peer.PushAddr
import NogoCommons.Bloom.Filter
import NogoCommons.Nogoutil.Block
import NogoCommons.Nogoec.SchnorrSign
import NogoCommons.Nogoec.Ellswift
import NogoCommons.Hdkeychain.ExtendedKey
import NogoCommons.Gcs.Filter
import NogoCommons.Connmgr.Handler
