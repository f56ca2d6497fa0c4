import NogoCommons.Address.Base58
import NogoCommons.Address.ConvertBits
import NogoCommons.Nogoec.Secp256k1

/-!
# `address` — payment addresses

Three forms of string are addresses: a version byte and a hash in base 58, a public key in hexadecimal, and a witness
version and program in bech32. Which of them a string is taken for depends on what comes before the last `'1'`: if that is
one of the prefixes in a table of `chaincfg`, the string is a witness address or nothing. The table has the prefixes of two
of the six networks, in lower case.

The witness version decides between bech32 and bech32m, and the length of the program between the types of address.
`DecodeAddress` asks for the version only where the length leaves a choice, and a program of 20 bytes becomes an address of
version 0 under version 1 too.
-/

namespace NogoCommons.Chaincfg
open Lib

/-- What addresses take from the parameters of a network. -/
structure Params where
  pubKeyHashAddrID : UInt8
  scriptHashAddrID : UInt8
  bech32HRPSegwit : Bytes
deriving DecidableEq

def mainNetParams : Params := ⟨0x00, 0x05, ascii "nc"⟩
def testNet3Params : Params := ⟨0x6f, 0xc4, ascii "tn"⟩
def regressionNetTemplate (hrpSegwit : Bytes) : Params := ⟨0x6f, 0xc4, hrpSegwit⟩
def regressionNetParams : Params := regressionNetTemplate (ascii "bcrt")
def testNet4Params : Params := regressionNetTemplate (ascii "tb")
def sigNetParams : Params := regressionNetTemplate (ascii "tb")
def simNetParams : Params := regressionNetTemplate (ascii "sb")

/-- The networks of the package. -/
def networks : List Params :=
  [mainNetParams, testNet3Params, regressionNetParams, testNet4Params, sigNetParams, simNetParams]

def knownBech32Prefixes : List Bytes := [mainNetParams.bech32HRPSegwit, testNet3Params.bech32HRPSegwit]

/-- `IsBech32SegwitPrefix`, with the separator at the end. -/
def isBech32SegwitPrefix (hrpOne : Bytes) : Bool := knownBech32Prefixes.contains hrpOne.dropLast

end NogoCommons.Chaincfg

namespace NogoCommons.Addresses
open Lib
open Bech32 (Bech32Error Version convertBits encode encodeM decodeGeneric)
open Chaincfg
open Nogoec

inductive AddressError
  | bech32 (e : Bech32Error)
  | unsupportedWitnessVer (version : UInt8)
  | unsupportedWitnessProgLen (len : Nat)
  | checksumMismatch
  | unknownAddressType
  | addressCollision
  | invalidByte (c : UInt8)
  | text (text : String)
  | invalidSegWit (e : AddressError)
deriving DecidableEq, Repr

/-! ## Witness programs -/

def decodeSegWitAddress (address : Bytes) : Except AddressError (UInt8 × Bytes) :=
  match decodeGeneric address with
  | .error e => .error (.bech32 e)
  | .ok (_, [], _) => .error (.text "no witness version")
  | .ok (_, version :: data, bech32version) =>
    if 16 < version then .error (.text s!"invalid witness version: {version}")
    else
      match convertBits data 5 8 false with
      | .error e => .error (.bech32 e)
      | .ok regrouped =>
        let len := regrouped.length
        if len < 2 ∨ 40 < len then .error (.text "invalid data length")
        else if version = 0 ∧ len ≠ 20 ∧ len ≠ 32 then
          .error (.text s!"invalid data length for witness version 0: {len}")
        else if version = 0 ∧ bech32version ≠ .version0 then
          .error (.text "invalid checksum expected bech32 encoding for address with witness version 0")
        else if version = 1 ∧ bech32version ≠ .versionM then
          .error (.text "invalid checksum expected bech32m encoding for address with witness version 1")
        else .ok (version, regrouped)

/-- The last lines of `encodeSegWitAddress`: what was written is read again. -/
def checkedSegWit (witnessVersion : UInt8) (witnessProgram bech : Bytes) : Except AddressError Bytes :=
  match decodeSegWitAddress bech with
  | .error e => .error (.invalidSegWit e)
  | .ok (version, program) =>
    if version ≠ witnessVersion ∨ program ≠ witnessProgram then .error (.text "invalid segwit address")
    else .ok bech

def encodeSegWitAddress (hrp : Bytes) (witnessVersion : UInt8) (witnessProgram : Bytes) : Except AddressError Bytes :=
  match convertBits witnessProgram 8 5 true with
  | .error e => .error (.bech32 e)
  | .ok converted =>
    let combined := witnessVersion :: converted
    let bech : Except AddressError Bytes :=
      if witnessVersion = 0 then (encode hrp combined).mapError .bech32
      else if witnessVersion = 1 then (encodeM hrp combined).mapError .bech32
      else .error (.text s!"unsupported witness version {witnessVersion}")
    match bech with
    | .error e => .error e
    | .ok bech => checkedSegWit witnessVersion witnessProgram bech

/-! ## The types of address -/

inductive PubKeyFormat
  | uncompressed
  | compressed
deriving DecidableEq, Repr

structure AddressSegWit where
  hrp : Bytes
  witnessVersion : UInt8
  witnessProgram : Bytes
deriving DecidableEq

variable (pkg : Secp256k1)

inductive Address
  | pubKeyHash (hash : FixedBytes 20) (netID : UInt8)
  | scriptHash (hash : FixedBytes 20) (netID : UInt8)
  | pubKey (pubKeyFormat : PubKeyFormat) (pubKey : pkg.PublicKey) (pubKeyHashID : UInt8)
  | witnessPubKeyHash (a : AddressSegWit)
  | witnessScriptHash (a : AddressSegWit)
  | taproot (a : AddressSegWit)
  | payToAnchor (hrp : Bytes)

/-- The types, without what is in them. -/
inductive AddressType
  | pubKeyHash | scriptHash | pubKey | witnessPubKeyHash | witnessScriptHash | taproot | payToAnchor
deriving DecidableEq, Repr

variable {pkg}

def Address.type : Address pkg → AddressType
  | .pubKeyHash _ _ => .pubKeyHash
  | .scriptHash _ _ => .scriptHash
  | .pubKey _ _ _ => .pubKey
  | .witnessPubKeyHash _ => .witnessPubKeyHash
  | .witnessScriptHash _ => .witnessScriptHash
  | .taproot _ => .taproot
  | .payToAnchor _ => .payToAnchor

def AddressType.isWitness : AddressType → Bool
  | .witnessPubKeyHash | .witnessScriptHash | .taproot | .payToAnchor => true
  | .pubKeyHash | .scriptHash | .pubKey => false

variable (pkg)

def newAddressPubKeyHash (pkHash : Bytes) (netID : UInt8) : Except AddressError (Address pkg) :=
  if pkHash.length ≠ 20 then .error (.text "pkHash must be 20 bytes")
  else .ok (.pubKeyHash (FixedBytes.copy 20 pkHash) netID)

def newAddressScriptHashFromHash (scriptHash : Bytes) (netID : UInt8) : Except AddressError (Address pkg) :=
  if scriptHash.length ≠ 20 then .error (.text "scriptHash must be 20 bytes")
  else .ok (.scriptHash (FixedBytes.copy 20 scriptHash) netID)

def newAddressPubKey (serializedPubKey : Bytes) (net : Params) : Except AddressError (Address pkg) :=
  match pkg.parsePubKey serializedPubKey with
  | .error e => .error (.text e)
  | .ok pubKey =>
    let pkFormat := if serializedPubKey.headD 0 = 2 ∨ serializedPubKey.headD 0 = 3 then PubKeyFormat.compressed
      else .uncompressed
    .ok (.pubKey pkFormat pubKey net.pubKeyHashAddrID)

def newAddressWitnessPubKeyHash (hrp witnessProg : Bytes) : Except AddressError (Address pkg) :=
  if witnessProg.length ≠ 20 then .error (.text "witness program must be 20 bytes for p2wpkh")
  else .ok (.witnessPubKeyHash ⟨toLower hrp, 0, witnessProg⟩)

def newAddressWitnessScriptHash (hrp witnessProg : Bytes) : Except AddressError (Address pkg) :=
  if witnessProg.length ≠ 32 then .error (.text "witness program must be 32 bytes for p2wsh")
  else .ok (.witnessScriptHash ⟨toLower hrp, 0, witnessProg⟩)

def newAddressTaproot (hrp witnessProg : Bytes) : Except AddressError (Address pkg) :=
  if witnessProg.length ≠ 32 then .error (.text "witness program must be 32 bytes for p2tr")
  else .ok (.taproot ⟨toLower hrp, 1, witnessProg⟩)

def payToAnchorWitnessProgram : Bytes := [0x4e, 0x73]
def newAddressPayToAnchor (hrp : Bytes) : Address pkg := .payToAnchor (toLower hrp)

variable {pkg}

/-! ## Encoding -/

/-- The hash functions that addresses use. -/
structure Hashes where
  sha256 : Bytes → FixedBytes 32
  ripemd160 : Bytes → FixedBytes 20

variable (hashes : Hashes)

def hash160 (buf : Bytes) : FixedBytes 20 := hashes.ripemd160 (hashes.sha256 buf).bytes

def encodeAddress (hash160 : FixedBytes 20) (netID : UInt8) : Bytes :=
  Base58.checkEncode hashes.sha256 hash160.bytes netID

def serialize (format : PubKeyFormat) (pubKey : pkg.PublicKey) : Bytes :=
  match format with
  | .uncompressed => (pkg.serializeUncompressed pubKey).bytes
  | .compressed => (pkg.serializeCompressed pubKey).bytes

/-- A string, or the empty one if there is an error. -/
def orEmpty : Except AddressError Bytes → Bytes
  | .ok s => s
  | .error _ => []

def AddressSegWit.encodeAddress (a : AddressSegWit) : Bytes :=
  orEmpty (encodeSegWitAddress a.hrp a.witnessVersion a.witnessProgram)

def Address.encodeAddress : Address pkg → Bytes
  | .pubKeyHash hash netID => Addresses.encodeAddress hashes hash netID
  | .scriptHash hash netID => Addresses.encodeAddress hashes hash netID
  | .pubKey format key pubKeyHashID =>
    Addresses.encodeAddress hashes (hash160 hashes (serialize format key)) pubKeyHashID
  | .witnessPubKeyHash a | .witnessScriptHash a | .taproot a => a.encodeAddress
  | .payToAnchor hrp => orEmpty (encodeSegWitAddress hrp 1 payToAnchorWitnessProgram)

def Address.scriptAddress : Address pkg → Bytes
  | .pubKeyHash hash _ => hash.bytes
  | .scriptHash hash _ => hash.bytes
  | .pubKey format key _ => serialize format key
  | .witnessPubKeyHash a | .witnessScriptHash a | .taproot a => a.witnessProgram
  | .payToAnchor _ => payToAnchorWitnessProgram

def Address.isForNet (net : Params) : Address pkg → Bool
  | .pubKeyHash _ netID => netID == net.pubKeyHashAddrID
  | .scriptHash _ netID => netID == net.scriptHashAddrID
  | .pubKey _ _ pubKeyHashID => pubKeyHashID == net.pubKeyHashAddrID
  | .witnessPubKeyHash a | .witnessScriptHash a | .taproot a => a.hrp == net.bech32HRPSegwit
  | .payToAnchor hrp => hrp == net.bech32HRPSegwit

/-! ## Decoding -/

/-- The value of a hexadecimal digit. -/
def hexDigit (c : UInt8) : Option UInt8 :=
  if 48 ≤ c ∧ c ≤ 57 then some (c - 48)
  else if 97 ≤ c ∧ c ≤ 102 then some (c - 87)
  else if 65 ≤ c ∧ c ≤ 70 then some (c - 55)
  else none

/-- `hex.DecodeString`, for strings of even length. -/
def hexDecode : Bytes → Except AddressError Bytes
  | c :: d :: s =>
    match hexDigit c, hexDigit d with
    | none, _ => .error (.invalidByte c)
    | some _, none => .error (.invalidByte d)
    | some high, some low => (hexDecode s).map ((high * 16 + low) :: ·)
  | _ => .ok []

variable (pkg)

/-- The type of address for a version and a program. -/
def witnessAddress (hrp : Bytes) (witnessVer : UInt8) (witnessProg : Bytes) : Except AddressError (Address pkg) :=
  if witnessVer ≠ 0 ∧ witnessVer ≠ 1 then .error (.unsupportedWitnessVer witnessVer)
  else if witnessProg.length = 2 then
    if witnessVer = 1 ∧ witnessProg = [0x4e, 0x73] then .ok (newAddressPayToAnchor pkg hrp)
    else .error (.unsupportedWitnessProgLen witnessProg.length)
  else if witnessProg.length = 20 then newAddressWitnessPubKeyHash pkg hrp witnessProg
  else if witnessProg.length = 32 then
    if witnessVer = 1 then newAddressTaproot pkg hrp witnessProg
    else newAddressWitnessScriptHash pkg hrp witnessProg
  else .error (.unsupportedWitnessProgLen witnessProg.length)

/-- A string with a known prefix. -/
def decodeWitness (hrp addr : Bytes) : Except AddressError (Address pkg) :=
  match decodeSegWitAddress addr with
  | .error e => .error e
  | .ok r => witnessAddress pkg hrp r.1 r.2

/-- A string in base 58. -/
def decodeHash (addr : Bytes) (defaultNet : Params) : Except AddressError (Address pkg) :=
  match Base58.checkDecode hashes.sha256 addr with
  | .error .checksum => .error .checksumMismatch
  | .error .invalidFormat => .error (.text "decoded address is of unknown format")
  | .ok (decoded, netID) =>
    if decoded.length = 20 then
      let isP2PKH := netID == defaultNet.pubKeyHashAddrID
      let isP2SH := netID == defaultNet.scriptHashAddrID
      if isP2PKH && isP2SH then .error .addressCollision
      else if isP2PKH then newAddressPubKeyHash pkg decoded netID
      else if isP2SH then newAddressScriptHashFromHash pkg decoded netID
      else .error .unknownAddressType
    else .error (.text "decoded address is of unknown size")

/-- The part after the check for a prefix. -/
def decodeOther (addr : Bytes) (defaultNet : Params) : Except AddressError (Address pkg) :=
  if addr.length = 130 ∨ addr.length = 66 then
    match hexDecode addr with
    | .error e => .error e
    | .ok serializedPubKey => newAddressPubKey pkg serializedPubKey defaultNet
  else decodeHash pkg hashes addr defaultNet

def decodeAddress (addr : Bytes) (defaultNet : Params) : Except AddressError (Address pkg) :=
  match lastIndexByte addr Bech32.separator with
  | some oneIndex =>
    if 1 < oneIndex ∧ isBech32SegwitPrefix (addr.take (oneIndex + 1)) then
      decodeWitness pkg ((addr.take (oneIndex + 1)).dropLast) addr
    else decodeOther pkg hashes addr defaultNet
  | none => decodeOther pkg hashes addr defaultNet

end NogoCommons.Addresses
