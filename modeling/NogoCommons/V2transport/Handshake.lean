import NogoCommons.V2transport.Packets

/-!
# `v2transport/transport.go` — the handshake

Each side sends its key and some garbage, derives the keys of the session from the other's key, and then sends the garbage
terminator, its decoys and the version packet. The other side reads until it has seen the terminator. The length of the
garbage is drawn in `peer.go`, from all lengths up to `MaxGarbageLen`.

A `Session` is two such runs, each of which reads what the other one writes. What a side writes depends on the first
64 bytes it reads and on nothing else (`outgoing_run`), so there is one pair of streams for every two parties
(`Session.of`). The rest is the search for the terminator: `skipGarbage_eq` follows the loop from one byte to the next and
says for which lengths it ends in time.

Two things go wrong. The loop looks for the terminator `MaxGarbageLen` times and one time more is needed when the garbage
is as long as it may be. And a decoy is written by `V2EncPacket` and then once more by its caller, while its ciphers have
moved on by one packet only.
-/

namespace NogoCommons.V2transport
open Lib Reader List

def garbageSize : Nat := 16
def maxGarbageLen : Nat := 4095
def transportVersion : Bytes := []

/-- The functions of other packages that the handshake uses. -/
structure Suite extends Primitives where
  PrivateKey : Type
  /-- `hkdf.Extract(sha256.New, secret, salt)` -/
  hkdfExtract : (secret salt : Bytes) → Bytes
  /-- What the reader `hkdf.Expand(sha256.New, prk, info)` fills a buffer of this length with. -/
  hkdfExpand : (prk info : Bytes) → Nat → Bytes
  /-- `ellswift.V2Ecdh`. -/
  v2Ecdh : PrivateKey → (theirs ours : FixedBytes 64) → Bool → Except TransportError Bytes

structure Suite.Lawful (s : Suite) : Prop extends s.toPrimitives.Lawful where
  length_hkdfExpand : ∀ prk info, (s.hkdfExpand prk info 32).length = 32

namespace Peer
variable (s : Suite) (p : Peer s.PrivateKey)

/-- `NewPeer`, with `UseReadWriter`. -/
def new (rw : Conn) : Peer s.PrivateKey where
  privkeyOurs := none
  ellswiftOurs := .zero 64
  sentGarbage := []
  ciphers := none
  sendGarbageTerm := replicate garbageSize 0
  recvGarbageTerm := []
  initiatorL := replicate 32 0
  initiatorP := replicate 32 0
  responderL := replicate 32 0
  responderP := replicate 32 0
  sessionID := replicate 32 0
  rw := rw

def createV2Ciphers (ecdhSecret : Bytes) (initiating : Bool) (net : UInt32) :
    Except TransportError Unit × Peer s.PrivateKey :=
  let salt := ascii "nogochain_v2_shared_secret" ++ putUint32LE net
  let prk := s.hkdfExtract ecdhSecret salt
  let p := { p with
    sessionID := s.hkdfExpand prk (ascii "session_id") 32
    initiatorL := s.hkdfExpand prk (ascii "initiator_L") 32
    initiatorP := s.hkdfExpand prk (ascii "initiator_P") 32
    responderL := s.hkdfExpand prk (ascii "responder_L") 32
    responderP := s.hkdfExpand prk (ascii "responder_P") 32 }
  let garbageTerminators := s.hkdfExpand prk (ascii "garbage_terminators") 32
  let initiatorGarbageTerminator := garbageTerminators.take garbageSize
  let responderGarbageTerminator := garbageTerminators.drop garbageSize
  if initiating then
    let made : Except TransportError Ciphers := do
      let sendL ← newFSChaCha20 p.initiatorL
      let sendP ← newFSChaCha20Poly1305 p.initiatorP
      let recvL ← newFSChaCha20 p.responderL
      let recvP ← newFSChaCha20Poly1305 p.responderP
      return ⟨sendL, sendP, recvL, recvP⟩
    match made with
    | .error e => (.error e, p)
    | .ok k =>
      (.ok (), { p with
        ciphers := some k
        sendGarbageTerm := initiatorGarbageTerminator
        recvGarbageTerm := responderGarbageTerminator })
  else
    let made : Except TransportError Ciphers := do
      let sendL ← newFSChaCha20 p.responderL
      let sendP ← newFSChaCha20Poly1305 p.responderP
      let recvL ← newFSChaCha20 p.initiatorL
      let recvP ← newFSChaCha20Poly1305 p.initiatorP
      return ⟨sendL, sendP, recvL, recvP⟩
    match made with
    | .error e => (.error e, p)
    | .ok k =>
      (.ok (), { p with
        ciphers := some k
        sendGarbageTerm := responderGarbageTerminator
        recvGarbageTerm := initiatorGarbageTerminator })

/-- The garbage is what `rand.Read` fills the buffer with. -/
def generateKeyAndGarbage (garbage : Bytes) : Except TransportError (Bytes × Peer s.PrivateKey) :=
  if garbage.length > maxGarbageLen then .error .garbageTooLarge
  else .ok (p.ellswiftOurs.bytes ++ garbage, { p with sentGarbage := garbage })

/-- `InitiateV2Handshake`, with the key pair that `ellswift.EllswiftCreate` returns. -/
def initiateV2Handshake (key : s.PrivateKey) (ellswift : FixedBytes 64) (garbage : Bytes) :
    Except TransportError Unit × Peer s.PrivateKey :=
  let p := { p with privkeyOurs := some key, ellswiftOurs := ellswift }
  match p.generateKeyAndGarbage s garbage with
  | .error e => (.error e, p)
  | .ok (data, p) => (.ok (), p.send data)

/-- The two functions do the same. -/
def respondV2Handshake (key : s.PrivateKey) (ellswift : FixedBytes 64) (garbage : Bytes) :
    Except TransportError Unit × Peer s.PrivateKey :=
  p.initiateV2Handshake s key ellswift garbage

/-- The loop over the decoys. It returns the associated data that is left for the version packet. -/
def sendDecoys (p : Peer s.PrivateKey) (aad : Bytes) : List Nat → Except TransportError Bytes × Peer s.PrivateKey
  | [] => (.ok aad, p)
  | len :: rest =>
    match p.v2EncPacket s.toPrimitives (replicate len 0) aad true with
    | (.error e, p) => (.error e, p)
    -- `V2EncPacket` has sent the packet already
    | (.ok (encPacket, _), p) => sendDecoys (p.send encPacket) [] rest

/-- `CompleteHandshake` up to the version packet. -/
def greet (initiating : Bool) (decoyContentLens : List Nat) (net : UInt32) :
    Except TransportError Unit × Peer s.PrivateKey :=
  match p.receive 64 with
  | (.error e, p) => (.error e, p)
  | (.ok recvData, p) =>
    match p.privkeyOurs with
    | none => (.error .panic, p)
    | some privkey =>
      match s.v2Ecdh privkey (.copy 64 recvData) p.ellswiftOurs initiating with
      | .error e => (.error e, p)
      | .ok ecdhSecret =>
        match p.createV2Ciphers s ecdhSecret initiating net with
        | (.error e, p) => (.error e, p)
        | (.ok (), p) =>
          match (p.send p.sendGarbageTerm).sendDecoys s p.sentGarbage decoyContentLens with
          | (.error e, p) => (.error e, p)
          | (.ok aad, p) =>
            match p.v2EncPacket s.toPrimitives transportVersion aad false with
            | (.error e, p) => (.error e, p)
            | (.ok _, p) => (.ok (), p)

/-- `V2ReceivePacket` for its error only. -/
def receiveVersion (aad : Bytes) : Except TransportError Unit × Peer s.PrivateKey :=
  let r := p.v2ReceivePacket s.toPrimitives aad
  (r.1.map fun _ => (), r.2)

/-- The loop that looks for the terminator. -/
def skipGarbage : Nat → Peer s.PrivateKey → Bytes → Except TransportError Unit × Peer s.PrivateKey
  | 0, p, _ => (.error .garbageTermNotRecv, p)
  | i + 1, p, recvGarbage =>
    if recvGarbage.drop (recvGarbage.length - 16) = p.recvGarbageTerm then
      p.receiveVersion s (recvGarbage.take (recvGarbage.length - 16))
    else
      match p.receive 1 with
      | (.error e, p) => (.error e, p)
      | (.ok recvData, p) => skipGarbage i p (recvGarbage ++ recvData)

def completeHandshake (initiating : Bool) (decoyContentLens : List Nat) (net : UInt32) :
    Except TransportError Unit × Peer s.PrivateKey :=
  match p.greet s initiating decoyContentLens net with
  | (.error e, p) => (.error e, p)
  | (.ok (), p) =>
    match p.receive 16 with
    | (.error e, p) => (.error e, p)
    | (.ok recvGarbage, p) => skipGarbage s maxGarbageLen p recvGarbage

end Peer

/-! ## Parties -/

/-- What a side brings to the handshake. -/
structure Party (s : Suite) where
  key : s.PrivateKey
  ellswift : FixedBytes 64
  garbage : Bytes
  decoys : List Nat
  /-- How its calls of `Read` split what it reads. -/
  sizes : List Nat

/-- The beginning of `negotiateOutboundProtocol` and of `negotiateInboundProtocol`. -/
def Party.run {s : Suite} (x : Party s) (initiating : Bool) (net : UInt32) (incoming : Bytes) :
    Except TransportError Unit × Peer s.PrivateKey :=
  let p := Peer.new s ⟨incoming, x.sizes, []⟩
  let started :=
    if initiating then p.initiateV2Handshake s x.key x.ellswift x.garbage
    else p.respondV2Handshake s x.key x.ellswift x.garbage
  match started with
  | (.error e, p) => (.error e, p)
  | (.ok (), p) => p.completeHandshake s initiating x.decoys net

namespace Suite
variable (s : Suite) (secret : Bytes) (net : UInt32)

/-- A key of the session. -/
def derived (info : String) : FixedBytes keySize :=
  .copy keySize (s.hkdfExpand (s.hkdfExtract secret (ascii "nogochain_v2_shared_secret" ++ putUint32LE net)) (ascii info) 32)

/-- The ciphers of the direction from the initiator, or to it. -/
def link (initiating : Bool) : Link :=
  if initiating then ⟨.initial (s.derived secret net "initiator_L"), .initial (s.derived secret net "initiator_P")⟩
  else ⟨.initial (s.derived secret net "responder_L"), .initial (s.derived secret net "responder_P")⟩

/-- The terminator that a side sends. -/
def terminator (initiating : Bool) : Bytes :=
  let both :=
    s.hkdfExpand (s.hkdfExtract secret (ascii "nogochain_v2_shared_secret" ++ putUint32LE net)) (ascii "garbage_terminators") 32
  if initiating then both.take garbageSize else both.drop garbageSize

variable {s}

theorem length_terminator (hs : s.Lawful) (initiating : Bool) : (s.terminator secret net initiating).length = 16 := by
  unfold terminator
  split_ifs
  · rw [length_take, hs.length_hkdfExpand, garbageSize]
    rfl
  · rw [length_drop, hs.length_hkdfExpand, garbageSize]

theorem derived_bytes (hs : s.Lawful) (info : String) :
    s.hkdfExpand (s.hkdfExtract secret (ascii "nogochain_v2_shared_secret" ++ putUint32LE net)) (ascii info) 32
      = (s.derived secret net info).bytes :=
  (FixedBytes.copy_bytes (hs.length_hkdfExpand ..)).symm

end Suite

/-- The version packet after the decoys, as the code writes them: each decoy twice. -/
def Link.greeting (c : Primitives) (link : Link) (aad : Bytes) : List Nat → Bytes
  | [] => link.packet c transportVersion aad false
  | len :: rest =>
    let decoy := link.packet c (replicate len 0) aad true
    decoy ++ decoy ++ greeting c (link.next c) [] rest

/-- What a side writes in the handshake. -/
def Party.emission {s : Suite} (x : Party s) (secret : Bytes) (net : UInt32) (initiating : Bool) : Bytes :=
  x.ellswift.bytes ++ x.garbage ++ s.terminator secret net initiating
    ++ (s.link secret net initiating).greeting s.toPrimitives x.garbage x.decoys

/-! ## What is written -/

variable {PrivateKey : Type}
section
variable {s : Suite} {secret : Bytes} {net : UInt32} {initiating : Bool}

theorem Conn.outgoing_receiveLoop (numBytes : Nat) : ∀ fuel c b,
    (Conn.receiveLoop numBytes fuel c b).2.outgoing = c.outgoing
  | 0, _, _ => rfl
  | fuel + 1, c, b => by
    rw [Conn.receiveLoop]
    split_ifs
    · rfl
    · rfl
    · have hread : ∀ got c', c.read (numBytes - b.length) = some (got, c') → c'.outgoing = c.outgoing := by
        intro got c' h
        unfold Conn.read at h
        split_ifs at h
        split at h <;> (obtain ⟨-, rfl⟩ := Prod.mk.inj (Option.some.inj h); rfl)
      cases hcase : c.read (numBytes - b.length) with
      | none => rfl
      | some r => exact (Conn.outgoing_receiveLoop numBytes fuel r.2 _).trans (hread r.1 r.2 hcase)

theorem Peer.outgoing_receive (p : Peer PrivateKey) (numBytes : Nat) :
    (p.receive numBytes).2.rw.outgoing = p.rw.outgoing := by
  unfold Peer.receive
  exact Conn.outgoing_receiveLoop ..

theorem Peer.outgoing_receiveLoop (c : Primitives) : ∀ fuel (p : Peer PrivateKey) aad,
    (Peer.receiveLoop c fuel p aad).2.rw.outgoing = p.rw.outgoing
  | 0, _, _ => rfl
  | fuel + 1, p, aad => by
    have hfield := p.outgoing_receive lengthFieldLen
    rw [Peer.receiveLoop]
    cases hreceive : p.receive lengthFieldLen with
    | mk result p₁ =>
      rw [hreceive] at hfield
      cases result with
      | error e => exact hfield
      | ok encContentsLen =>
        cases hciphers : p₁.ciphers with
        | none => simpa only [hciphers] using hfield
        | some k =>
          simp only [hciphers, FSChaCha20.crypt_eq]
          split_ifs
          · exact hfield
          · split
            · rename_i e p₂ hbody
              have := congrArg (fun r => r.2.rw.outgoing) hbody
              simp only [Peer.outgoing_receive] at this
              exact this.symm.trans hfield
            · rename_i aeadCiphertext p₂ hbody
              have := congrArg (fun r => r.2.rw.outgoing) hbody
              simp only [Peer.outgoing_receive] at this
              have hbody' := this.symm.trans hfield
              split
              · exact hbody'
              · split
                · exact hbody'
                · split_ifs
                  · exact hbody'
                  · exact (Peer.outgoing_receiveLoop c fuel ..).trans hbody'

theorem Peer.wrote_v2EncPacket (c : Primitives) (p : Peer PrivateKey) (contents aad : Bytes) (ignore : Bool) :
    p.rw.outgoing <+: (p.v2EncPacket c contents aad ignore).2.rw.outgoing := by
  unfold Peer.v2EncPacket
  simp only [FSChaCha20.crypt_eq]
  split_ifs
  · exact prefix_rfl
  · split
    · exact prefix_rfl
    · split
      · exact prefix_rfl
      · exact prefix_append ..

theorem Peer.wrote_sendDecoys : ∀ lens (p : Peer s.PrivateKey) aad,
    p.rw.outgoing <+: (p.sendDecoys s aad lens).2.rw.outgoing
  | [], _, _ => prefix_rfl
  | len :: rest, p, aad => by
    have hsent := p.wrote_v2EncPacket s.toPrimitives (replicate len 0) aad true
    rw [Peer.sendDecoys]
    split
    · rename_i e p₁ heq
      rwa [heq] at hsent
    · rename_i encPacket total p₁ heq
      rw [heq] at hsent
      have hagain : p₁.rw.outgoing <+: (p₁.send encPacket).rw.outgoing := prefix_append ..
      exact (hsent.trans hagain).trans (Peer.wrote_sendDecoys rest ..)

theorem Peer.rw_createV2Ciphers (p : Peer s.PrivateKey) : (p.createV2Ciphers s secret initiating net).2.rw = p.rw := by
  unfold Peer.createV2Ciphers
  simp only
  split_ifs <;> (split <;> rfl)

theorem Peer.wrote_greet (p : Peer s.PrivateKey) (initiating : Bool) (lens : List Nat) (net : UInt32) :
    p.rw.outgoing <+: (p.greet s initiating lens net).2.rw.outgoing := by
  have hkey := p.outgoing_receive 64
  unfold Peer.greet
  split
  · rename_i e p₁ heq
    rw [heq] at hkey
    rw [← hkey]
  rename_i recvData p₁ heq
  rw [heq] at hkey
  rw [← hkey]
  split
  · exact prefix_rfl
  split
  · exact prefix_rfl
  rename_i ecdhSecret _
  have hrw : (p₁.createV2Ciphers s ecdhSecret initiating net).2.rw = p₁.rw := p₁.rw_createV2Ciphers
  split
  · rename_i e p₂ heq₂
    rw [heq₂] at hrw
    rw [← hrw]
  rename_i p₂ heq₂
  rw [heq₂] at hrw
  rw [← hrw]
  have hterm : p₂.rw.outgoing <+: (p₂.send p₂.sendGarbageTerm).rw.outgoing := prefix_append ..
  have hdecoys := hterm.trans (Peer.wrote_sendDecoys lens (p₂.send p₂.sendGarbageTerm) p₂.sentGarbage)
  split
  · rename_i e p₃ heq₃
    rwa [heq₃] at hdecoys
  rename_i aad p₃ heq₃
  rw [heq₃] at hdecoys
  have hversion := hdecoys.trans (p₃.wrote_v2EncPacket s.toPrimitives transportVersion aad false)
  split
  · rename_i e p₄ heq₄
    rwa [heq₄] at hversion
  · rename_i r p₄ heq₄
    rwa [heq₄] at hversion

theorem Peer.outgoing_skipGarbage : ∀ i (p : Peer s.PrivateKey) recvGarbage,
    (Peer.skipGarbage s i p recvGarbage).2.rw.outgoing = p.rw.outgoing
  | 0, _, _ => rfl
  | i + 1, p, recvGarbage => by
    rw [Peer.skipGarbage]
    split_ifs
    · exact Peer.outgoing_receiveLoop ..
    · have hbyte := p.outgoing_receive 1
      split
      · rename_i e p₁ heq
        rwa [heq] at hbyte
      · rename_i recvData p₁ heq
        rw [heq] at hbyte
        exact (Peer.outgoing_skipGarbage i ..).trans hbyte

/-- After the version packet nothing more is written. -/
theorem Peer.outgoing_completeHandshake (p : Peer s.PrivateKey) (lens : List Nat) :
    (p.completeHandshake s initiating lens net).2.rw.outgoing = (p.greet s initiating lens net).2.rw.outgoing := by
  unfold Peer.completeHandshake
  split
  · rename_i e p₁ heq
    rw [heq]
  rename_i p₁ heq
  rw [heq]
  have hgarbage := p₁.outgoing_receive 16
  split
  · rename_i e p₂ heq₂
    rwa [heq₂] at hgarbage
  · rename_i recvGarbage p₂ heq₂
    rw [heq₂] at hgarbage
    exact (Peer.outgoing_skipGarbage ..).trans hgarbage

/-! ## The first half -/

theorem Peer.createV2Ciphers_eq (hs : s.Lawful) (secret : Bytes) (net : UInt32) (initiating : Bool) (p : Peer s.PrivateKey) :
    ∃ p' k, p.createV2Ciphers s secret initiating net = (.ok (), p') ∧
      p'.ciphers = some k ∧ k.sends = s.link secret net initiating ∧ k.receives = s.link secret net (!initiating) ∧
      p'.sendGarbageTerm = s.terminator secret net initiating ∧
      p'.recvGarbageTerm = s.terminator secret net (!initiating) ∧
      p'.rw = p.rw ∧ p'.sentGarbage = p.sentGarbage := by
  have hl : ∀ key : FixedBytes keySize, newFSChaCha20 key.bytes = .ok (.initial key) := fun key =>
    FSChaCha20.new_eq_ok.mpr ⟨key, rfl, rfl⟩
  have hp : ∀ key : FixedBytes keySize, newFSChaCha20Poly1305 key.bytes = .ok (.initial key) := fun key =>
    FSChaCha20Poly1305.new_eq_ok.mpr ⟨key, rfl, rfl⟩
  unfold Peer.createV2Ciphers
  simp only [Suite.derived_bytes secret net hs "initiator_L", Suite.derived_bytes secret net hs "initiator_P",
    Suite.derived_bytes secret net hs "responder_L", Suite.derived_bytes secret net hs "responder_P", hl, hp]
  cases initiating with
  | true => exact ⟨_, _, rfl, rfl, rfl, rfl, rfl, rfl, rfl, rfl⟩
  | false => exact ⟨_, _, rfl, rfl, rfl, rfl, rfl, rfl, rfl, rfl⟩

/-- The decoys and the version packet. -/
theorem Peer.sendDecoys_eq (hs : s.Lawful) : ∀ lens (_ : ∀ len ∈ lens, len ≤ maxContentLen)
    (p : Peer s.PrivateKey) (k : Ciphers) (_ : p.ciphers = some k) (aad : Bytes),
    ∃ (aad' : Bytes) (p₁ p₂ : Peer s.PrivateKey) (k' : Ciphers) (r : Bytes × Nat),
      p.sendDecoys s aad lens = (.ok aad', p₁) ∧
      p₁.v2EncPacket s.toPrimitives transportVersion aad' false = (.ok r, p₂) ∧
      p₂.ciphers = some k' ∧ k'.receives = k.receives ∧
      k'.sends = k.sends.after s.toPrimitives (lens.length + 1) ∧
      p₂.recvGarbageTerm = p.recvGarbageTerm ∧
      p₂.rw = p.rw.write (k.sends.greeting s.toPrimitives aad lens)
  | [], _, p, k, hk, aad =>
    ⟨aad, p, _, _, _, rfl, Peer.v2EncPacket_eq hs.toLawful hk (Nat.zero_le _) aad false, rfl, rfl, rfl, rfl, rfl⟩
  | len :: rest, hlens, p, k, hk, aad => by
    have hlen : (replicate len (0 : UInt8)).length ≤ maxContentLen := by
      rw [length_replicate]
      exact hlens _ (mem_cons_self ..)
    have hpacket := Peer.v2EncPacket_eq hs.toLawful hk hlen aad true
    obtain ⟨aad', p₁, p₂, k', r, hdecoys, hversion, hk', hrecv, hsend, hterm, hrw⟩ := Peer.sendDecoys_eq hs rest
      (fun l hl => hlens l (mem_cons_of_mem _ hl))
      (Peer.send { p with
        ciphers := some (k.setSends (k.sends.next s.toPrimitives)),
        rw := p.rw.write (k.sends.packet s.toPrimitives (replicate len 0) aad true) }
        (k.sends.packet s.toPrimitives (replicate len 0) aad true))
      _ rfl []
    refine ⟨aad', p₁, p₂, k', r, ?_, hversion, hk', hrecv, hsend, hterm, ?_⟩
    · rwa [Peer.sendDecoys, hpacket]
    · rw [hrw]
      simp only [Peer.send, Conn.write, Link.greeting, append_assoc, Ciphers.sends_setSends]

/-- A peer that reads the other's key first sends what it has to send. -/
theorem Peer.greet_eq (hs : s.Lawful) (net : UInt32) {p : Peer s.PrivateKey} {key : s.PrivateKey} {theirs : FixedBytes 64} {rest : Bytes}
    {lens : List Nat} (hkey : p.privkeyOurs = some key) (hin : p.rw.incoming = theirs.bytes ++ rest)
    (hecdh : s.v2Ecdh key theirs p.ellswiftOurs initiating = .ok secret) (hlens : ∀ len ∈ lens, len ≤ maxContentLen) :
    ∃ (p' : Peer s.PrivateKey) (k : Ciphers), p.greet s initiating lens net = (.ok (), p') ∧ p'.ciphers = some k ∧
      k.receives = s.link secret net (!initiating) ∧
      k.sends = (s.link secret net initiating).after s.toPrimitives (lens.length + 1) ∧
      p'.recvGarbageTerm = s.terminator secret net (!initiating) ∧ p'.rw.incoming = rest ∧
      p'.rw.outgoing = p.rw.outgoing ++ s.terminator secret net initiating
        ++ (s.link secret net initiating).greeting s.toPrimitives p.sentGarbage lens := by
  obtain ⟨sizes, hreceive⟩ := Conn.receive_eq hin
  rw [theirs.length_eq] at hreceive
  obtain ⟨p₁, k₁, hcreate, hk₁, hsends, hreceives, hterm, hterm', hrw, hgarbage⟩ :=
    Peer.createV2Ciphers_eq hs secret net initiating
      { p with rw := { p.rw with incoming := rest, sizes := sizes } }
  obtain ⟨aad, p₂, p₃, k₃, r, hdecoys, hversion, hk₃, hreceives₃, hsends₃, hterm₃, hrw₃⟩ :=
    Peer.sendDecoys_eq hs lens hlens (p₁.send p₁.sendGarbageTerm) k₁ hk₁ p₁.sentGarbage
  refine ⟨p₃, k₃, ?_, hk₃, hreceives₃.trans hreceives, by rw [hsends₃, hsends], hterm₃.trans hterm', ?_, ?_⟩
  · simp only [hkey] at hcreate
    unfold Peer.greet
    simp only [Peer.receive, hreceive, hkey, FixedBytes.copy_self, hecdh, hcreate, hdecoys, hversion]
  · rw [hrw₃]
    simp only [Peer.send, Conn.write, hrw]
  · rw [hrw₃]
    simp only [Peer.send, Conn.write, hrw, hterm, hsends, hgarbage]

/-! ## The search for the terminator -/

/-- The terminator does not occur in the garbage, nor across its end. -/
def FirstAtEnd (garbage term : Bytes) : Prop :=
  ∀ i < garbage.length, ((garbage ++ term).drop i).take 16 ≠ term

/-- The loop, when `16 + i` bytes have been received. It looks `count` more times, and the terminator is found after
`garbage.length - i` more bytes. -/
theorem Peer.skipGarbage_eq {garbage term stream : Bytes} (hterm : term.length = 16) (hfirst : FirstAtEnd garbage term) :
    ∀ count i (_ : i ≤ garbage.length) p (_ : p.recvGarbageTerm = term)
      (_ : p.rw.incoming = (garbage ++ term).drop (16 + i) ++ stream),
    ∃ sizes, Peer.skipGarbage s count p ((garbage ++ term).take (16 + i)) =
      if garbage.length - i < count then
        ({ p with rw := { p.rw with incoming := stream, sizes := sizes } } : Peer s.PrivateKey).receiveVersion s garbage
      else
        (.error .garbageTermNotRecv, { p with
          rw := { p.rw with incoming := (garbage ++ term).drop (16 + i + count) ++ stream, sizes := sizes } })
  | 0, i, _, p, _, hin => by
    refine ⟨p.rw.sizes, ?_⟩
    rw [if_neg (by omega), Peer.skipGarbage, Nat.add_zero, ← hin]
  | count + 1, i, hi, p, hp, hin => by
    have hlen : ((garbage ++ term).take (16 + i)).length = 16 + i := by
      rw [length_take, length_append]
      omega
    have hwindow : ((garbage ++ term).take (16 + i)).drop (16 + i - 16) = ((garbage ++ term).drop i).take 16 := by
      rw [Nat.add_sub_cancel_left, drop_take, Nat.add_sub_cancel]
    rw [Peer.skipGarbage, hlen, hwindow]
    obtain hend | hmore := Nat.eq_or_lt_of_le hi
    · -- the window is the terminator
      subst hend
      refine ⟨p.rw.sizes, ?_⟩
      have hfound : ((garbage ++ term).drop garbage.length).take 16 = term := by
        rw [drop_left, take_of_length_le (by omega)]
      have hstream : p.rw.incoming = stream := by
        rw [hin, drop_of_length_le (by rw [length_append]; omega), nil_append]
      have hbefore : ((garbage ++ term).take (16 + garbage.length)).take (16 + garbage.length - 16) = garbage := by
        rw [take_take, Nat.add_sub_cancel_left, Nat.min_eq_left (by omega), take_left]
      rw [if_pos (hfound.trans hp.symm), if_pos (by omega), hbefore, ← hstream]
    · rw [if_neg fun h => hfirst i hmore (h.trans hp)]
      -- one more byte
      have hbyte : ∃ b, (garbage ++ term).drop (16 + i) = b :: (garbage ++ term).drop (16 + i + 1) ∧
          (garbage ++ term).take (16 + i) ++ [b] = (garbage ++ term).take (16 + i + 1) := by
        have hlt : 16 + i < (garbage ++ term).length := by
          rw [length_append]
          omega
        exact ⟨(garbage ++ term)[16 + i], drop_eq_getElem_cons hlt, take_concat_get' _ _ hlt⟩
      obtain ⟨b, hdrop, htake⟩ := hbyte
      have hone : p.rw.incoming = [b] ++ ((garbage ++ term).drop (16 + (i + 1)) ++ stream) := by
        rw [hin, hdrop]
        rfl
      obtain ⟨sizes, hreceive⟩ := Conn.receive_eq hone
      obtain ⟨sizes', ih⟩ := Peer.skipGarbage_eq hterm hfirst count (i + 1) hmore
        { p with rw := { p.rw with incoming := (garbage ++ term).drop (16 + (i + 1)) ++ stream, sizes := sizes } } hp rfl
      refine ⟨sizes', ?_⟩
      have hcond : garbage.length - (i + 1) < count ↔ garbage.length - i < count + 1 := by omega
      have hrest : 16 + (i + 1) + count = 16 + i + (count + 1) := by omega
      simp only [hcond, hrest] at ih
      have hone' : p.rw.receive 1 = _ := hreceive
      simp only [Peer.receive, hone']
      rwa [htake]

/-! ## One side -/

/-- The peer when its key and garbage are sent. -/
def Party.started (x : Party s) (incoming : Bytes) : Peer s.PrivateKey :=
  { Peer.new s ⟨incoming, x.sizes, x.ellswift.bytes ++ x.garbage⟩ with
    privkeyOurs := some x.key, ellswiftOurs := x.ellswift, sentGarbage := x.garbage }

theorem Party.run_eq {x : Party s} (h : x.garbage.length ≤ maxGarbageLen) (incoming : Bytes) :
    x.run initiating net incoming = (x.started incoming).completeHandshake s initiating x.decoys net := by
  have hstart : (Peer.new s ⟨incoming, x.sizes, []⟩).initiateV2Handshake s x.key x.ellswift x.garbage
      = (.ok (), x.started incoming) := by
    unfold Peer.initiateV2Handshake Peer.generateKeyAndGarbage
    simp only [if_neg (show ¬ x.garbage.length > maxGarbageLen by omega)]
    rfl
  unfold Party.run
  simp only [Peer.respondV2Handshake, hstart, ite_self]

/-- Whatever a side reads, it begins with its key. -/
theorem Party.ellswift_written {x : Party s} (h : x.garbage.length ≤ maxGarbageLen) (initiating : Bool) (net : UInt32)
    (incoming : Bytes) :
    ∃ rest, (x.run initiating net incoming).2.rw.outgoing = x.ellswift.bytes ++ rest := by
  obtain ⟨rest, hrest⟩ := (x.started incoming).wrote_greet initiating x.decoys net
  rw [Party.run_eq h, Peer.outgoing_completeHandshake, ← hrest]
  exact ⟨x.garbage ++ rest, append_assoc ..⟩

section
variable (hs : s.Lawful) {x : Party s} {theirs : FixedBytes 64}
  (hecdh : s.v2Ecdh x.key theirs x.ellswift initiating = .ok secret) (hgarbage : x.garbage.length ≤ maxGarbageLen)
  (hdecoys : ∀ len ∈ x.decoys, len ≤ maxContentLen)
include hs hecdh hgarbage hdecoys

theorem Party.outgoing_run (net : UInt32) (rest : Bytes) :
    (x.run initiating net (theirs.bytes ++ rest)).2.rw.outgoing = x.emission secret net initiating := by
  obtain ⟨p', k, hgreet, -, -, -, -, -, hout⟩ :=
    Peer.greet_eq hs net (p := x.started (theirs.bytes ++ rest)) rfl rfl hecdh hdecoys
  rwa [Party.run_eq hgarbage, Peer.outgoing_completeHandshake, hgreet]

/-- The other side sends no decoys. Its garbage decides how the handshake ends. -/
theorem Party.run_complete {garbage later : Bytes} (hfirst : FirstAtEnd garbage (s.terminator secret net (!initiating))) :
    ∃ (p' : Peer s.PrivateKey) (k : Ciphers),
      x.run initiating net (theirs.bytes ++ (garbage ++ s.terminator secret net (!initiating)
        ++ (s.link secret net (!initiating)).greeting s.toPrimitives garbage [] ++ later))
        = (if garbage.length < maxGarbageLen then .ok () else .error .garbageTermNotRecv, p') ∧
      (garbage.length < maxGarbageLen → p'.ciphers = some k ∧ p'.rw.incoming = later ∧
        k.receives = (s.link secret net (!initiating)).after s.toPrimitives 1 ∧
        k.sends = (s.link secret net initiating).after s.toPrimitives (x.decoys.length + 1)) := by
  obtain ⟨p₁, k₁, hgreet, hk₁, hreceives, hsends, hterm, hin, -⟩ :=
    Peer.greet_eq hs net
      (p := x.started (theirs.bytes ++ (garbage ++ s.terminator secret net (!initiating)
        ++ (s.link secret net (!initiating)).greeting s.toPrimitives garbage [] ++ later))) rfl rfl hecdh hdecoys
  have hlen := Suite.length_terminator secret net hs (!initiating)
  -- sixteen bytes, and then the loop
  have hsixteen : p₁.rw.incoming = (garbage ++ s.terminator secret net (!initiating)).take 16
      ++ ((garbage ++ s.terminator secret net (!initiating)).drop (16 + 0)
        ++ ((s.link secret net (!initiating)).greeting s.toPrimitives garbage [] ++ later)) := by
    rw [hin, ← append_assoc, take_append_drop, append_assoc]
  have htake : ((garbage ++ s.terminator secret net (!initiating)).take 16).length = 16 := by
    rw [length_take, length_append]
    omega
  obtain ⟨sizes, hreceive⟩ := Conn.receive_eq hsixteen
  rw [htake] at hreceive
  obtain ⟨sizes', hskip⟩ := Peer.skipGarbage_eq hlen hfirst maxGarbageLen 0 (Nat.zero_le _)
    { p₁ with rw := { p₁.rw with
      incoming := (garbage ++ s.terminator secret net (!initiating)).drop (16 + 0)
        ++ ((s.link secret net (!initiating)).greeting s.toPrimitives garbage [] ++ later), sizes := sizes } } hterm rfl
  rw [Party.run_eq hgarbage, Peer.completeHandshake, hgreet]
  simp only [Peer.receive, hreceive]
  by_cases hshort : garbage.length < maxGarbageLen
  · rw [Nat.sub_zero, if_pos hshort] at hskip
    let p₂ : Peer s.PrivateKey := { p₁ with rw := { p₁.rw with
      incoming := (s.link secret net (!initiating)).greeting s.toPrimitives garbage [] ++ later, sizes := sizes' } }
    have hk₂ : p₂.ciphers = some k₁ := hk₁
    have hempty : transportVersion.length ≤ maxContentLen := Nat.zero_le _
    have hversion : p₂.rw.incoming
        = k₁.receives.packets s.toPrimitives garbage (([] : List Bytes).map (·, true) ++ [(transportVersion, false)])
          ++ later := by
      simp only [p₂, hreceives, map_nil, nil_append, Link.packets, Link.greeting, append_nil]
    obtain ⟨sizes'', hpacket⟩ := Peer.v2ReceivePacket_first hs.toLawful hk₂ (forall_mem_nil _) hempty hversion
    have hdone : p₂.receiveVersion s garbage = (.ok (), (p₂.v2ReceivePacket s.toPrimitives garbage).2) := by
      rw [Peer.receiveVersion, hpacket]
      rfl
    refine ⟨(p₂.v2ReceivePacket s.toPrimitives garbage).2, k₁.setReceives (k₁.receives.after s.toPrimitives 1), ?_,
      fun _ => ?_⟩
    · rw [if_pos hshort]
      exact hskip.trans hdone
    · rw [hpacket, Ciphers.receives_setReceives, hreceives]
      exact ⟨rfl, rfl, rfl, hsends⟩
  · rw [Nat.sub_zero, if_neg hshort] at hskip
    exact ⟨_, k₁, by rw [if_neg hshort]; exact hskip, fun h => absurd h hshort⟩

end
end

/-! ## Both sides -/

/-- Two honest peers: `true` is the initiator. They derive one secret, their garbage is not longer than allowed and does
not contain the terminator, and each of them reads what the other writes, in the handshake and after it. -/
structure Session (s : Suite) (net : UInt32) where
  party : Bool → Party s
  secret : Bytes
  /-- What a side reads. -/
  incoming : Bool → Bytes
  /-- What a side writes after its handshake. -/
  later : Bool → Bytes
  ecdh : ∀ b, s.v2Ecdh (party b).key (party (!b)).ellswift (party b).ellswift b = .ok secret
  garbage_le : ∀ b, (party b).garbage.length ≤ maxGarbageLen
  decoys_le : ∀ b, ∀ len ∈ (party b).decoys, len ≤ maxContentLen
  first : ∀ b, FirstAtEnd (party b).garbage (s.terminator secret net b)
  incoming_eq : ∀ b, incoming b = ((party (!b)).run (!b) net (incoming (!b))).2.rw.outgoing ++ later (!b)

namespace Session
variable {s : Suite} {net : UInt32}

/-- The handshake of one side. -/
def run (σ : Session s net) (b : Bool) : Except TransportError Unit × Peer s.PrivateKey :=
  (σ.party b).run b net (σ.incoming b)

/-- The streams are determined by the parties: there is a session of any two that agree. -/
def of (hs : s.Lawful) (party : Bool → Party s) (secret : Bytes) (later : Bool → Bytes)
    (ecdh : ∀ b, s.v2Ecdh (party b).key (party (!b)).ellswift (party b).ellswift b = .ok secret)
    (garbage_le : ∀ b, (party b).garbage.length ≤ maxGarbageLen)
    (decoys_le : ∀ b, ∀ len ∈ (party b).decoys, len ≤ maxContentLen)
    (first : ∀ b, FirstAtEnd (party b).garbage (s.terminator secret net b)) : Session s net where
  party := party
  secret := secret
  incoming b := (party (!b)).emission secret net (!b) ++ later (!b)
  later := later
  ecdh := ecdh
  garbage_le := garbage_le
  decoys_le := decoys_le
  first := first
  incoming_eq b := by
    have hout := Party.outgoing_run hs (ecdh (!b)) (garbage_le (!b)) (decoys_le (!b)) net
    have hread : (party (!!b)).emission secret net (!!b) ++ later (!!b) = (party (!!b)).ellswift.bytes
        ++ ((party (!!b)).garbage ++ s.terminator secret net (!!b)
          ++ (s.link secret net (!!b)).greeting s.toPrimitives (party (!!b)).garbage (party (!!b)).decoys ++ later (!!b)) := by
      simp only [Party.emission, append_assoc]
    rw [hread, hout]

variable (hs : s.Lawful) (σ : Session s net)
include hs

/-- What a side writes in the handshake. -/
theorem outgoing_run (b : Bool) : (σ.run b).2.rw.outgoing = (σ.party b).emission σ.secret net b := by
  obtain ⟨rest, hrest⟩ := Party.ellswift_written (σ.garbage_le (!b)) (!b) net (σ.incoming (!b))
  have hin : σ.incoming b = (σ.party (!b)).ellswift.bytes ++ (rest ++ σ.later (!b)) := by
    rw [σ.incoming_eq b, hrest, append_assoc]
  rw [run, hin]
  exact Party.outgoing_run hs (σ.ecdh b) (σ.garbage_le b) (σ.decoys_le b) net _

/-- When the other side sends no decoys, the length of its garbage decides how the handshake ends. -/
theorem run_complete (b : Bool) (hnone : (σ.party (!b)).decoys = []) : ∃ p' k,
      σ.run b = (if (σ.party (!b)).garbage.length < maxGarbageLen then .ok () else .error .garbageTermNotRecv, p') ∧
      ((σ.party (!b)).garbage.length < maxGarbageLen → p'.ciphers = some k ∧ p'.rw.incoming = σ.later (!b) ∧
        k.receives = (s.link σ.secret net (!b)).after s.toPrimitives 1 ∧
        k.sends = (s.link σ.secret net b).after s.toPrimitives ((σ.party b).decoys.length + 1)) := by
  have hin : σ.incoming b = (σ.party (!b)).ellswift.bytes ++ ((σ.party (!b)).garbage ++ s.terminator σ.secret net (!b)
      ++ (s.link σ.secret net (!b)).greeting s.toPrimitives (σ.party (!b)).garbage [] ++ σ.later (!b)) := by
    have hout := σ.outgoing_run hs (!b)
    rw [run] at hout
    rw [σ.incoming_eq b, hout, Party.emission, hnone]
    simp only [append_assoc]
  rw [run, hin]
  exact Party.run_complete hs (σ.ecdh b) (σ.garbage_le b) (σ.decoys_le b) (σ.first (!b))

end Session

/-- Both sides succeed, and what is left to be read is what the other side writes after its version packet. -/
def Session.Completes {s : Suite} {net : UInt32} (σ : Session s net) : Prop :=
  ∀ b, (σ.run b).1 = .ok () ∧ (σ.run b).2.rw.incoming = σ.later (!b)

/-- Without decoys, the handshake of two honest peers completes exactly when neither of them has drawn the greatest
length of garbage. -/
theorem completes_iff {s : Suite} {net : UInt32} (hs : s.Lawful) (σ : Session s net)
    (hdecoys : ∀ b, (σ.party b).decoys = []) :
    σ.Completes ↔ ∀ b, (σ.party b).garbage.length < maxGarbageLen := by
  constructor
  · intro h b
    obtain ⟨p', k, hrun, -⟩ := σ.run_complete hs (!b) (hdecoys _)
    have hok := (h (!b)).1
    rw [hrun, Bool.not_not] at hok
    by_contra hlong
    rw [if_neg hlong] at hok
    cases hok
  · intro h b
    obtain ⟨p', k, hrun, hrest⟩ := σ.run_complete hs b (hdecoys _)
    rw [if_pos (h _)] at hrun
    rw [hrun]
    exact ⟨rfl, (hrest (h _)).2.1⟩

/-- A suite whose secrets always agree. -/
def openSuite : Suite where
  toPrimitives := transparent
  PrivateKey := Unit
  hkdfExtract secret salt := secret ++ salt
  hkdfExpand _ info n := (info ++ replicate n 0).take n
  v2Ecdh _ _ _ _ := .ok [1, 2, 3]

theorem openSuite_lawful : openSuite.Lawful where
  toLawful := transparent_lawful
  length_hkdfExpand prk info := by
    simp [openSuite]

/-- Garbage of ones does not contain a terminator that begins with something else. -/
theorem firstAtEnd_replicate (n : Nat) {term : Bytes} (hterm : term.head? ≠ some 1) :
    FirstAtEnd (replicate n 1) term := by
  intro i hi heq
  refine hterm ?_
  rw [length_replicate] at hi
  rw [← heq, drop_append_of_le_length (by rw [length_replicate]; omega), drop_replicate,
    show n - i = n - i - 1 + 1 by omega]
  rfl

/-- A session over it with garbage and decoys of these lengths. -/
def openSession (garbageLen : Bool → Nat) (decoys : Bool → List Nat) (later : Bool → Bytes)
    (hgarbage : ∀ b, garbageLen b ≤ maxGarbageLen) (hdecoys : ∀ b, ∀ len ∈ decoys b, len ≤ maxContentLen) :
    Session openSuite 0 :=
  .of openSuite_lawful
    (fun b => ⟨(), .zero 64, replicate (garbageLen b) 1, decoys b, [5, 0, 1]⟩) [1, 2, 3] later (fun _ => rfl)
    (fun b => by rw [length_replicate]; exact hgarbage b) hdecoys
    (fun b => firstAtEnd_replicate _ (by cases b <;> decide))

theorem completes_iff_two_three :
    (openSession (fun b => if b then 2 else 3) (fun _ => []) (fun _ => [7]) (by decide) (by decide)).Completes :=
  (completes_iff openSuite_lawful _ fun _ => rfl).mpr (by decide)

/-- The initiator draws the greatest length. -/
def longestGarbage : Session openSuite 0 :=
  openSession (fun b => if b then 4095 else 0) (fun _ => []) (fun _ => []) (by decide) (by decide)

theorem longestGarbage_not_found :
    ¬ longestGarbage.Completes ∧ (longestGarbage.run false).1 = .error .garbageTermNotRecv := by
  have hlong : ¬ (longestGarbage.party (!false)).garbage.length < maxGarbageLen := by
    simp only [longestGarbage, openSession, Session.of, Bool.not_false, length_replicate, if_true]
    decide
  have hrun : (longestGarbage.run false).1 = .error .garbageTermNotRecv := by
    obtain ⟨p', k, hrun, -⟩ := longestGarbage.run_complete openSuite_lawful false rfl
    rw [if_neg hlong] at hrun
    rw [hrun]
  refine ⟨fun h => ?_, hrun⟩
  have hok := (h false).1
  rw [hrun] at hok
  cases hok

/-! ## Decoys -/

theorem Link.length_packets {c : Primitives} (hc : c.Lawful) : ∀ msgs (link : Link) aad,
    (link.packets c aad msgs).length = (msgs.map fun msg => msg.1.length + 20).sum
  | [], _, _ => rfl
  | (contents, ignore) :: rest, link, aad => by
    rw [Link.packets, length_append, Link.length_packet hc, Link.length_packets hc rest]
    rfl

theorem Link.length_greeting {c : Primitives} (hc : c.Lawful) : ∀ lens (link : Link) aad,
    (link.greeting c aad lens).length = 2 * (lens.map (· + 20)).sum + 20
  | [], link, aad => by
    rw [Link.greeting, Link.length_packet hc]
    rfl
  | len :: rest, link, aad => by
    simp only [Link.greeting, length_append, Link.length_packet hc, length_replicate,
      Link.length_greeting hc rest, map_cons, sum_cons]
    omega

/-- The packets that a side should send: its decoys, and the version packet. -/
def Party.announced {s : Suite} (x : Party s) : List (Bytes × Bool) :=
  x.decoys.map (fun len => (replicate len 0, true)) ++ [(transportVersion, false)]

/-- The stream is as long as one packet for each decoy and the version packet only if there are no decoys. -/
theorem Party.greeting_eq_packets_iff {s : Suite} (hs : s.Lawful) (x : Party s) (link : Link) :
    link.greeting s.toPrimitives x.garbage x.decoys = link.packets s.toPrimitives x.garbage x.announced ↔
      x.decoys = [] := by
  constructor
  · intro h
    have hlen := congrArg length h
    rw [Link.length_greeting hs.toLawful, Link.length_packets hs.toLawful, Party.announced, map_append,
      sum_append, map_map] at hlen
    have hsum : (x.decoys.map ((fun msg : Bytes × Bool => msg.1.length + 20) ∘ fun len => (replicate len 0, true))).sum
        = (x.decoys.map (· + 20)).sum := by
      refine congrArg sum (map_congr_left fun len _ => ?_)
      simp only [Function.comp_apply, length_replicate]
    rw [hsum] at hlen
    have hzero : (x.decoys.map (· + 20)).sum = 0 := by
      simp only [map_cons, map_nil, sum_cons, sum_nil] at hlen
      have hversion : transportVersion.length = 0 := rfl
      omega
    match hcase : x.decoys with
    | [] => rfl
    | len :: rest =>
      rw [hcase, map_cons, sum_cons] at hzero
      omega
  · intro h
    rw [Party.announced, h]
    simp only [Link.greeting, Link.packets, map_nil, nil_append, append_nil]

/-- The decoys of neither side are seen: both handshakes succeed, each side writes one packet for each of its decoys, and
what is sent afterwards arrives. -/
def Session.DecoysInvisible {s : Suite} {net : UInt32} (σ : Session s net) (msgs : Bool → List (Bytes × Bool)) : Prop :=
  ∀ b, (σ.run b).1 = .ok () ∧
    (σ.run b).2.rw.outgoing = (σ.party b).ellswift.bytes ++ (σ.party b).garbage ++ s.terminator σ.secret net b
      ++ (s.link σ.secret net b).packets s.toPrimitives (σ.party b).garbage (σ.party b).announced ∧
    ∀ n, ((σ.run b).2.receiveMany s.toPrimitives [] n).1 = (kept (msgs (!b))).take n ∧
      ((σ.run b).2.receiveMany s.toPrimitives [] n).2.1 = if n ≤ (kept (msgs (!b))).length then none else some .eof

/-- With garbage of a length that is found, the decoys are invisible exactly when there are none. -/
theorem decoysInvisible_iff {s : Suite} {net : UInt32} (hs : s.Lawful) (σ : Session s net)
    (hgarbage : ∀ b, (σ.party b).garbage.length < maxGarbageLen) {msgs : Bool → List (Bytes × Bool)}
    (hmsgs : ∀ b, ∀ msg ∈ msgs b, msg.1.length ≤ maxContentLen)
    (hlater : ∀ b, ((σ.run b).2.sendAll s.toPrimitives [] (msgs b)).2.rw.outgoing
      = (σ.run b).2.rw.outgoing ++ σ.later b) :
    σ.DecoysInvisible msgs ↔ ∀ b, (σ.party b).decoys = [] := by
  constructor
  · intro h b
    have hout := (h b).2.1
    rw [σ.outgoing_run hs b, Party.emission] at hout
    exact (Party.greeting_eq_packets_iff hs ..).mp (append_cancel_left hout)
  · intro hnone b
    obtain ⟨p₁, k₁, hrun, hafter⟩ := σ.run_complete hs b (hnone _)
    obtain ⟨hk₁, hin, hreceives, -⟩ := hafter (hgarbage _)
    rw [if_pos (hgarbage _)] at hrun
    obtain ⟨p₂, k₂, hrun₂, hafter₂⟩ := σ.run_complete hs (!b) (hnone _)
    obtain ⟨hk₂, -, -, hsends⟩ := hafter₂ (hgarbage _)
    -- what the other side has sent afterwards
    have hstream : σ.later (!b) = k₁.receives.packets s.toPrimitives [] (msgs (!b)) := by
      have hwritten := hlater (!b)
      rw [hrun₂, Peer.sendAll_eq hs.toLawful (msgs (!b)) hk₂ (hmsgs _), hsends, hnone] at hwritten
      rw [hreceives]
      exact (append_cancel_left hwritten).symm
    refine ⟨by rw [hrun], ?_, fun n => ?_⟩
    · rw [σ.outgoing_run hs b, Party.emission, (Party.greeting_eq_packets_iff hs ..).mpr (hnone b)]
    · rw [hrun]
      exact Peer.receiveMany_eq hs.toLawful n (msgs (!b)) (hmsgs _) p₁ k₁ hk₁ [] (hin.trans hstream)

theorem decoysInvisible_iff_none : (openSession (fun _ => 2) (fun _ => [])
      (fun b => ((openSuite.link [1, 2, 3] 0 b).after openSuite.toPrimitives 1).packets openSuite.toPrimitives []
        [([7], false)]) (by decide) (by decide)).DecoysInvisible fun _ => [([7], false)] :=
  (decoysInvisible_iff openSuite_lawful _ (by decide) (by decide) (by decide)).mpr fun _ => rfl

/-- The initiator sends one decoy. -/
def oneDecoy : Session openSuite 0 :=
  openSession (fun _ => 2) (fun b => if b then [0] else []) (fun _ => []) (by decide) (by decide)

/-- It is on the wire twice, and the responder's handshake fails. -/
theorem oneDecoy_seen : ¬ oneDecoy.DecoysInvisible (fun _ => []) ∧ (oneDecoy.run false).1 ≠ .ok () := by
  have hrun : (oneDecoy.run false).1 ≠ .ok () := by decide
  exact ⟨fun h => hrun (h false).1, hrun⟩

end NogoCommons.V2transport
