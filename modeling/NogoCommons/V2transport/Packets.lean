import NogoCommons.V2transport.Chacha

/-!
# `v2transport/transport.go` — packets

A packet is the length of its contents, three bytes under the stream cipher, and then a header byte and the contents under
the other one. The receiver decrypts the length to know how much to read, and drops the packets whose header says so.

A connection is the bytes that are still to come and a list of numbers, how much each `Read` returns at most. What
`Receive` answers does not depend on that list (`receive_eq`), and that is all there is to say about how the bytes are
split.

`packets` is the stream that a list of contents becomes. Sending writes it (`sendAll_eq`), and receiving reads it back:
`receiveLoop_cons` is one packet, and `receiveMany_eq` all of them, by induction on the list. The ciphers of the two sides
are equal before and after, which is why neither counter and neither key has to be looked at.
-/

namespace NogoCommons.V2transport
open Lib Reader List

def maxContentLen : Nat := 2 ^ 24 - 1
def lengthFieldLen : Nat := 3
def headerLen : Nat := 1
def ignoreBitPos : UInt8 := 7

/-! ## Connections -/

/-- `io.ReadWriter`, seen from one side. -/
structure Conn where
  /-- What the other side writes, as far as it has not been read. -/
  incoming : Bytes
  /-- How much the next calls of `Read` return at most. The calls after them return as much as there is. -/
  sizes : List Nat
  outgoing : Bytes
deriving DecidableEq

namespace Conn

/-- `Read` into a buffer of `n` bytes. Nothing is returned when the other side has closed. -/
def read (c : Conn) (n : Nat) : Option (Bytes × Conn) :=
  if c.incoming = [] then none
  else
    match c.sizes with
    | [] => some (c.incoming.take n, { c with incoming := c.incoming.drop n })
    | k :: ks =>
      some (c.incoming.take (min k n), { c with incoming := c.incoming.drop (min k n), sizes := ks })

def write (c : Conn) (data : Bytes) : Conn := { c with outgoing := c.outgoing ++ data }

/-- The loop of `Receive`, with the bytes received so far. -/
def receiveLoop (numBytes : Nat) : Nat → Conn → Bytes → Except TransportError Bytes × Conn
  | 0, c, _ => (.error .failedToRecv, c)
  | fuel + 1, c, b =>
    if b.length > numBytes then (.error .failedToRecv, c)
    else if b.length = numBytes then (.ok b, c)
    else
      match c.read (numBytes - b.length) with
      | none => (.error .eof, c)
      | some (got, c) => receiveLoop numBytes fuel c (b ++ got)

/-- Each turn of the loop uses up one of the sizes or, when there are none, makes progress. -/
def receive (c : Conn) (numBytes : Nat) : Except TransportError Bytes × Conn :=
  receiveLoop numBytes (c.sizes.length + numBytes + 2) c []

variable {numBytes : Nat} {c : Conn}

theorem receiveLoop_done {fuel : Nat} {b : Bytes} (h : b.length = numBytes) :
    receiveLoop numBytes (fuel + 1) c b = (.ok b, c) := by
  rw [receiveLoop, if_neg (by omega), if_pos h]

theorem receiveLoop_read {fuel : Nat} {b : Bytes} (h : b.length < numBytes) : receiveLoop numBytes (fuel + 1) c b =
      match c.read (numBytes - b.length) with
      | none => (.error .eof, c)
      | some (got, c) => receiveLoop numBytes fuel c (b ++ got) := by
  rw [receiveLoop, if_neg (by omega), if_neg (by omega)]

/-- The loop finishes with the next bytes of the stream, or with an error when there are not enough of them. -/
theorem receiveLoop_eq (numBytes : Nat) : ∀ fuel c b, b.length ≤ numBytes →
    c.sizes.length + (numBytes - b.length) + 1 < fuel →
    ∃ sizes, receiveLoop numBytes fuel c b =
      if numBytes - b.length ≤ c.incoming.length then
        (.ok (b ++ c.incoming.take (numBytes - b.length)),
          { c with incoming := c.incoming.drop (numBytes - b.length), sizes := sizes })
      else (.error .eof, { c with incoming := [], sizes := sizes })
  | 0, c, b, _, hfuel => by omega
  | fuel + 1, c, b, hb, hfuel => by
    obtain hdone | hmore := Nat.eq_or_lt_of_le hb
    · refine ⟨c.sizes, ?_⟩
      rw [receiveLoop_done hdone, if_pos (by omega), hdone, Nat.sub_self]
      simp
    -- What is read goes to the buffer, and the loop goes on.
    have rest := fun k ks (hsizes : c.sizes = k :: ks) (hpos : 0 < c.incoming.length) =>
      receiveLoop_eq numBytes fuel
        { c with incoming := c.incoming.drop (min k (numBytes - b.length)), sizes := ks }
        (b ++ c.incoming.take (min k (numBytes - b.length)))
        (by rw [length_append, length_take]; omega)
        (by
          simp only [hsizes, length_cons] at hfuel
          simp only [length_append, length_take]
          omega)
    rw [receiveLoop_read hmore]
    unfold read
    split_ifs with hempty henough henough
    · rw [hempty] at henough
      simp only [length_nil] at henough
      omega
    · exact ⟨c.sizes, by simp only [← hempty]⟩
    all_goals
      have hpos : 0 < c.incoming.length := length_pos_of_ne_nil hempty
    · cases hsizes : c.sizes with
      | nil =>
        refine ⟨[], ?_⟩
        obtain ⟨fuel, rfl⟩ : ∃ k, fuel = k + 1 := ⟨fuel - 1, by omega⟩
        simp only
        rw [receiveLoop_done (by rw [length_append, length_take]; omega)]
      | cons k ks =>
        obtain ⟨sizes, ih⟩ := rest k ks hsizes (length_pos_of_ne_nil hempty)
        have hread : (c.incoming.take (min k (numBytes - b.length))).length = min k (numBytes - b.length) := by
          rw [length_take]
          omega
        refine ⟨sizes, ?_⟩
        simp only
        rw [ih, if_pos (by simp only [length_append, hread, length_drop]; omega)]
        simp only [length_append, hread, append_assoc, drop_drop]
        have hsplit : numBytes - (b.length + min k (numBytes - b.length))
            = numBytes - b.length - min k (numBytes - b.length) := by omega
        have htake : c.incoming.take (min k (numBytes - b.length))
            ++ (c.incoming.drop (min k (numBytes - b.length))).take
              (numBytes - b.length - min k (numBytes - b.length))
            = c.incoming.take (numBytes - b.length) := by
          rw [← take_add]
          congr 1
          omega
        rw [hsplit, htake]
        congr 4
        omega
    · cases hsizes : c.sizes with
      | nil =>
        simp only
        rw [take_of_length_le (by omega), drop_of_length_le (by omega)]
        obtain ⟨fuel, rfl⟩ : ∃ k, fuel = k + 1 := ⟨fuel - 1, by omega⟩
        refine ⟨[], ?_⟩
        rw [receiveLoop_read (by rw [length_append]; omega), read, if_pos rfl]
      | cons k ks =>
        obtain ⟨sizes, ih⟩ := rest k ks hsizes (length_pos_of_ne_nil hempty)
        refine ⟨sizes, ?_⟩
        simp only
        rw [ih, if_neg (by simp only [length_append, length_take, length_drop]; omega)]

/-- However the bytes are split, `Receive` returns the next `numBytes` of them. -/
theorem receive_eq {u rest : Bytes} (h : c.incoming = u ++ rest) :
    ∃ sizes, c.receive u.length = (.ok u, { c with incoming := rest, sizes := sizes }) := by
  obtain ⟨sizes, heq⟩ := receiveLoop_eq u.length (c.sizes.length + u.length + 2) c [] (Nat.zero_le _)
    (by simp only [length_nil]; omega)
  refine ⟨sizes, ?_⟩
  rw [receive, heq, if_pos (by rw [h]; simp)]
  simp [h]

theorem receive_eof (h : c.incoming.length < numBytes) :
    ∃ sizes, c.receive numBytes = (.error .eof, { c with incoming := [], sizes := sizes }) := by
  obtain ⟨sizes, heq⟩ := receiveLoop_eq numBytes (c.sizes.length + numBytes + 2) c [] (Nat.zero_le _)
    (by simp only [length_nil]; omega)
  exact ⟨sizes, by rw [receive, heq, if_neg (by simpa using h)]⟩

end Conn

/-! ## Peers -/

/-- The ciphers of a peer. They are `nil` until the handshake has made them. -/
structure Ciphers where
  sendL : FSChaCha20
  sendP : FSChaCha20Poly1305
  recvL : FSChaCha20
  recvP : FSChaCha20Poly1305
deriving DecidableEq

/-- `Peer`, with the private key left to the package it comes from. -/
structure Peer (PrivateKey : Type) where
  privkeyOurs : Option PrivateKey
  ellswiftOurs : FixedBytes 64
  sentGarbage : Bytes
  ciphers : Option Ciphers
  sendGarbageTerm : Bytes
  recvGarbageTerm : Bytes
  initiatorL : Bytes
  initiatorP : Bytes
  responderL : Bytes
  responderP : Bytes
  sessionID : Bytes
  rw : Conn

variable {PrivateKey : Type}
namespace Peer
variable (c : Primitives) (p : Peer PrivateKey)

def send (data : Bytes) : Peer PrivateKey := { p with rw := p.rw.write data }

def receive (numBytes : Nat) : Except TransportError Bytes × Peer PrivateKey :=
  let (result, rw) := p.rw.receive numBytes
  (result, { p with rw := rw })

/-- The header byte. -/
def header (ignore : Bool) : UInt8 := (if ignore then 1 else 0) <<< ignoreBitPos

def v2EncPacket (contents aad : Bytes) (ignore : Bool) : Except TransportError (Bytes × Nat) × Peer PrivateKey :=
  let contentLen := contents.length
  if contentLen > maxContentLen then (.error .contentLengthExceeded, p)
  else
    match p.ciphers with
    | none => (.error .panic, p)
    | some k =>
      let plaintext := header ignore :: contents
      match k.sendP.encrypt c aad plaintext with
      | (.error e, sendP) => (.error e, { p with ciphers := some { k with sendP := sendP } })
      | (.ok aeadCiphertext, sendP) =>
        let contentsLE := putUint32LE (UInt32.ofNat contentLen)
        match k.sendL.crypt c (contentsLE.take lengthFieldLen) with
        | (.error e, sendL) => (.error e, { p with ciphers := some { k with sendP := sendP, sendL := sendL } })
        | (.ok encContentsLen, sendL) =>
          let encPacket := encContentsLen ++ aeadCiphertext
          let p := { p with ciphers := some { k with sendP := sendP, sendL := sendL } }
          (.ok (encPacket, encPacket.length), p.send encPacket)

/-- The loop of `V2ReceivePacket`. -/
def receiveLoop : Nat → Peer PrivateKey → Bytes → Except TransportError Bytes × Peer PrivateKey
  | 0, p, _ => (.error .failedToRecv, p)
  | fuel + 1, p, aad =>
    match p.receive lengthFieldLen with
    | (.error e, p) => (.error e, p)
    | (.ok encContentsLen, p) =>
      match p.ciphers with
      | none => (.error .panic, p)
      | some k =>
        match k.recvL.crypt c encContentsLen with
        | (.error e, recvL) => (.error e, { p with ciphers := some { k with recvL := recvL } })
        | (.ok contentsLenBytes, recvL) =>
          let k := { k with recvL := recvL }
          let p := { p with ciphers := some k }
          let contentsLen := (uint32LE (FixedBytes.copy 4 contentsLenBytes).bytes).toNat
          if contentsLen > maxContentLen then (.error .contentLengthExceeded, p)
          else
            match p.receive (headerLen + contentsLen + chachapoly1305Expansion) with
            | (.error e, p) => (.error e, p)
            | (.ok aeadCiphertext, p) =>
              match k.recvP.decrypt c aad aeadCiphertext with
              | (.error e, recvP) => (.error e, { p with ciphers := some { k with recvP := recvP } })
              | (.ok plaintext, recvP) =>
                let p := { p with ciphers := some { k with recvP := recvP } }
                match plaintext with
                | [] => (.error .panic, p)
                | header :: contents =>
                  if header &&& (1 <<< ignoreBitPos) = 0 then (.ok contents, p)
                  -- the associated data is for the first packet only
                  else receiveLoop fuel p []

/-- Every turn of the loop reads something. -/
def v2ReceivePacket (aad : Bytes) : Except TransportError Bytes × Peer PrivateKey :=
  receiveLoop c (p.rw.incoming.length + 1) p aad

/-- Calls of `V2EncPacket` one after the other, the associated data in the first of them. -/
def sendAll (p : Peer PrivateKey) (aad : Bytes) : List (Bytes × Bool) → Except TransportError Unit × Peer PrivateKey
  | [] => (.ok (), p)
  | (contents, ignore) :: rest =>
    match p.v2EncPacket c contents aad ignore with
    | (.error e, p) => (.error e, p)
    | (.ok _, p) => sendAll p [] rest

/-- At most `n` calls of `V2ReceivePacket` one after the other, the associated data in the first of them: what they
return, and the error of the one that fails. -/
def receiveMany (p : Peer PrivateKey) (aad : Bytes) : Nat → List Bytes × Option TransportError × Peer PrivateKey
  | 0 => ([], none, p)
  | n + 1 =>
    match p.v2ReceivePacket c aad with
    | (.error e, p) => ([], some e, p)
    | (.ok contents, p) =>
      let (rest, e, p) := receiveMany p [] n
      (contents :: rest, e, p)

end Peer

theorem Peer.header_ignored (ignore : Bool) : Peer.header ignore &&& (1 <<< ignoreBitPos) = 0 ↔ ignore = false := by
  cases ignore <;> decide

/-! ## One direction -/

/-- The two ciphers of one direction. The sender has them as `sendL` and `sendP`, the receiver as `recvL` and `recvP`. -/
structure Link where
  l : FSChaCha20
  p : FSChaCha20Poly1305

def Ciphers.sends (k : Ciphers) : Link := ⟨k.sendL, k.sendP⟩
def Ciphers.receives (k : Ciphers) : Link := ⟨k.recvL, k.recvP⟩
def Ciphers.setSends (k : Ciphers) (link : Link) : Ciphers := { k with sendL := link.l, sendP := link.p }
def Ciphers.setReceives (k : Ciphers) (link : Link) : Ciphers := { k with recvL := link.l, recvP := link.p }
@[simp] theorem Ciphers.receives_setReceives (k : Ciphers) (link : Link) : (k.setReceives link).receives = link := rfl
theorem Ciphers.setReceives_receives (k : Ciphers) : k.setReceives k.receives = k := rfl
@[simp] theorem Ciphers.sends_setSends (k : Ciphers) (link : Link) : (k.setSends link).sends = link := rfl

namespace Link
variable (c : Primitives)

/-- The three bytes of a length. -/
def lengthField (contents : Bytes) : Bytes := (putUint32LE (UInt32.ofNat contents.length)).take lengthFieldLen

@[simp] theorem length_lengthField (contents : Bytes) : (lengthField contents).length = 3 := by
  simp [lengthField, lengthFieldLen]

def packet (link : Link) (contents aad : Bytes) (ignore : Bool) : Bytes :=
  link.l.cipher.xorKeyStream c (lengthField contents) ++ link.p.sealed c aad (Peer.header ignore :: contents)

def next (link : Link) : Link := ⟨link.l.next c lengthFieldLen, link.p.next c⟩

/-- One packet for each of the contents, the associated data in the first of them. -/
def packets (link : Link) (aad : Bytes) : List (Bytes × Bool) → Bytes
  | [] => []
  | (contents, ignore) :: rest => link.packet c contents aad ignore ++ packets (link.next c) [] rest

/-- The ciphers after so many packets. -/
def after (link : Link) : Nat → Link
  | 0 => link
  | n + 1 => after (link.next c) n

theorem after_succ {c : Primitives} (link : Link) (n : Nat) : link.after c (n + 1) = (link.after c n).next c := by
  induction n generalizing link with
  | zero => rfl
  | succ n ih => exact ih (link.next c)

/-- The length of a packet. -/
theorem length_packet {c : Primitives} (hc : c.Lawful) (link : Link) (contents aad : Bytes) (ignore : Bool) :
    (link.packet c contents aad ignore).length = contents.length + 20 := by
  rw [packet, length_append, FSChaCha20Poly1305.length_sealed hc, StreamCipher.length_xorKeyStream,
    length_lengthField, length_cons, show chachapoly1305Expansion = 16 from rfl]
  omega

theorem length_le_packets {c : Primitives} (hc : c.Lawful) : ∀ msgs (link : Link) aad,
    msgs.length ≤ (link.packets c aad msgs).length
  | [], _, _ => Nat.le_refl _
  | (contents, ignore) :: rest, link, aad => by
    have ih := length_le_packets hc rest (link.next c) []
    rw [packets, length_append, length_packet hc, length_cons]
    omega

/-- The three bytes are enough: what the receiver makes of them is the length. -/
theorem uint32LE_lengthField {contents : Bytes} (h : contents.length ≤ maxContentLen) :
    (uint32LE (FixedBytes.copy 4 (lengthField contents)).bytes).toNat = contents.length := by
  have hlt : contents.length < 2 ^ 24 := by
    unfold maxContentLen at h
    omega
  have h32 : (UInt32.ofNat contents.length).toNat = contents.length := by
    rw [UInt32.toNat_ofNat']
    omega
  -- the fourth byte, which is not sent, is zero
  have hlow : FixedBytes.copy 4 (lengthField contents)
      = FixedBytes.copy 4 (putUint32LE (UInt32.ofNat contents.length)) := by
    refine FixedBytes.ext ?_
    have hzero : contents.length / 16777216 = 0 := by omega
    simp [FixedBytes.copy, FixedBytes.copyAt, lengthField, lengthFieldLen, putUint32LE, h32, beBytes, Nat.div_div_eq_div_mul,
      hzero]
  rw [hlow, FixedBytes.copy_bytes (putUint32LE_length _), uint32LE_putUint32LE, h32]

end Link

/-! ## Sending -/

section
variable {c : Primitives} (hc : c.Lawful)
include hc

variable {k : Ciphers} {p : Peer PrivateKey} {contents aad rest : Bytes}

theorem Peer.v2EncPacket_eq (hk : p.ciphers = some k) (h : contents.length ≤ maxContentLen) (aad : Bytes)
    (ignore : Bool) :
    p.v2EncPacket c contents aad ignore =
      (.ok (k.sends.packet c contents aad ignore, (k.sends.packet c contents aad ignore).length), { p with
          ciphers := some (k.setSends (k.sends.next c)),
          rw := p.rw.write (k.sends.packet c contents aad ignore) }) := by
  unfold Peer.v2EncPacket
  rw [if_neg (by omega), hk]
  simp only [FSChaCha20Poly1305.encrypt_eq hc, FSChaCha20.crypt_eq]
  have hlen : ((putUint32LE (UInt32.ofNat contents.length)).take lengthFieldLen).length = lengthFieldLen :=
    Link.length_lengthField contents
  rw [hlen]
  rfl

/-- Sending writes one packet for each of the contents. -/
theorem Peer.sendAll_eq : ∀ msgs {p : Peer PrivateKey} {k} (_ : p.ciphers = some k)
    (_ : ∀ msg ∈ msgs, msg.1.length ≤ maxContentLen) (aad : Bytes),
    p.sendAll c aad msgs =
      (.ok (), { p with
        ciphers := some (k.setSends (k.sends.after c msgs.length)),
        rw := p.rw.write (k.sends.packets c aad msgs) })
  | [], p, k, hk, _, aad => by
    have hsame : k.setSends k.sends = k := rfl
    simp only [Peer.sendAll, Link.packets, Link.after, length_nil, Conn.write, append_nil, hsame, ← hk]
  | (contents, ignore) :: rest, p, k, hk, h, aad => by
    rw [Peer.sendAll, Peer.v2EncPacket_eq hc hk (h _ (mem_cons_self ..))]
    simp only
    rw [Peer.sendAll_eq rest rfl (fun msg hmsg => h msg (mem_cons_of_mem _ hmsg))]
    simp only [Link.packets, Link.after, length_cons, Conn.write, append_assoc, Ciphers.sends_setSends]
    rfl

/-! ## Receiving -/

omit hc in
/-- The peer that has read some packets more. -/
def Peer.after (p : Peer PrivateKey) (k : Ciphers) (link : Link) (incoming : Bytes) (sizes : List Nat) : Peer PrivateKey :=
  { p with ciphers := some (k.setReceives link), rw := { p.rw with incoming := incoming, sizes := sizes } }

/-- One packet at the front of the stream. -/
theorem Peer.receiveLoop_cons (hk : p.ciphers = some k) (h : contents.length ≤ maxContentLen) {ignore : Bool}
    (hin : p.rw.incoming = k.receives.packet c contents aad ignore ++ rest) (fuel : Nat) :
    ∃ sizes, Peer.receiveLoop c (fuel + 1) p aad =
      if ignore then Peer.receiveLoop c fuel (p.after k (k.receives.next c) rest sizes) []
      else (.ok contents, p.after k (k.receives.next c) rest sizes) := by
  rw [Link.packet, append_assoc] at hin
  obtain ⟨sizes₁, hfield⟩ := Conn.receive_eq hin
  rw [StreamCipher.length_xorKeyStream, Link.length_lengthField] at hfield
  have hbody : ({ p.rw with
      incoming := k.receives.p.sealed c aad (Peer.header ignore :: contents) ++ rest, sizes := sizes₁ } : Conn).incoming
      = k.receives.p.sealed c aad (Peer.header ignore :: contents) ++ rest := rfl
  obtain ⟨sizes₂, hcipher⟩ := Conn.receive_eq hbody
  have hlen : (k.receives.p.sealed c aad (Peer.header ignore :: contents)).length
      = headerLen + contents.length + chachapoly1305Expansion := by
    rw [FSChaCha20Poly1305.length_sealed hc, length_cons, headerLen, Nat.add_comm contents.length 1]
  rw [hlen] at hcipher
  refine ⟨sizes₂, ?_⟩
  have hdecrypt : k.recvL.cipher.xorKeyStream c (k.receives.l.cipher.xorKeyStream c (Link.lengthField contents))
      = Link.lengthField contents := StreamCipher.xorKeyStream_xorKeyStream ..
  have hopen : k.recvP.decrypt c aad (k.receives.p.sealed c aad (Peer.header ignore :: contents))
      = (.ok (Peer.header ignore :: contents), k.recvP.next c) := FSChaCha20Poly1305.decrypt_sealed hc ..
  have hfield' : p.rw.receive lengthFieldLen = _ := hfield
  rw [Peer.receiveLoop]
  simp only [Peer.receive, hfield', hk, FSChaCha20.crypt_eq, hdecrypt, Link.uint32LE_lengthField h,
    StreamCipher.length_xorKeyStream, Link.length_lengthField]
  rw [if_neg (by omega), hcipher]
  simp only [hopen]
  cases ignore with
  | false => rw [if_pos ((Peer.header_ignored false).mpr rfl)]; rfl
  | true => rw [if_neg (fun hh => by cases (Peer.header_ignored true).mp hh)]; rfl

/-- Packets that are to be ignored are read one after the other. Only the first packet has the associated data. -/
theorem Peer.receiveLoop_ignored {msgs : List (Bytes × Bool)} (fuel : Nat) :
    ∀ (ignored : List Bytes) (_ : ∀ decoy ∈ ignored, decoy.length ≤ maxContentLen) (p : Peer PrivateKey) k
      (_ : p.ciphers = some k) (aad : Bytes)
      (_ : p.rw.incoming = k.receives.packets c aad (ignored.map (·, true) ++ msgs) ++ rest),
    ∃ sizes aad', Peer.receiveLoop c (fuel + ignored.length) p aad =
      Peer.receiveLoop c fuel (p.after k (k.receives.after c ignored.length)
        ((k.receives.after c ignored.length).packets c aad' msgs ++ rest) sizes) aad'
  | [], _, p, k, hk, aad, hin => by
    refine ⟨p.rw.sizes, aad, ?_⟩
    simp only [map_nil, nil_append] at hin
    simp only [Peer.after, Link.after, length_nil, Nat.add_zero, ← hin, k.setReceives_receives, ← hk]
  | decoy :: ignored, hall, p, k, hk, aad, hin => by
    simp only [map_cons, cons_append, Link.packets, append_assoc] at hin
    obtain ⟨sizes, hstep⟩ := Peer.receiveLoop_cons hc hk (hall _ (mem_cons_self ..)) hin (fuel + ignored.length)
    obtain ⟨sizes', aad', ih⟩ := Peer.receiveLoop_ignored fuel ignored (fun d hd => hall d (mem_cons_of_mem _ hd))
      (p.after k (k.receives.next c) _ sizes) _ rfl [] rfl
    exact ⟨sizes', aad', hstep.trans ih⟩

/-- Packets that are to be ignored, and then one that is not: the call returns its contents and reads no further. -/
theorem Peer.v2ReceivePacket_first (hk : p.ciphers = some k) {ignored : List Bytes} {msgs : List (Bytes × Bool)}
    (hall : ∀ decoy ∈ ignored, decoy.length ≤ maxContentLen) (h : contents.length ≤ maxContentLen)
    (hin : p.rw.incoming = k.receives.packets c aad (ignored.map (·, true) ++ (contents, false) :: msgs) ++ rest) :
    ∃ sizes, p.v2ReceivePacket c aad = (.ok contents, p.after k (k.receives.after c (ignored.length + 1))
      ((k.receives.after c (ignored.length + 1)).packets c [] msgs ++ rest) sizes) := by
  have hlen := Link.length_le_packets hc (ignored.map (·, true) ++ (contents, false) :: msgs) k.receives aad
  rw [length_append, length_map, length_cons] at hlen
  obtain ⟨fuel, hfuel⟩ : ∃ fuel, p.rw.incoming.length + 1 = fuel + 1 + ignored.length :=
    ⟨p.rw.incoming.length - ignored.length, by rw [hin, length_append]; omega⟩
  obtain ⟨sizes, aad', hskip⟩ := Peer.receiveLoop_ignored hc (fuel + 1) ignored hall p k hk aad hin
  rw [Link.packets, append_assoc] at hskip
  obtain ⟨sizes', hlast⟩ := Peer.receiveLoop_cons hc (p := p.after k (k.receives.after c ignored.length) _ sizes)
    (k := k.setReceives (k.receives.after c ignored.length)) rfl h rfl fuel
  refine ⟨sizes', ?_⟩
  rw [Peer.v2ReceivePacket, hfuel, Link.after_succ]
  exact hskip.trans hlast

/-- Only packets that are to be ignored: the call reads them all and finds the end of the stream. -/
theorem Peer.v2ReceivePacket_ignored (hk : p.ciphers = some k) {ignored : List Bytes}
    (hall : ∀ decoy ∈ ignored, decoy.length ≤ maxContentLen)
    (hin : p.rw.incoming = k.receives.packets c aad (ignored.map (·, true))) :
    ∃ p', p.v2ReceivePacket c aad = (.error .eof, p') := by
  have hlen := Link.length_le_packets hc (ignored.map (·, true)) k.receives aad
  rw [length_map] at hlen
  obtain ⟨fuel, hfuel⟩ : ∃ fuel, p.rw.incoming.length + 1 = fuel + 1 + ignored.length :=
    ⟨p.rw.incoming.length - ignored.length, by rw [hin]; omega⟩
  rw [← append_nil (map _ ignored), ← append_nil (Link.packets ..)] at hin
  obtain ⟨sizes, aad', hskip⟩ := Peer.receiveLoop_ignored hc (fuel + 1) ignored hall p k hk aad hin
  obtain ⟨sizes', heof⟩ := Conn.receive_eof (c := (p.after k (k.receives.after c ignored.length) [] sizes).rw)
    (Nat.zero_lt_succ 2)
  refine ⟨p.after k (k.receives.after c ignored.length) [] sizes', ?_⟩
  rw [Peer.v2ReceivePacket, hfuel, hskip]
  simp only [Peer.receiveLoop, Peer.receive, Link.packets, append_nil, lengthFieldLen, heof]
  rfl

end

/-- The contents that are not to be ignored. -/
def kept (msgs : List (Bytes × Bool)) : List Bytes := (msgs.filter fun msg => !msg.2).map Prod.fst

/-- A list of packets begins with some to be ignored, and then there is one that is not, or nothing. -/
theorem ignored_cases : ∀ msgs : List (Bytes × Bool), (∃ ignored : List Bytes, msgs = ignored.map (·, true)) ∨
    ∃ (ignored : List Bytes) (contents : Bytes) (rest : List (Bytes × Bool)),
      msgs = ignored.map (·, true) ++ (contents, false) :: rest
  | [] => .inl ⟨[], rfl⟩
  | (contents, false) :: rest => .inr ⟨[], contents, rest, rfl⟩
  | (decoy, true) :: msgs => by
    obtain ⟨ignored, rfl⟩ | ⟨ignored, contents, rest, rfl⟩ := ignored_cases msgs
    · exact .inl ⟨decoy :: ignored, rfl⟩
    · exact .inr ⟨decoy :: ignored, contents, rest, rfl⟩

theorem kept_ignored (ignored : List Bytes) : kept (ignored.map (·, true)) = [] := by
  simp [kept, filter_map, Function.comp_def]

theorem kept_append (as bs : List (Bytes × Bool)) : kept (as ++ bs) = kept as ++ kept bs := by
  simp [kept]

/-- Any number of calls returns as many of the contents that are not to be ignored, in order, and the call after the last
of them finds the end of the stream. -/
theorem Peer.receiveMany_eq {c : Primitives} (hc : c.Lawful) :
    ∀ (n : Nat) (msgs : List (Bytes × Bool)) (_ : ∀ msg ∈ msgs, msg.1.length ≤ maxContentLen) (p : Peer PrivateKey)
      (k : Ciphers) (_ : p.ciphers = some k) (aad : Bytes) (_ : p.rw.incoming = k.receives.packets c aad msgs),
    (p.receiveMany c aad n).1 = (kept msgs).take n ∧
      (p.receiveMany c aad n).2.1 = if n ≤ (kept msgs).length then none else some .eof
  | 0, msgs, _, p, k, _, aad, _ => ⟨rfl, rfl⟩
  | n + 1, msgs, hall, p, k, hk, aad, hin => by
    obtain ⟨ignored, rfl⟩ | ⟨ignored, contents, rest, rfl⟩ := ignored_cases msgs
    · have hdecoys : ∀ decoy ∈ ignored, decoy.length ≤ maxContentLen := fun decoy hd =>
        hall (decoy, true) (mem_map_of_mem hd)
      obtain ⟨p', heof⟩ := Peer.v2ReceivePacket_ignored hc hk hdecoys hin
      rw [Peer.receiveMany, heof, kept_ignored]
      exact ⟨rfl, rfl⟩
    · have hdecoys : ∀ decoy ∈ ignored, decoy.length ≤ maxContentLen := fun decoy hd =>
        hall (decoy, true) (mem_append_left _ (mem_map_of_mem hd))
      have hcontents : contents.length ≤ maxContentLen :=
        hall (contents, false) (mem_append_right _ (mem_cons_self ..))
      rw [← append_nil (k.receives.packets c aad _)] at hin
      obtain ⟨sizes, hfirst⟩ := Peer.v2ReceivePacket_first hc hk hdecoys hcontents hin
      have hkept : kept (ignored.map (·, true) ++ (contents, false) :: rest) = contents :: kept rest := by
        rw [kept_append, kept_ignored]
        rfl
      obtain ⟨hlist, herr⟩ := Peer.receiveMany_eq hc n rest
        (fun msg hmsg => hall msg (mem_append_right _ (mem_cons_of_mem _ hmsg)))
        (p.after k (k.receives.after c (ignored.length + 1)) _ sizes) _ rfl [] (append_nil _)
      rw [Peer.receiveMany, hfirst, hkept]
      refine ⟨congrArg (contents :: ·) hlist, ?_⟩
      simp only [length_cons, Nat.add_le_add_iff_right]
      exact herr

/-! ## Nonces -/

/-- Both ciphers have used every nonce once, and their counters agree. -/
structure Link.Fresh (link : Link) (sent : Nat) : Prop where
  l : link.l.Fresh
  p : link.p.Fresh
  chunkCtr : link.l.chunkCtr.toNat = sent
  packetCtr : link.p.packetCtr.toNat = sent

theorem Link.Fresh.next {c : Primitives} {link : Link} {sent : Nat} (h : link.Fresh sent) (hsent : sent < 2 ^ 63) :
    (link.next c).Fresh (sent + 1) := by
  have hl : link.l.chunkCtr.toNat < 2 ^ 63 := h.chunkCtr ▸ hsent
  have hp : link.p.packetCtr.toNat < 2 ^ 63 := h.packetCtr ▸ hsent
  refine ⟨h.l.next hl _, h.p.next hp, ?_, ?_⟩
  · rw [Link.next, FSChaCha20.chunkCtr_next, toNat_succ hl, h.chunkCtr]
  · rw [Link.next, FSChaCha20Poly1305.packetCtr_next, toNat_succ hp, h.packetCtr]

theorem Link.Fresh.after {c : Primitives} : ∀ n {link : Link} {sent}, link.Fresh sent → sent + n ≤ 2 ^ 63 →
    (link.after c n).Fresh (sent + n)
  | 0, _, _, h, _ => h
  | n + 1, link, sent, h, hn => by
    have hnext : (link.next c).Fresh (sent + 1) := h.next (by omega)
    have ih : ((link.next c).after c n).Fresh (sent + 1 + n) := Link.Fresh.after n hnext (by omega)
    rwa [Nat.add_assoc, Nat.add_comm 1 n] at ih

/-- The ciphers that a handshake makes have used nothing. -/
theorem Link.fresh_new {keyL keyP : Bytes} {link : Link} (hl : newFSChaCha20 keyL = .ok link.l)
    (hp : newFSChaCha20Poly1305 keyP = .ok link.p) : link.Fresh 0 := by
  obtain ⟨l, p⟩ := link
  obtain ⟨kl, -, rfl⟩ := FSChaCha20.new_eq_ok.mp hl
  obtain ⟨kp, -, rfl⟩ := FSChaCha20Poly1305.new_eq_ok.mp hp
  exact ⟨FSChaCha20.fresh_initial kl, FSChaCha20Poly1305.fresh_initial kp, rfl, rfl⟩

/-! ## What arrives -/

/-- What one side has written is what the other side finds: every call of `V2EncPacket` succeeds, any number of calls of
`V2ReceivePacket` return the contents that are not to be ignored, and the one after the last of them finds the end. Under
the keys of the handshake the first `2 ^ 63` packets use no nonce twice, whatever the keys that follow are, and no byte of
a key stream. -/
theorem packets_arrive {PrivateKey : Type} {c : Primitives} (hc : c.Lawful) {sender receiver : Peer PrivateKey}
    {ks kr : Ciphers} (hs : sender.ciphers = some ks) (hr : receiver.ciphers = some kr)
    (hinstep : ks.sends = kr.receives) (aad : Bytes) {msgs : List (Bytes × Bool)}
    (hlen : ∀ msg ∈ msgs, msg.1.length ≤ maxContentLen)
    (hin : (sender.sendAll c aad msgs).2.rw.outgoing = sender.rw.outgoing ++ receiver.rw.incoming) :
    (sender.sendAll c aad msgs).1 = .ok () ∧
    (∀ n, (receiver.receiveMany c aad n).1 = (kept msgs).take n ∧
      (receiver.receiveMany c aad n).2.1 = if n ≤ (kept msgs).length then none else some .eof) ∧
    ∀ keyL keyP, newFSChaCha20 keyL = .ok ks.sendL → newFSChaCha20Poly1305 keyP = .ok ks.sendP →
      msgs.length ≤ 2 ^ 63 → ∃ k, (sender.sendAll c aad msgs).2.ciphers = some k ∧
        (k.sendP.uses.map Prod.snd).Nodup ∧ (k.sendL.uses.map Prod.snd).Nodup := by
  have hsend := Peer.sendAll_eq hc msgs hs hlen aad
  rw [hsend] at hin ⊢
  refine ⟨rfl, fun n => ?_, fun keyL keyP hl hp hn => ?_⟩
  · have hstream : receiver.rw.incoming = kr.receives.packets c aad msgs := by
      rw [← hinstep]
      exact (append_cancel_left hin).symm
    exact Peer.receiveMany_eq hc n msgs hlen receiver kr hr aad hstream
  · have hnew : ks.sends.Fresh 0 := Link.fresh_new hl hp
    have hfresh : (ks.sends.after c msgs.length).Fresh (0 + msgs.length) := hnew.after msgs.length (by omega)
    exact ⟨_, rfl, hfresh.p.nodup, hfresh.l.nodup⟩

/-- Ciphers that hide nothing: the tag is the nonce and the first bytes of the associated data, and the key stream counts. -/
def transparent : Primitives where
  aeadSeal _ nonce plaintext aad := plaintext ++ (FixedBytes.copy 16 (nonce ++ aad)).bytes
  aeadOpen _ nonce ciphertext aad :=
    if ciphertext.drop (ciphertext.length - 16) = (FixedBytes.copy 16 (nonce ++ aad)).bytes then
      some (ciphertext.take (ciphertext.length - 16))
    else none
  keystream _ nonce i := nonce.getD 4 0 + UInt8.ofNat i

theorem transparent_lawful : transparent.Lawful where
  length_aeadSeal key nonce text aad := by
    simp [transparent, chachapoly1305Expansion]
  aeadOpen_aeadSeal key nonce text aad _ _ := by
    have hlen : (text ++ (FixedBytes.copy 16 (nonce ++ aad)).bytes).length - 16 = text.length := by simp
    simp only [transparent, hlen, drop_left, take_left, if_true]

/-- A peer after a handshake that gave both directions the zero key. -/
def idlePeer (incoming : Bytes) (sizes : List Nat) : Peer Unit where
  privkeyOurs := none
  ellswiftOurs := .zero 64
  sentGarbage := []
  ciphers := some
    { sendL := .initial (.zero 32), sendP := .initial (.zero 32),
      recvL := .initial (.zero 32), recvP := .initial (.zero 32) }
  sendGarbageTerm := []
  recvGarbageTerm := []
  initiatorL := []
  initiatorP := []
  responderL := []
  responderP := []
  sessionID := []
  rw := ⟨incoming, sizes, []⟩

/-- Three packets, the second of them a decoy, read in pieces. -/
def threePackets : List (Bytes × Bool) := [([1], false), ([2, 3], true), ([], false)]
def threeSent : Bytes := ((idlePeer [] []).sendAll transparent [9] threePackets).2.rw.outgoing

theorem packets_arrive_three : (idlePeer [] []).sendAll transparent [9] threePackets
        = (.ok (), ((idlePeer [] []).sendAll transparent [9] threePackets).2) ∧
      ((idlePeer threeSent [1, 0, 2]).receiveMany transparent [9] 3).1 = [[1], []] ∧
      ((idlePeer threeSent [1, 0, 2]).receiveMany transparent [9] 3).2.1 = some .eof := by
  have hlen : ∀ msg ∈ threePackets, msg.1.length ≤ maxContentLen := by decide
  have hin : ((idlePeer [] []).sendAll transparent [9] threePackets).2.rw.outgoing
      = (idlePeer [] []).rw.outgoing ++ (idlePeer threeSent [1, 0, 2]).rw.incoming := rfl
  obtain ⟨hsent, hreceived, -⟩ := packets_arrive transparent_lawful rfl rfl rfl [9] hlen hin
  exact ⟨Prod.ext hsent rfl, hreceived 3⟩

end NogoCommons.V2transport
