import NogoCommons.Lib.Reader

/-!
# `v2transport/chacha.go` — the two ciphers that change their keys

`ChaCha20` and `ChaCha20-Poly1305` come from `golang.org/x/crypto` and are the fields of `Primitives`; what the package
documents of them is `Primitives.Lawful`. What is modelled is the bookkeeping around them: which key and which nonce each
call uses, and when a new key is drawn.

Neither cipher's state depends on what is encrypted: it depends on how many calls there were and, for the stream cipher,
on how long the texts were. So `crypt` is one equation, a result and the state `next` (`encrypt_eq`, `decrypt_sealed`,
`crypt_eq`), and two peers that started from one key stay in step for ever, the wrap of the counters included.

Each cipher keeps a history of its calls that the code does not have. The nonces in it are told apart by the counter alone
(`Fresh.next`), so nothing has to be assumed about the keys.
-/

namespace NogoCommons.V2transport
open Lib Reader List

/-- The number of messages under one key. -/
def rekeyInterval : UInt64 := 224
def keySize : Nat := 32
def chachapoly1305Expansion : Nat := 16

/-- The functions of `golang.org/x/crypto` that are used. -/
structure Primitives where
  /-- `Seal(nil, nonce, plaintext, aad)` of `chacha20poly1305.New(key)`. -/
  aeadSeal : (key nonce plaintext aad : Bytes) → Bytes
  /-- `Open(nil, nonce, ciphertext, aad)` of `chacha20poly1305.New(key)`. -/
  aeadOpen : (key nonce ciphertext aad : Bytes) → Option Bytes
  /-- A byte of the key stream of `chacha20.NewUnauthenticatedCipher(key, nonce)`. -/
  keystream : (key nonce : Bytes) → Nat → UInt8

structure Primitives.Lawful (c : Primitives) : Prop where
  length_aeadSeal : ∀ key nonce text aad,
    (c.aeadSeal key nonce text aad).length = text.length + chachapoly1305Expansion
  aeadOpen_aeadSeal : ∀ key nonce text aad, key.length = keySize → nonce.length = 12 →
    c.aeadOpen key nonce (c.aeadSeal key nonce text aad) aad = some text

/-- The errors of the package. -/
inductive TransportError where
  /-- `no garbage term received` -/
  | garbageTermNotRecv
  /-- `maximum content length exceeded` -/
  | contentLengthExceeded
  /-- `failed to recv data` -/
  | failedToRecv
  /-- `garbage too large` -/
  | garbageTooLarge
  /-- What `Read` returns when the other side has closed. -/
  | eof
  /-- `chacha20poly1305: bad key length`, `chacha20: wrong key size` -/
  | badKeyLength
  /-- `chacha20poly1305: message authentication failed` -/
  | openFailed
  /-- An error of `ellswift.V2Ecdh`. -/
  | ecdh
  /-- A `nil` cipher, or a plaintext without a header, is a panic. -/
  | panic
deriving DecidableEq, Repr

/-! ## Nonces -/

/-- `binary.LittleEndian.PutUint64`. -/
def putUint64LE (x : UInt64) : Bytes := leBytes 8 x.toNat

/-- The number of messages under the present key, and the number of keys before it. -/
def packetNonce (packetCtr : UInt64) : Bytes :=
  putUint32LE (packetCtr % rekeyInterval).toUInt32 ++ putUint64LE (packetCtr / rekeyInterval)

/-- `rekeyNonce`: four bytes `0xff`, and the rest of the packet's nonce. -/
def rekeyNonce (packetCtr : UInt64) : Bytes :=
  replicate 4 0xff ++ (packetNonce packetCtr).drop 4

/-- The nonce of the stream cipher that is made when `numRekeys` keys have been replaced. -/
def streamNonce (numRekeys : UInt64) : Bytes := replicate 4 0 ++ putUint64LE numRekeys
@[simp] theorem length_putUint64LE (x : UInt64) : (putUint64LE x).length = 8 := length_leBytes ..

@[simp] theorem length_packetNonce (ctr : UInt64) : (packetNonce ctr).length = 12 := by
  simp [packetNonce]

variable {x y : UInt64}

theorem putUint64LE_injective (h : putUint64LE x = putUint64LE y) : x = y := by
  have h' : beNat (beBytes 8 x.toNat) = beNat (beBytes 8 y.toNat) :=
    congrArg beNat (reverse_injective h)
  rw [beNat_beBytes_of_lt (by simpa using x.toNat_lt), beNat_beBytes_of_lt (by simpa using y.toNat_lt)] at h'
  exact UInt64.toNat.inj h'

theorem putUint32LE_injective {x y : UInt32} (h : putUint32LE x = putUint32LE y) : x = y := by
  rw [← uint32LE_putUint32LE x, h, uint32LE_putUint32LE]

theorem rekeyNonce_eq (ctr : UInt64) :
    rekeyNonce ctr = putUint32LE 0xffffffff ++ putUint64LE (ctr / rekeyInterval) := by
  have hdrop : (packetNonce ctr).drop 4 = putUint64LE (ctr / rekeyInterval) :=
    drop_left' (putUint32LE_length _)
  have hff : replicate 4 (0xff : UInt8) = putUint32LE 0xffffffff := by decide
  rw [rekeyNonce, hdrop, hff]

/-- The number that the first four bytes of a packet's nonce spell. -/
theorem toNat_numMsgs (ctr : UInt64) : ((ctr % rekeyInterval).toUInt32).toNat = ctr.toNat % 224 := by
  rw [UInt64.toNat_toUInt32, UInt64.toNat_mod, show rekeyInterval.toNat = 224 from rfl]
  omega

theorem toNat_numRekeys (ctr : UInt64) : (ctr / rekeyInterval).toNat = ctr.toNat / 224 := by
  rw [UInt64.toNat_div, show rekeyInterval.toNat = 224 from rfl]

section
variable {ctr : UInt64} (h : ctr.toNat < 2 ^ 63)
include h

theorem toNat_succ : (ctr + 1).toNat = ctr.toNat + 1 := by
  rw [UInt64.toNat_add, show (1 : UInt64).toNat = 1 from rfl]
  omega

theorem rekeys_iff : (ctr + 1) % rekeyInterval = 0 ↔ (ctr.toNat + 1) % 224 = 0 := by
  rw [← UInt64.toNat_inj, UInt64.toNat_mod, toNat_succ h]
  exact Iff.rfl

end

theorem packetNonce_injective (h : packetNonce x = packetNonce y) : x = y := by
  obtain ⟨hmsgs, hrekeys⟩ := append_inj h (by simp)
  have h1 := congrArg UInt32.toNat (putUint32LE_injective hmsgs)
  have h2 := congrArg UInt64.toNat (putUint64LE_injective hrekeys)
  rw [toNat_numMsgs, toNat_numMsgs] at h1
  rw [toNat_numRekeys, toNat_numRekeys] at h2
  exact UInt64.toNat.inj (by omega)

/-- No packet's nonce is a rekey nonce: fewer than `2 ^ 32 - 1` messages are sent under one key. -/
theorem packetNonce_ne_rekeyNonce (x y : UInt64) : packetNonce x ≠ rekeyNonce y := by
  intro h
  rw [rekeyNonce_eq] at h
  have hmsgs := putUint32LE_injective (append_inj h (by simp)).1
  have := congrArg UInt32.toNat hmsgs
  rw [toNat_numMsgs, show (0xffffffff : UInt32).toNat = 4294967295 from rfl] at this
  omega

theorem rekeyNonce_eq_iff : rekeyNonce x = rekeyNonce y ↔ x.toNat / 224 = y.toNat / 224 := by
  rw [rekeyNonce_eq, rekeyNonce_eq, append_cancel_left_eq, ← toNat_numRekeys, ← toNat_numRekeys, UInt64.toNat_inj]
  exact ⟨putUint64LE_injective, congrArg putUint64LE⟩

theorem streamNonce_injective (h : streamNonce x = streamNonce y) : x = y :=
  putUint64LE_injective (append_cancel_left h)

/-! ## `FSChaCha20Poly1305` -/

/-- `cipher.AEAD`: it is made from a key of the right length only. -/
def newAEAD (key : Bytes) : Except TransportError (FixedBytes keySize) :=
  if h : key.length = keySize then .ok ⟨key, h⟩ else .error .badKeyLength

theorem newAEAD_bytes (key : FixedBytes keySize) : newAEAD key.bytes = .ok key := dif_pos key.length_eq

structure FSChaCha20Poly1305 where
  key : Bytes
  packetCtr : UInt64
  cipher : FixedBytes keySize
  /-- History: the key and the nonce of every call of `Seal` and `Open`. -/
  uses : List (Bytes × Bytes)
deriving DecidableEq

def newFSChaCha20Poly1305 (initialKey : Bytes) : Except TransportError FSChaCha20Poly1305 := do
  let cipher ← newAEAD initialKey
  return { key := initialKey, packetCtr := 0, cipher := cipher, uses := [] }

namespace FSChaCha20Poly1305

/-- The cipher of a key of the right length. -/
def initial (key : FixedBytes keySize) : FSChaCha20Poly1305 :=
  { key := key.bytes, packetCtr := 0, cipher := key, uses := [] }

theorem new_eq_ok {key : Bytes} {f : FSChaCha20Poly1305} :
    newFSChaCha20Poly1305 key = .ok f ↔ ∃ k : FixedBytes keySize, k.bytes = key ∧ initial k = f := by
  constructor
  · intro h
    by_cases hlen : key.length = keySize
    · simp only [newFSChaCha20Poly1305, newAEAD, hlen, dif_pos] at h
      exact ⟨⟨key, hlen⟩, rfl, Except.ok.inj h⟩
    · simp only [newFSChaCha20Poly1305, newAEAD, hlen, dif_neg, not_false_eq_true] at h
      cases h
  · rintro ⟨k, rfl, rfl⟩
    rw [newFSChaCha20Poly1305, newAEAD_bytes]
    rfl

variable (c : Primitives) (f : FSChaCha20Poly1305)

def crypt (aad text : Bytes) (decrypt : Bool) : Except TransportError Bytes × FSChaCha20Poly1305 :=
  let nonce := packetNonce f.packetCtr
  let result :=
    if decrypt then c.aeadOpen f.cipher.bytes nonce text aad else some (c.aeadSeal f.cipher.bytes nonce text aad)
  let g := { f with uses := f.uses ++ [(f.cipher.bytes, nonce)] }
  match result with
  | none => (.error .openFailed, g)
  | some result =>
    let g := { g with packetCtr := f.packetCtr + 1 }
    if g.packetCtr % rekeyInterval = 0 then
      let nonce' := rekeyNonce f.packetCtr
      let key := (c.aeadSeal f.cipher.bytes nonce' (replicate 32 0) []).take keySize
      let g := { g with key := key, uses := g.uses ++ [(f.cipher.bytes, nonce')] }
      match newAEAD key with
      | .error e => (.error e, g)
      | .ok cipher => (.ok result, { g with cipher := cipher })
    else (.ok result, g)

def encrypt (aad plaintext : Bytes) : Except TransportError Bytes × FSChaCha20Poly1305 :=
  f.crypt c aad plaintext false

def decrypt (aad ciphertext : Bytes) : Except TransportError Bytes × FSChaCha20Poly1305 :=
  f.crypt c aad ciphertext true

/-- The key that replaces the present one, as an array. -/
def nextKey : FixedBytes keySize :=
  .copy keySize ((c.aeadSeal f.cipher.bytes (rekeyNonce f.packetCtr) (replicate 32 0) []).take keySize)

/-- The state after a message. -/
def next : FSChaCha20Poly1305 :=
  let uses := f.uses ++ [(f.cipher.bytes, packetNonce f.packetCtr)]
  if (f.packetCtr + 1) % rekeyInterval = 0 then
    { key := (f.nextKey c).bytes, packetCtr := f.packetCtr + 1, cipher := f.nextKey c,
      uses := uses ++ [(f.cipher.bytes, rekeyNonce f.packetCtr)] }
  else { f with packetCtr := f.packetCtr + 1, uses := uses }

theorem packetCtr_next : (f.next c).packetCtr = f.packetCtr + 1 := by
  unfold next
  split_ifs <;> rfl

/-- The ciphertext of a message. -/
def sealed (aad plaintext : Bytes) : Bytes := c.aeadSeal f.cipher.bytes (packetNonce f.packetCtr) plaintext aad

variable {c f}

theorem length_sealed (hc : c.Lawful) (aad plaintext : Bytes) :
    (f.sealed c aad plaintext).length = plaintext.length + chachapoly1305Expansion :=
  hc.length_aeadSeal ..

theorem newAEAD_nextKey (hc : c.Lawful) :
    newAEAD ((c.aeadSeal f.cipher.bytes (rekeyNonce f.packetCtr) (replicate 32 0) []).take keySize)
      = .ok (f.nextKey c) ∧
    (c.aeadSeal f.cipher.bytes (rekeyNonce f.packetCtr) (replicate 32 0) []).take keySize
      = (f.nextKey c).bytes := by
  have hlen : ((c.aeadSeal f.cipher.bytes (rekeyNonce f.packetCtr) (replicate 32 0) []).take keySize).length
      = keySize := by
    rw [length_take, hc.length_aeadSeal]
    rfl
  have hbytes := FixedBytes.copy_bytes hlen
  refine ⟨?_, hbytes.symm⟩
  rw [← hbytes]
  exact newAEAD_bytes _

theorem crypt_eq_of_result (hc : c.Lawful) {aad text result : Bytes} {decrypt : Bool}
    (h : (if decrypt then c.aeadOpen f.cipher.bytes (packetNonce f.packetCtr) text aad
      else some (c.aeadSeal f.cipher.bytes (packetNonce f.packetCtr) text aad)) = some result) :
    f.crypt c aad text decrypt = (.ok result, f.next c) := by
  obtain ⟨hnew, hkey⟩ := newAEAD_nextKey (f := f) hc
  unfold crypt next
  simp only [h, hnew]
  split_ifs
  · rw [hkey]
  · rfl

theorem encrypt_eq (hc : c.Lawful) (aad plaintext : Bytes) :
    f.encrypt c aad plaintext = (.ok (f.sealed c aad plaintext), f.next c) :=
  crypt_eq_of_result hc rfl

theorem decrypt_sealed (hc : c.Lawful) (aad plaintext : Bytes) :
    f.decrypt c aad (f.sealed c aad plaintext) = (.ok plaintext, f.next c) :=
  crypt_eq_of_result hc (hc.aeadOpen_aeadSeal _ _ _ _ f.cipher.length_eq (length_packetNonce _))

/-! ### No nonce is used twice -/

/-- The nonces of the history are those of the packets so far and of the keys replaced so far. -/
structure Fresh (f : FSChaCha20Poly1305) : Prop where
  nodup : (f.uses.map Prod.snd).Nodup
  mem : ∀ nonce ∈ f.uses.map Prod.snd,
    (∃ i : UInt64, i.toNat < f.packetCtr.toNat ∧ nonce = packetNonce i) ∨
    ∃ i : UInt64, i.toNat / 224 < f.packetCtr.toNat / 224 ∧ nonce = rekeyNonce i

theorem fresh_initial (key : FixedBytes keySize) : (initial key).Fresh :=
  ⟨nodup_nil, forall_mem_nil _⟩

/-- What `Fresh` says of a nonce, when the counter is there. -/
def Spent (ctr : Nat) (nonce : Bytes) : Prop :=
  (∃ i : UInt64, i.toNat < ctr ∧ nonce = packetNonce i) ∨ ∃ i : UInt64, i.toNat / 224 < ctr / 224 ∧ nonce = rekeyNonce i

theorem Spent.succ {ctr : Nat} {nonce : Bytes} (h : Spent ctr nonce) : Spent (ctr + 1) nonce := by
  obtain ⟨i, hi, heq⟩ | ⟨i, hi, heq⟩ := h
  · exact .inl ⟨i, by omega, heq⟩
  · exact .inr ⟨i, by omega, heq⟩

theorem not_spent_packetNonce (ctr : UInt64) : ¬ Spent ctr.toNat (packetNonce ctr) := by
  rintro (⟨i, hi, heq⟩ | ⟨i, -, heq⟩)
  · rw [packetNonce_injective heq] at hi
    omega
  · exact packetNonce_ne_rekeyNonce _ _ heq

theorem not_spent_rekeyNonce (ctr : UInt64) : ¬ Spent ctr.toNat (rekeyNonce ctr) := by
  rintro (⟨i, -, heq⟩ | ⟨i, hi, heq⟩)
  · exact packetNonce_ne_rekeyNonce _ _ heq.symm
  · rw [rekeyNonce_eq_iff.mp heq] at hi
    omega

theorem Fresh.next (h : f.Fresh) (hctr : f.packetCtr.toNat < 2 ^ 63) : (f.next c).Fresh := by
  have hsucc := toNat_succ hctr
  have hpacket : packetNonce f.packetCtr ∉ f.uses.map Prod.snd := fun hm => not_spent_packetNonce _ (h.mem _ hm)
  have hrekey : rekeyNonce f.packetCtr ∉ f.uses.map Prod.snd ++ [packetNonce f.packetCtr] := fun hm => by
    obtain hold | heq := mem_append.mp hm
    · exact not_spent_rekeyNonce _ (h.mem _ hold)
    · exact packetNonce_ne_rekeyNonce _ _ (mem_singleton.mp heq).symm
  have hnodup : (f.uses.map Prod.snd ++ [packetNonce f.packetCtr]).Nodup := by
    rw [← concat_eq_append]
    exact h.nodup.concat hpacket
  have hmem : ∀ nonce ∈ f.uses.map Prod.snd ++ [packetNonce f.packetCtr], Spent (f.packetCtr.toNat + 1) nonce := by
    intro nonce hnonce
    obtain hold | heq := mem_append.mp hnonce
    · exact Spent.succ (h.mem nonce hold)
    · exact .inl ⟨f.packetCtr, by omega, mem_singleton.mp heq⟩
  unfold FSChaCha20Poly1305.next
  split_ifs with hif <;> refine ⟨?_, fun nonce hnonce => ?_⟩ <;>
    simp only [map_append, map_cons, map_nil, hsucc] at *
  · rw [← concat_eq_append]
    exact hnodup.concat hrekey
  · obtain hold | heq := mem_append.mp hnonce
    · exact hmem nonce hold
    · have hmod := (rekeys_iff hctr).mp hif
      exact .inr ⟨f.packetCtr, by omega, mem_singleton.mp heq⟩
  · exact hnodup
  · exact hmem nonce hnonce

end FSChaCha20Poly1305

/-! ## `FSChaCha20` -/

/-- `chacha20.Cipher`: a key, a nonce, and how much of the key stream has been used. -/
structure StreamCipher where
  key : FixedBytes keySize
  nonce : Bytes
  pos : Nat
deriving DecidableEq

def newUnauthenticatedCipher (key nonce : Bytes) : Except TransportError StreamCipher :=
  if h : key.length = keySize then .ok { key := ⟨key, h⟩, nonce := nonce, pos := 0 } else .error .badKeyLength

namespace StreamCipher
variable (c : Primitives) (s : StreamCipher)

/-- The bytes that `XORKeyStream` writes. -/
def xorKeyStream (src : Bytes) : Bytes :=
  src.mapIdx fun i b => b ^^^ c.keystream s.key.bytes s.nonce (s.pos + i)

def advance (n : Nat) : StreamCipher := { s with pos := s.pos + n }

/-- The bytes of the key stream that a text of this length is mixed with. -/
def positions (n : Nat) : List (Bytes × Bytes × Nat) :=
  (range n).map fun i => (s.key.bytes, s.nonce, s.pos + i)

@[simp] theorem length_xorKeyStream (src : Bytes) : (s.xorKeyStream c src).length = src.length :=
  length_mapIdx

theorem xorKeyStream_xorKeyStream (src : Bytes) : s.xorKeyStream c (s.xorKeyStream c src) = src := by
  unfold xorKeyStream
  rw [mapIdx_mapIdx]
  refine ext_getElem (length_mapIdx) fun i h h' => ?_
  simp [UInt8.xor_assoc]

end StreamCipher

structure FSChaCha20 where
  key : Bytes
  chunkCtr : UInt64
  cipher : StreamCipher
  /-- History: the key, the nonce and the position of every byte of a key stream that was used. -/
  uses : List (Bytes × Bytes × Nat)
deriving DecidableEq

def newFSChaCha20 (initialKey : Bytes) : Except TransportError FSChaCha20 := do
  let cipher ← newUnauthenticatedCipher initialKey (streamNonce 0)
  return { key := initialKey, chunkCtr := 0, cipher := cipher, uses := [] }

namespace FSChaCha20

/-- The cipher of a key of the right length. -/
def initial (key : FixedBytes keySize) : FSChaCha20 :=
  { key := key.bytes, chunkCtr := 0, cipher := { key := key, nonce := streamNonce 0, pos := 0 }, uses := [] }

theorem new_eq_ok {key : Bytes} {f : FSChaCha20} :
    newFSChaCha20 key = .ok f ↔ ∃ k : FixedBytes keySize, k.bytes = key ∧ initial k = f := by
  constructor
  · intro h
    by_cases hlen : key.length = keySize
    · simp only [newFSChaCha20, newUnauthenticatedCipher, hlen, dif_pos] at h
      exact ⟨⟨key, hlen⟩, rfl, Except.ok.inj h⟩
    · simp only [newFSChaCha20, newUnauthenticatedCipher, hlen, dif_neg, not_false_eq_true] at h
      cases h
  · rintro ⟨k, rfl, rfl⟩
    simp only [newFSChaCha20, newUnauthenticatedCipher, k.length_eq, dif_pos]
    rfl

variable (c : Primitives) (f : FSChaCha20)

def crypt (text : Bytes) : Except TransportError Bytes × FSChaCha20 :=
  let textLen := text.length
  let dst := f.cipher.xorKeyStream c text
  let cipher := f.cipher.advance textLen
  let g : FSChaCha20 :=
    { f with cipher := cipher, chunkCtr := f.chunkCtr + 1, uses := f.uses ++ f.cipher.positions textLen }
  if g.chunkCtr % rekeyInterval = 0 then
    let newKey := cipher.xorKeyStream c (replicate 32 0)
    let numRekeys := g.chunkCtr / rekeyInterval
    let g := { g with key := newKey, cipher := cipher.advance 32, uses := g.uses ++ cipher.positions 32 }
    match newUnauthenticatedCipher newKey (streamNonce numRekeys) with
    | .error e => (.error e, g)
    | .ok cipher => (.ok dst, { g with cipher := cipher })
  else (.ok dst, g)

/-- The state after a text of this length. -/
def next (textLen : Nat) : FSChaCha20 :=
  let cipher := f.cipher.advance textLen
  let uses := f.uses ++ f.cipher.positions textLen
  if (f.chunkCtr + 1) % rekeyInterval = 0 then
    let newKey : FixedBytes keySize :=
      ⟨cipher.xorKeyStream c (replicate 32 0), cipher.length_xorKeyStream c _⟩
    { key := newKey.bytes, chunkCtr := f.chunkCtr + 1,
      cipher := { key := newKey, nonce := streamNonce ((f.chunkCtr + 1) / rekeyInterval), pos := 0 },
      uses := uses ++ cipher.positions 32 }
  else { f with cipher := cipher, chunkCtr := f.chunkCtr + 1, uses := uses }

variable {c f}

theorem chunkCtr_next (textLen : Nat) : (f.next c textLen).chunkCtr = f.chunkCtr + 1 := by
  simp only [next]
  split_ifs <;> rfl

theorem crypt_eq (text : Bytes) : f.crypt c text = (.ok (f.cipher.xorKeyStream c text), f.next c text.length) := by
  have hlen : ((f.cipher.advance text.length).xorKeyStream c (replicate 32 0)).length = keySize :=
    (StreamCipher.length_xorKeyStream c ..).trans rfl
  unfold crypt next newUnauthenticatedCipher
  simp only [hlen, dif_pos]
  split_ifs <;> rfl

/-! ### No byte of a key stream is used twice -/

/-- Every byte used so far belongs to a key stream that has been replaced, or stands before the position of the present
one. -/
structure Fresh (f : FSChaCha20) : Prop where
  nonce : f.cipher.nonce = streamNonce (f.chunkCtr / rekeyInterval)
  nodup : (f.uses.map Prod.snd).Nodup
  mem : ∀ use ∈ f.uses.map Prod.snd, ∃ e : UInt64, use.1 = streamNonce e ∧
    (e.toNat < f.chunkCtr.toNat / 224 ∨ e = f.chunkCtr / rekeyInterval ∧ use.2 < f.cipher.pos)

theorem fresh_initial (key : FixedBytes keySize) : (initial key).Fresh := by
  have hzero : streamNonce 0 = streamNonce (0 / rekeyInterval) := by decide
  exact ⟨hzero, nodup_nil, forall_mem_nil _⟩

/-- The positions of one text are new when all that were used under this nonce stand before them. -/
theorem nodup_append_positions {used : List (Bytes × Nat)} {s : StreamCipher} (n : Nat) (h : used.Nodup)
    (hold : ∀ use ∈ used, use.1 = s.nonce → use.2 < s.pos) : (used ++ (s.positions n).map Prod.snd).Nodup := by
  rw [nodup_append]
  refine ⟨h, ?_, ?_⟩
  · simp only [StreamCipher.positions, map_map]
    refine Nodup.map (fun i j hij => ?_) nodup_range
    have := congrArg Prod.snd hij
    simp only [Function.comp_apply] at this
    omega
  · rintro a ha b hb rfl
    simp only [StreamCipher.positions, map_map, mem_map, mem_range, Function.comp_apply] at hb
    obtain ⟨i, -, rfl⟩ := hb
    have := hold _ ha rfl
    simp only at this
    omega

theorem mem_positions {s : StreamCipher} {n : Nat} {use : Bytes × Nat} (h : use ∈ (s.positions n).map Prod.snd) :
    use.1 = s.nonce ∧ use.2 < s.pos + n := by
  simp only [StreamCipher.positions, map_map, mem_map, mem_range, Function.comp_apply] at h
  obtain ⟨i, hi, rfl⟩ := h
  exact ⟨rfl, by simp only; omega⟩

theorem Fresh.next (h : f.Fresh) (hctr : f.chunkCtr.toNat < 2 ^ 63) (n : Nat) : (f.next c n).Fresh := by
  have hsucc := toNat_succ hctr
  have hmod := rekeys_iff hctr
  have hrekeys := toNat_numRekeys f.chunkCtr
  -- what is known of a byte under the present nonce, and of one that has been used
  have hpresent : ∀ (use : Bytes × Nat) e pos, use.1 = f.cipher.nonce → use.1 = streamNonce e →
      (e.toNat < f.chunkCtr.toNat / 224 ∨ e = f.chunkCtr / rekeyInterval ∧ use.2 < pos) → use.2 < pos := by
    intro use e pos heq he hcase
    obtain hlt | ⟨-, hpos⟩ := hcase
    · rw [streamNonce_injective (he.symm.trans (heq.trans h.nonce))] at hlt
      omega
    · exact hpos
  have hmem : ∀ use ∈ f.uses.map Prod.snd ++ (f.cipher.positions n).map Prod.snd,
      ∃ e : UInt64, use.1 = streamNonce e ∧
        (e.toNat < f.chunkCtr.toNat / 224 ∨ e = f.chunkCtr / rekeyInterval ∧ use.2 < f.cipher.pos + n) := by
    intro use huse
    obtain hold | hnew := mem_append.mp huse
    · obtain ⟨e, he, hlt | ⟨heq, hpos⟩⟩ := h.mem use hold
      · exact ⟨e, he, .inl hlt⟩
      · exact ⟨e, he, .inr ⟨heq, by omega⟩⟩
    · obtain ⟨hnonce, hpos⟩ := mem_positions hnew
      exact ⟨_, hnonce.trans h.nonce, .inr ⟨rfl, hpos⟩⟩
  have hnodup := nodup_append_positions n h.nodup fun use huse heq => by
    obtain ⟨e, he, hcase⟩ := h.mem use huse
    exact hpresent use e _ heq he hcase
  simp only [FSChaCha20.next]
  split_ifs with hif
  · have hzero := hmod.mp hif
    refine ⟨rfl, ?_, fun use huse => ?_⟩ <;> simp only [map_append] at *
    · refine nodup_append_positions 32 hnodup fun use huse heq => ?_
      obtain ⟨e, he, hcase⟩ := hmem use huse
      exact hpresent use e _ heq he hcase
    · simp only [hsucc]
      obtain hold | hnew := mem_append.mp huse
      · obtain ⟨e, he, hlt | ⟨rfl, -⟩⟩ := hmem use hold <;> exact ⟨_, he, .inl (by omega)⟩
      · exact ⟨_, (mem_positions hnew).1.trans h.nonce, .inl (by omega)⟩
  · have hsame : (f.chunkCtr.toNat + 1) / 224 = f.chunkCtr.toNat / 224 := by
      have := mt hmod.mpr hif
      omega
    have hdiv : (f.chunkCtr + 1) / rekeyInterval = f.chunkCtr / rekeyInterval :=
      UInt64.toNat.inj (by rw [toNat_numRekeys, hrekeys, hsucc, hsame])
    refine ⟨h.nonce.trans (congrArg streamNonce hdiv.symm), ?_, fun use huse => ?_⟩ <;> simp only [map_append] at *
    · exact hnodup
    · simp only [hsucc, hdiv, hsame]
      exact hmem use huse

end FSChaCha20
end NogoCommons.V2transport
