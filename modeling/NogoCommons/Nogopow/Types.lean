import NogoCommons.Lib.Go

/-!
# `nogopow/types.go` — the block header

The record every other file of the package is about, and the byte string `SealHash` hashes.
`Number` and `Difficulty` are pointers to unbounded signed integers in the source, and stay
so here: the code reads them through `Bytes`, `Uint64` and `Sign`, and those see different
things of one value.

Three of the ten fields have no fixed length (`Number`, `Extra`, `Difficulty`), and
`rlpEncode` writes all ten one after the other. What follows from that is
`Nogopow/SealPreimage.lean`.
-/

namespace NogoCommons.Nogopow
open Lib List

/-- A 32-byte hash. -/
abbrev Hash := FixedBytes 32

/-- A 20-byte address. -/
abbrev Address := FixedBytes 20

/-- The 32-byte nonce of a header. -/
abbrev BlockNonce := FixedBytes 32

structure Header where
  parentHash : Hash
  coinbase : Address
  root : Hash
  txHash : Hash
  number : Option Int
  gasLimit : UInt64
  time : UInt64
  extra : Bytes
  nonce : BlockNonce
  difficulty : Option Int
deriving DecidableEq

/-- The header `&Header{}`. -/
def Header.zero : Header where
  parentHash := .zero 32
  coinbase := .zero 20
  root := .zero 32
  txHash := .zero 32
  number := none
  gasLimit := 0
  time := 0
  extra := []
  nonce := .zero 32
  difficulty := none

/-- `Number` and `Difficulty` are present and not negative — what every header a peer can
send satisfies, since both arrive as byte strings. -/
structure Header.NonNeg (h : Header) : Prop where
  number : ∃ n : Nat, h.number = some (n : Int)
  difficulty : ∃ n : Nat, h.difficulty = some (n : Int)

/-- `BytesToHash`: the last 32 bytes, zero-filled on the left. -/
def bytesToHash (b : Bytes) : Hash :=
  let b := if b.length > 32 then b.drop (b.length - 32) else b
  .copyAt 32 (32 - b.length) b

/-- The bytes of an optional number: nothing at all for a `nil` pointer. -/
def optBytes : Option Int → Bytes
  | none => []
  | some x => bigBytes x

@[simp] theorem optBytes_some_nat (n : Nat) : optBytes (some (n : Int)) = natBytes n :=
  bigBytes_natCast n

/-- `rlpEncode`: what the header's fields write, in order. -/
def rlpEncode (h : Header) : Bytes :=
  h.parentHash.bytes ++
  h.coinbase.bytes ++
  h.root.bytes ++
  h.txHash.bytes ++
  optBytes h.number ++
  putUint64 h.gasLimit ++
  putUint64 h.time ++
  (if h.extra.length > 0 then h.extra else []) ++
  h.nonce.bytes ++
  optBytes h.difficulty

/-- The four leading fields, 116 bytes in every header. -/
def rlpFixed (h : Header) : Bytes :=
  h.parentHash.bytes ++ h.coinbase.bytes ++ h.root.bytes ++ h.txHash.bytes

/-- The six fields after them. -/
def rlpTail (h : Header) : Bytes :=
  optBytes h.number ++ (putUint64 h.gasLimit ++ (putUint64 h.time ++
    (h.extra ++ (h.nonce.bytes ++ optBytes h.difficulty))))

/-- Skipping an empty `Extra` is writing it. -/
theorem rlpEncode_eq (h : Header) : rlpEncode h = rlpFixed h ++ rlpTail h := by
  have hextra : (if h.extra.length > 0 then h.extra else []) = h.extra := by
    cases h.extra <;> simp
  unfold rlpEncode rlpFixed rlpTail
  rw [hextra]
  simp only [append_assoc]

@[simp] theorem rlpFixed_length (h : Header) : (rlpFixed h).length = 116 := by
  simp [rlpFixed]

theorem rlpTail_length (h : Header) : (rlpTail h).length =
    (optBytes h.number).length + h.extra.length + (optBytes h.difficulty).length + 48 := by
  simp only [rlpTail, length_append, putUint64_length, FixedBytes.bytes_length]
  omega

/-- The 116 leading bytes determine their four fields. -/
theorem rlpFixed_inj {h h' : Header} (he : rlpFixed h = rlpFixed h') :
    h.parentHash = h'.parentHash ∧ h.coinbase = h'.coinbase ∧ h.root = h'.root ∧
      h.txHash = h'.txHash := by
  unfold rlpFixed at he
  obtain ⟨he, htx⟩ := append_inj he (by simp)
  obtain ⟨he, hroot⟩ := append_inj he (by simp)
  obtain ⟨hparent, hcoin⟩ := append_inj he (by simp)
  exact ⟨FixedBytes.ext hparent, FixedBytes.ext hcoin, FixedBytes.ext hroot, FixedBytes.ext htx⟩

/-- Two headers that write the same bytes, and as many of them for `Number` and for `Extra`,
write the same bytes for every field: nothing is left to slide. -/
theorem rlpEncode_fields {h h' : Header} (hn : (optBytes h.number).length = (optBytes h'.number).length)
    (hx : h.extra.length = h'.extra.length) (he : rlpEncode h = rlpEncode h') :
    (h.parentHash = h'.parentHash ∧ h.coinbase = h'.coinbase ∧ h.root = h'.root ∧
      h.txHash = h'.txHash) ∧ optBytes h.number = optBytes h'.number ∧
      h.gasLimit = h'.gasLimit ∧ h.time = h'.time ∧ h.extra = h'.extra ∧ h.nonce = h'.nonce ∧
      optBytes h.difficulty = optBytes h'.difficulty := by
  rw [rlpEncode_eq, rlpEncode_eq] at he
  obtain ⟨hfix, htail⟩ := append_inj he (by simp)
  unfold rlpTail at htail
  obtain ⟨hnum, htail⟩ := append_inj htail hn
  obtain ⟨hgas, htail⟩ := append_inj htail (by simp)
  obtain ⟨htime, htail⟩ := append_inj htail (by simp)
  obtain ⟨hextra, htail⟩ := append_inj htail hx
  obtain ⟨hnonce, hdiff⟩ := append_inj htail (by simp)
  exact ⟨rlpFixed_inj hfix, hnum, putUint64_injective hgas, putUint64_injective htime, hextra,
    FixedBytes.ext hnonce, hdiff⟩

end NogoCommons.Nogopow
