import NogoCommons.Lib.Bytes
import Mathlib.Order.Basic

/-!
# The part of Go the models are written in

A Go function has three ways to end: it returns a value, it returns an error value, or it
panics. The first two are ordinary results and each model has its own type for them; the
third is `Go`, and the panics the models can reach are a `nil` pointer that is read, a slice
expression that leaves its slice and a division by zero.

`big.Int` is `Int` and `*big.Int` is `Option Int`. What needs a definition is only what the
library does *away* from the values a caller has in mind: `Bytes` and `Uint64` look at the
absolute value, and `Uint64` keeps its low 64 bits.
-/

namespace NogoCommons.Lib
open List

/-! ## Panics -/

/-- The run-time panics the modelled code can reach. -/
inductive Panic where
  | nilDeref
  | sliceBounds
  | divideByZero
deriving DecidableEq, Repr

/-- The outcome of Go code that may panic. -/
abbrev Go (α : Type) := Except Panic α

/-- Reading through a pointer. -/
def deref {α : Type} : Option α → Go α
  | none => .error .nilDeref
  | some a => .ok a

@[simp] theorem deref_some {α : Type} (a : α) : deref (some a) = .ok a := rfl
@[simp] theorem ok_bind {α β : Type} (a : α) (f : α → Go β) : (Except.ok a : Go α) >>= f = f a := rfl

theorem bind_eq_ok {ε α β : Type} {x : Except ε α} {f : α → Except ε β} {b : β} :
    (x >>= f) = .ok b ↔ ∃ a, x = .ok a ∧ f a = .ok b := by
  cases x with
  | error e =>
    constructor
    · intro h
      cases h
    · rintro ⟨a, h, -⟩
      cases h
  | ok a =>
    constructor
    · intro h
      exact ⟨a, rfl, h⟩
    · rintro ⟨a', ha, h⟩
      cases ha
      exact h

/-- The slice expression `data[lo:hi]`, confined to `len(data)`. (Go itself checks `hi`
against the capacity; on a slice with spare capacity an expression this definition
refuses reads bytes that are not part of `data`.) -/
def slice (data : Bytes) (lo hi : Nat) : Go Bytes :=
  if lo ≤ hi ∧ hi ≤ data.length then .ok ((data.drop lo).take (hi - lo))
  else .error .sliceBounds

theorem slice_ok {data : Bytes} {lo hi : Nat} (h : lo ≤ hi) (h' : hi ≤ data.length) :
    slice data lo hi = .ok ((data.drop lo).take (hi - lo)) := if_pos ⟨h, h'⟩

theorem slice_panic {data : Bytes} {lo hi : Nat} (h : data.length < hi) :
    slice data lo hi = .error .sliceBounds := if_neg fun hh => by omega

/-- The index expression `xs[i]`. -/
def elemAt {α : Type} (xs : List α) (i : Nat) : Go α :=
  match xs[i]? with
  | some a => .ok a
  | none => .error .sliceBounds

theorem elemAt_eq_ok {α : Type} {xs : List α} {i : Nat} {a : α} :
    elemAt xs i = .ok a ↔ ∃ rest, xs.drop i = a :: rest := by
  rw [elemAt, ← head?_drop]
  cases xs.drop i with
  | nil =>
    constructor
    · intro h
      cases h
    · rintro ⟨rest, h⟩
      cases h
  | cons b rest =>
    constructor
    · intro h
      cases h
      exact ⟨rest, rfl⟩
    · rintro ⟨rest', h⟩
      cases h
      rfl

theorem elemAt_of_lt {α : Type} {xs : List α} {i : Nat} (h : i < xs.length) : elemAt xs i = .ok xs[i] :=
  elemAt_eq_ok.mpr ⟨_, drop_eq_getElem_cons h⟩

/-- `copy(dst[pos:], src)`. -/
def copySlice {α : Type} (dst : List α) (pos : Nat) (src : List α) : List α :=
  dst.take pos ++ src.take (dst.length - pos) ++ dst.drop (pos + src.length)

theorem length_copySlice {α : Type} (dst : List α) (pos : Nat) (src : List α) :
    (copySlice dst pos src).length = dst.length := by
  simp only [copySlice, length_append, length_take, length_drop]
  omega

/-- A part of the destination is replaced by a part of the same length. -/
theorem copySlice_append {α : Type} {dst old src : List α} (post : List α) (h : old.length = src.length) :
    copySlice (dst ++ (old ++ post)) dst.length src = dst ++ (src ++ post) := by
  rw [copySlice, take_left, length_append, Nat.add_sub_cancel_left,
    take_of_length_le (by rw [length_append, h]; exact Nat.le_add_right ..), ← h, ← length_append,
    ← append_assoc, drop_left, append_assoc]

/-! ## `big.Int` -/

/-- `x.Bytes()`: the absolute value, big-endian, without leading zeros. -/
def bigBytes (x : Int) : Bytes := natBytes x.natAbs

/-- `x.Uint64()`: the low 64 bits of the absolute value. -/
def bigUint64 (x : Int) : UInt64 := UInt64.ofNat x.natAbs

/-- `new(big.Int).SetBytes(bs)`. -/
def bigSetBytes (bs : Bytes) : Int := (beNat bs : Int)

@[simp] theorem bigBytes_natCast (n : Nat) : bigBytes (n : Int) = natBytes n := by
  simp [bigBytes]

@[simp] theorem bigBytes_setBytes (bs : Bytes) : bigBytes (bigSetBytes bs) = natBytes (beNat bs) :=
  bigBytes_natCast _

@[simp] theorem bigSetBytes_natBytes (n : Nat) : bigSetBytes (natBytes n) = (n : Int) := by
  simp [bigSetBytes]

/-- The low 64 bits are zero on every multiple of `2 ^ 64`, not on zero alone. -/
theorem bigUint64_eq_zero {x : Int} : bigUint64 x = 0 ↔ x.natAbs % 2 ^ 64 = 0 := by
  unfold bigUint64
  rw [← UInt64.toNat_inj, UInt64.toNat_ofNat']
  rfl

/-! ## Fixed-width numbers in byte strings -/

/-- `binary.BigEndian.PutUint64` into a fresh 8-byte buffer. -/
def putUint64 (x : UInt64) : Bytes := beBytes 8 x.toNat

/-- `binary.BigEndian.Uint64` of an 8-byte slice. -/
def uint64 (bs : Bytes) : UInt64 := UInt64.ofNat (beNat bs)

/-- `binary.BigEndian.AppendUint16(nil, uint16(n))`: the conversion drops what does not fit. -/
def putUint16 (n : Nat) : Bytes := beBytes 2 n

/-- `binary.LittleEndian.PutUint32` into a fresh 4-byte buffer. -/
def putUint32LE (x : UInt32) : Bytes := (beBytes 4 x.toNat).reverse

/-- `binary.LittleEndian.Uint32` of a 4-byte slice. -/
def uint32LE (bs : Bytes) : UInt32 := UInt32.ofNat (beNat bs.reverse)
@[simp] theorem putUint64_length (x : UInt64) : (putUint64 x).length = 8 := beBytes_length ..
@[simp] theorem putUint16_length (n : Nat) : (putUint16 n).length = 2 := beBytes_length ..

@[simp] theorem putUint32LE_length (x : UInt32) : (putUint32LE x).length = 4 := by
  simp [putUint32LE]

theorem uint32LE_putUint32LE (x : UInt32) : uint32LE (putUint32LE x) = x := by
  unfold uint32LE putUint32LE
  rw [reverse_reverse, beNat_beBytes_of_lt (by have := x.toNat_lt; norm_num at *; omega)]
  exact UInt32.ofNat_toNat

theorem uint64_putUint64 (x : UInt64) : uint64 (putUint64 x) = x := by
  unfold uint64 putUint64
  rw [beNat_beBytes_of_lt (by have := x.toNat_lt; norm_num at *; omega)]
  exact UInt64.ofNat_toNat

theorem putUint64_uint64 {bs : Bytes} (h : bs.length = 8) : putUint64 (uint64 bs) = bs := by
  unfold uint64 putUint64
  have hlt : beNat bs < 2 ^ 64 := by
    have := beNat_lt bs
    rw [h] at this
    norm_num at *
    omega
  rw [UInt64.toNat_ofNat', Nat.mod_eq_of_lt hlt, ← h, beBytes_beNat]

theorem putUint64_injective {x y : UInt64} (h : putUint64 x = putUint64 y) : x = y := by
  rw [← uint64_putUint64 x, h, uint64_putUint64]

theorem beNat_putUint16 (n : Nat) : beNat (putUint16 n) = n % 65536 := beNat_beBytes 2 n

theorem putUint16_beNat {bs : Bytes} (h : bs.length = 2) : putUint16 (beNat bs) = bs := by
  unfold putUint16
  rw [← h, beBytes_beNat]

end NogoCommons.Lib
