import NogoCommons.Lib.Positional
import Mathlib.Tactic.Linarith

/-!
# Byte strings and big-endian numbers

Every format of the program is a concatenation of three kinds of field: a byte array of a
fixed length, a number written big-endian in a fixed number of bytes, and a number written
big-endian in as few bytes as it takes. This file is the three of them, over plain
`List UInt8`, with the two facts a format proof spends on each: what reading a written
field gives, and which byte strings are written fields.

The minimal form is the delicate one. It writes zero as the *empty* string, and a byte
string is a minimal form exactly when its first byte is not zero (`natBytes_beNat`,
`natBytes_head`); every canonicity question about a length-prefixed number comes down to
that one condition.
-/

namespace NogoCommons.Lib
open List

/-- A byte string. Go's `[]byte` with its capacity forgotten, and `nil` read as empty. -/
abbrev Bytes := List UInt8

/-- The bytes of a string of ASCII characters. -/
def ascii (s : String) : Bytes := s.toList.map fun c => UInt8.ofNat c.toNat

/-- The number a byte string spells, most significant byte first. -/
def beNat (bs : Bytes) : Nat := Nat.ofDigits 256 (bs.reverse.map UInt8.toNat)

/-- A number in as few bytes as it takes, most significant first; zero is the empty string. -/
def natBytes (n : Nat) : Bytes := ((Nat.digits 256 n).map UInt8.ofNat).reverse

/-- The low `w` bytes of a number, most significant first. -/
def beBytes : Nat → Nat → Bytes
  | 0, _ => []
  | w + 1, n => beBytes w (n / 256) ++ [UInt8.ofNat n]

/-! ## Bytes as digits -/

theorem map_toNat_ofNat {ds : List Nat} (h : ∀ d ∈ ds, d < 256) : (ds.map UInt8.ofNat).map UInt8.toNat = ds := by
  rw [map_map]
  conv_rhs => rw [← map_id ds]
  exact map_congr_left fun d hd => UInt8.toNat_ofNat_of_lt' (h d hd)

theorem map_ofNat_toNat (bs : Bytes) : (bs.map UInt8.toNat).map UInt8.ofNat = bs := by
  simp [Function.comp_def]

theorem digits_lt_256 (bs : Bytes) : ∀ d ∈ bs.map UInt8.toNat, d < 256 := by
  intro d hd
  obtain ⟨b, -, rfl⟩ := mem_map.mp hd
  exact b.toNat_lt

theorem beNat_eq_horner (bs : Bytes) : beNat bs = horner 256 (bs.map UInt8.toNat) := by
  rw [horner_eq_ofDigits, ← map_reverse]
  rfl

theorem natBytes_eq_numeral (n : Nat) : natBytes n = (numeral 256 n).map UInt8.ofNat := map_reverse.symm

theorem beBytes_eq_places (w n : Nat) : beBytes w n = (places 256 w n).map UInt8.ofNat := by
  induction w generalizing n with
  | zero => rfl
  | succ w ih =>
    have hbyte : UInt8.ofNat n = UInt8.ofNat (n % 256) := UInt8.toNat_inj.mp (by simp)
    rw [beBytes, places_succ, ih, map_append, map_singleton, hbyte]

/-! ## Reading -/

@[simp] theorem beNat_nil : beNat [] = 0 := rfl

theorem beNat_append (as bs : Bytes) : beNat (as ++ bs) = beNat as * 256 ^ bs.length + beNat bs := by
  simp only [beNat_eq_horner, map_append, horner_append, length_map]

theorem beNat_cons (b : UInt8) (bs : Bytes) : beNat (b :: bs) = b.toNat * 256 ^ bs.length + beNat bs := by
  simp only [beNat_eq_horner, map_cons, horner_cons, length_map]

theorem beNat_lt (bs : Bytes) : beNat bs < 256 ^ bs.length := by
  rw [beNat_eq_horner, ← length_map UInt8.toNat]
  exact horner_lt (digits_lt_256 bs)

theorem beNat_replicate_zero (k : Nat) : beNat (replicate k 0) = 0 := by
  induction k with
  | zero => rfl
  | succ k ih => rw [replicate_succ, beNat_cons, ih]; simp

/-! ## The minimal form -/

@[simp] theorem natBytes_zero : natBytes 0 = [] := by simp [natBytes]

/-- **Reading a minimal form gives the number back.** -/
@[simp] theorem beNat_natBytes (n : Nat) : beNat (natBytes n) = n := by
  rw [beNat_eq_horner, natBytes_eq_numeral, map_toNat_ofNat (numeral_lt (by decide) n), horner_numeral]

theorem natBytes_injective {m n : Nat} (h : natBytes m = natBytes n) : m = n := by
  rw [← beNat_natBytes m, h, beNat_natBytes]

@[simp] theorem natBytes_length (n : Nat) : (natBytes n).length = (Nat.digits 256 n).length := by
  simp [natBytes]

theorem natBytes_eq_nil {n : Nat} : natBytes n = [] ↔ n = 0 := by
  rw [← length_eq_zero_iff, natBytes_length, length_eq_zero_iff, Nat.digits_eq_nil_iff_eq_zero]

theorem natBytes_lt (n : Nat) : n < 256 ^ (natBytes n).length := by
  have h := beNat_lt (natBytes n)
  rwa [beNat_natBytes] at h

/-- A minimal form never starts with a zero byte. -/
theorem natBytes_head (n : Nat) : (natBytes n).head? ≠ some 0 := by
  intro h
  have hhead := congrArg (Option.map UInt8.toNat) h
  rw [natBytes_eq_numeral, ← head?_map, map_toNat_ofNat (numeral_lt (by decide) n)] at hhead
  exact head_numeral_ne_zero n hhead

/-- Bytes are their zeros and their number. -/
theorem bytes_eq (bs : Bytes) : bs = replicate (bs.takeWhile (· == 0)).length 0 ++ natBytes (beNat bs) := by
  have hzeros : leadingZeros (bs.map UInt8.toNat) = (bs.takeWhile (· == 0)).length := by
    rw [leadingZeros, takeWhile_map, length_map]
    congr 2
    funext b
    rw [Bool.eq_iff_iff]
    simp [← UInt8.toNat_inj]
  have hdigits := congrArg (map UInt8.ofNat) (eq_zeros_append_numeral (by decide) (digits_lt_256 bs))
  rwa [map_ofNat_toNat, map_append, map_replicate, hzeros, ← beNat_eq_horner, ← natBytes_eq_numeral] at hdigits

/-- Without its leading zero bytes a byte string is a minimal form. -/
theorem natBytes_beNat_eq_dropWhile (bs : Bytes) : natBytes (beNat bs) = bs.dropWhile (· == 0) := by
  have hsplit := (takeWhile_append_dropWhile (p := (· == 0)) (l := bs)).trans (bytes_eq bs)
  exact (append_inj hsplit length_replicate.symm).2.symm

/-- **A byte string that does not start with a zero byte is a minimal form** — the converse
of `natBytes_head`, and the only canonicity condition a number field has. -/
theorem natBytes_beNat {bs : Bytes} (h : bs.head? ≠ some 0) : natBytes (beNat bs) = bs := by
  have hzeros : (bs.takeWhile (· == 0)).length = 0 := length_takeWhile_replicate_append 0 h
  have hbytes := bytes_eq bs
  rw [hzeros] at hbytes
  exact hbytes.symm

theorem natBytes_length_le {n w : Nat} (h : n < 256 ^ w) : (natBytes n).length ≤ w := by
  rw [natBytes_length]
  exact (Nat.digits_length_le_iff (by decide) n).mpr h

/-! ## The fixed-width form -/

@[simp] theorem beBytes_length (w n : Nat) : (beBytes w n).length = w := by
  induction w generalizing n with
  | zero => rfl
  | succ w ih => simp [beBytes, ih]

/-- **Reading a fixed-width form gives the number modulo the width** — for a number that does
not fit, the high bytes are gone without a trace. -/
theorem beNat_beBytes (w n : Nat) : beNat (beBytes w n) = n % 256 ^ w := by
  rw [beNat_eq_horner, beBytes_eq_places, map_toNat_ofNat (places_lt (by decide) w n), horner_places]

theorem beNat_beBytes_of_lt {w n : Nat} (h : n < 256 ^ w) : beNat (beBytes w n) = n := by
  rw [beNat_beBytes, Nat.mod_eq_of_lt h]

/-- Every byte string is the fixed-width form of the number it spells, at its own length. -/
theorem beBytes_beNat (bs : Bytes) : beBytes bs.length (beNat bs) = bs := by
  rw [beBytes_eq_places, beNat_eq_horner, ← length_map UInt8.toNat, places_horner (digits_lt_256 bs), map_ofNat_toNat]

/-! ## Byte arrays -/

/-- Go's `[n]byte`: a byte string together with the proof of its length. -/
structure FixedBytes (n : Nat) where
  bytes : Bytes
  length_eq : bytes.length = n
deriving DecidableEq

namespace FixedBytes
variable {n : Nat}

theorem ext {a b : FixedBytes n} (h : a.bytes = b.bytes) : a = b := by
  cases a
  cases b
  simp only at h
  subst h
  rfl

@[simp] theorem bytes_length (a : FixedBytes n) : a.bytes.length = n := a.length_eq

/-- `copy(a[off:], src)` into a zeroed array `a`: the bytes of `src` from position `off` on, as
many as fit, and zero everywhere else. -/
def copyAt (n off : Nat) (src : Bytes) : FixedBytes n where
  bytes := (replicate off 0 ++ src ++ replicate n 0).take n
  length_eq := by simp; omega

/-- `copy(a[:], src)` into a zeroed array. -/
def copy (n : Nat) (src : Bytes) : FixedBytes n := copyAt n 0 src

/-- The zero array, `[n]byte{}`. -/
def zero (n : Nat) : FixedBytes n where
  bytes := replicate n 0
  length_eq := length_replicate

theorem copyAt_bytes {off : Nat} {src : Bytes} (h : off + src.length = n) :
    (copyAt n off src).bytes = replicate off 0 ++ src := by
  have hlen : (replicate off 0 ++ src).length = n := by simp [h]
  show (replicate off 0 ++ src ++ replicate n 0).take n = _
  rw [take_append_of_le_length (Nat.le_of_eq hlen.symm), take_of_length_le (Nat.le_of_eq hlen)]

theorem copy_bytes {src : Bytes} (h : src.length = n) : (copy n src).bytes = src := by
  rw [copy, copyAt_bytes (by omega)]
  rfl

@[simp] theorem copy_self (a : FixedBytes n) : copy n a.bytes = a :=
  ext (copy_bytes a.length_eq)

end FixedBytes
end NogoCommons.Lib
