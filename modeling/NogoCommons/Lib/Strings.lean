import NogoCommons.Lib.Bytes

/-!
# Strings as bytes

A Go string is its bytes. The letters that `strings.ToLower` and `strings.ToUpper` change are taken to be those of ASCII;
the programs that use them here have refused other strings before.
-/

namespace NogoCommons.Lib
open List

def isUpper (b : UInt8) : Bool := 65 ≤ b && b ≤ 90
def isLower (b : UInt8) : Bool := 97 ≤ b && b ≤ 122
def lowerByte (b : UInt8) : UInt8 := if isUpper b then b + 32 else b
def upperByte (b : UInt8) : UInt8 := if isLower b then b - 32 else b
def toLower (s : Bytes) : Bytes := s.map lowerByte
def toUpper (s : Bytes) : Bytes := s.map upperByte

/-- `strings.LastIndexByte`; `none` is -1. -/
def lastIndexByte : Bytes → UInt8 → Option Nat
  | [], _ => none
  | b :: s, c =>
    match lastIndexByte s c with
    | some i => some (i + 1)
    | none => if b = c then some 0 else none

/-! ## Letters -/

/-- A decidable fact about all bytes is a finite check. -/
theorem forall_byte {p : UInt8 → Prop} (h : ∀ n : Fin 256, p (UInt8.ofNat n.val)) (b : UInt8) : p b := by
  have hb := h ⟨b.toNat, b.toNat_lt⟩
  rwa [UInt8.ofNat_toNat] at hb

theorem isLower_upperByte (b : UInt8) : isLower (upperByte b) = false := by
  grind [isLower, upperByte]

@[simp] theorem length_toLower (s : Bytes) : (toLower s).length = s.length := length_map _

variable {s : Bytes} {c : UInt8}

theorem toLower_eq_self (h : ∀ b ∈ s, isUpper b = false) : toLower s = s := by
  rw [toLower, map_congr_left (g := id), map_id]
  intro b hb
  rw [lowerByte, h b hb]
  rfl

/-! ## The last occurrence -/

theorem lastIndexByte_eq_none : lastIndexByte s c = none ↔ c ∉ s := by
  induction s with
  | nil => simp [lastIndexByte]
  | cons b s ih =>
    rw [lastIndexByte, mem_cons, not_or, ← ih]
    cases lastIndexByte s c with
    | some i => simp
    | none => simp [eq_comm]

theorem lastIndexByte_append {u v : Bytes} (h : c ∉ v) : lastIndexByte (u ++ c :: v) c = some u.length := by
  induction u with
  | nil => rw [nil_append, lastIndexByte, lastIndexByte_eq_none.mpr h, if_pos rfl, length_nil]
  | cons b u ih => rw [cons_append, lastIndexByte, ih, length_cons]

theorem lastIndexByte_eq_some {i : Nat} :
    lastIndexByte s c = some i ↔ ∃ v, s = s.take i ++ c :: v ∧ i < s.length ∧ c ∉ v := by
  constructor
  · intro h
    induction s generalizing i with
    | nil => cases h
    | cons b s ih =>
      rw [lastIndexByte] at h
      cases hs : lastIndexByte s c with
      | some j =>
        rw [hs] at h
        cases h
        obtain ⟨v, hv, hlt, hnot⟩ := ih hs
        exact ⟨v, congrArg (b :: ·) hv, Nat.succ_lt_succ hlt, hnot⟩
      | none =>
        rw [hs] at h
        dsimp only at h
        split_ifs at h with hb
        cases h
        exact ⟨s, congrArg (· :: s) hb, Nat.succ_pos _, lastIndexByte_eq_none.mp hs⟩
  · rintro ⟨v, hv, hlt, hnot⟩
    rw [hv, lastIndexByte_append hnot, length_take_of_le hlt.le]

end NogoCommons.Lib
