import Mathlib.Data.List.Basic
import Mathlib.Tactic.Ring

/-!
# Merkle trees over a list of leaves

The levels of a tree are lists: each pairs up the one below, and a last node without a partner is its own partner. The root
is the single node of the first level that has one. Everything is over an arbitrary type of nodes and an arbitrary way to
combine two of them.

A program that works with such a tree by heights and positions needs two facts: which nodes there are at a height
(`lt_width_iff`), and what a node is in terms of those below it (`getElem?_levels_succ`).
-/

namespace NogoCommons.Lib.MerkleTree
open List
variable {α : Type} (f : α → α → α)

/-- One level up. -/
def pairUp : List α → List α
  | [] => []
  | [a] => [f a a]
  | a :: b :: rest => f a b :: pairUp rest

/-- The level at a height, with the leaves at height zero. -/
def levels (leaves : List α) : Nat → List α
  | 0 => leaves
  | h + 1 => pairUp f (levels leaves h)

/-- How many nodes there are at a height over `n` leaves. -/
def width (n h : Nat) : Nat := (n + 2 ^ h - 1) / 2 ^ h

theorem length_pairUp (xs : List α) : (pairUp f xs).length = (xs.length + 1) / 2 := by
  induction xs using pairUp.induct with
  | case1 => simp [pairUp]
  | case2 a => simp [pairUp]
  | case3 a b rest ih =>
    simp only [pairUp, length_cons, ih]
    omega

/-- The root; there is none over no leaves. -/
def root : List α → Option α
  | [] => none
  | [a] => some a
  | a :: b :: rest => root (pairUp f (a :: b :: rest))
termination_by xs => xs.length
decreasing_by
  rw [length_pairUp]
  simp only [length_cons]
  omega

theorem root_pairUp {xs : List α} (h : 1 < xs.length) : root f xs = root f (pairUp f xs) := by
  match xs, h with
  | a :: b :: rest, _ => rw [root]

/-! ## Widths -/

variable {h : Nat} {β : Type}

theorem lt_width_iff {n pos : Nat} : pos < width n h ↔ pos * 2 ^ h < n := by
  have hpow : 0 < 2 ^ h := Nat.two_pow_pos h
  rw [width, Nat.lt_div_iff_mul_lt hpow]
  omega

theorem width_zero (n : Nat) : width n 0 = n := by
  rw [width, pow_zero, Nat.div_one, Nat.add_sub_cancel]

theorem width_succ (n h : Nat) : width n (h + 1) = (width n h + 1) / 2 := by
  refine eq_of_forall_lt_iff fun pos => ?_
  rw [lt_width_iff, Nat.lt_div_iff_mul_lt (by decide), Nat.add_sub_cancel, lt_width_iff, pow_succ', mul_assoc]

theorem length_levels (leaves : List α) (h : Nat) : (levels f leaves h).length = width leaves.length h := by
  induction h with
  | zero => exact (width_zero _).symm
  | succ h ih => rw [levels, length_pairUp, ih, width_succ]

/-! ## Nodes -/

theorem getElem?_pairUp (xs : List α) (i : Nat) :
    (pairUp f xs)[i]? = xs[i * 2]?.map fun a => f a (xs[i * 2 + 1]?.getD a) := by
  induction xs using pairUp.induct generalizing i with
  | case1 => rfl
  | case2 a => cases i <;> simp [pairUp, Nat.succ_mul]
  | case3 a b rest ih =>
    cases i with
    | zero => rfl
    | succ i => simp [pairUp, ih, Nat.succ_mul]

theorem getElem?_levels_succ (leaves : List α) (h pos : Nat) : (levels f leaves (h + 1))[pos]? =
      (levels f leaves h)[pos * 2]?.map fun a => f a ((levels f leaves h)[pos * 2 + 1]?.getD a) :=
  getElem?_pairUp f _ pos

/-- The root is on the first level with a single node. -/
theorem root_eq {leaves : List α} (hbelow : ∀ k < h, 1 < width leaves.length k) :
    root f leaves = root f (levels f leaves h) := by
  induction h with
  | zero => rfl
  | succ h ih =>
    rw [ih fun k hk => hbelow k (by omega), root_pairUp f (by rw [length_levels]; exact hbelow h (by omega))]
    rfl

theorem root_levels {leaves : List α} {a : α} (hbelow : ∀ k < h, 1 < width leaves.length k)
    (hone : width leaves.length h = 1) (ha : (levels f leaves h)[0]? = some a) : root f leaves = some a := by
  rw [root_eq f hbelow]
  have hlen := length_levels f leaves h
  rw [hone] at hlen
  obtain ⟨b, hb⟩ := length_eq_one_iff.mp hlen
  rw [hb] at ha ⊢
  cases ha
  rw [root]

/-! ## The leaves below a node -/

/-- The leaves below a node, of any list of as many elements. -/
def below {β : Type} (xs : List β) (h pos : Nat) : List β := (xs.drop (pos * 2 ^ h)).take (2 ^ h)

theorem below_zero (xs : List β) (pos : Nat) : below xs 0 pos = xs[pos]?.toList := by
  rw [below, pow_zero, mul_one, ← head?_drop]
  cases xs.drop pos <;> rfl

/-- They are those below its two children. -/
theorem below_succ (xs : List β) (h pos : Nat) :
    below xs (h + 1) pos = below xs h (pos * 2) ++ below xs h (pos * 2 + 1) := by
  have hpow : 2 ^ (h + 1) = 2 ^ h + 2 ^ h := by rw [pow_succ, mul_two]
  have hstart : pos * 2 ^ (h + 1) = pos * 2 * 2 ^ h := by rw [pow_succ]; ring
  have hright : (pos * 2 + 1) * 2 ^ h = pos * 2 * 2 ^ h + 2 ^ h := by ring
  rw [below, below, below, hstart, hpow, take_add, hright, drop_drop]

theorem below_eq_nil {xs : List β} {pos : Nat} : below xs h pos = [] ↔ ¬ pos < width xs.length h := by
  rw [lt_width_iff, below, take_eq_nil_iff, drop_eq_nil_iff, Nat.not_lt]
  have hpow : 2 ^ h ≠ 0 := (Nat.two_pow_pos h).ne'
  tauto

end NogoCommons.Lib.MerkleTree
