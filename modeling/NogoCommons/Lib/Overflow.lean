import Mathlib.Algebra.Order.BigOperators.Group.List
import Mathlib.Algebra.BigOperators.Group.Finset.Basic
import Mathlib.Tactic.Linarith

/-!
# `int64` arithmetic that remembers an overflow

An `int64` operation of Go wraps without a word. `Checked` is a computation with such operations
that keeps a word about it: the value is the wrapped one, and beside it stands whether the exact
result of one of the operations did not fit. A computation that is `pure` has not overflowed, and
the lemmas here say when an operation is: its operands are written `Int64.ofInt a`, and so is its
result.

A loop that adds into a slice is the other half. Which numbers it adds, and in which order, does
not matter as long as the absolute values leave room (`Adds`); loops inside loops add the sums of
what their bodies add (`Adds.foldlM`), and a loop cut into blocks is the loop (`sum_blocks`).
-/

namespace NogoCommons.Lib
open List

/-- A value, and whether an `int64` operation on the way to it overflowed. -/
structure Checked (α : Type) where
  val : α
  overflow : Bool

variable {n b : Nat}
namespace Checked
variable {α β γ : Type}

instance : Monad Checked where
  pure a := ⟨a, false⟩
  bind m f := ⟨(f m.val).val, m.overflow || (f m.val).overflow⟩

@[simp] theorem val_pure (a : α) : (pure a : Checked α).val = a := rfl

theorem pure_bind_eq (a : α) (f : α → Checked β) : (pure a : Checked α) >>= f = f a := by
  simp [bind, pure]

instance : LawfulMonad Checked := LawfulMonad.mk' Checked
  (fun _ => by simp [Functor.map]) pure_bind_eq (fun _ _ _ => by simp [bind, Bool.or_assoc])

/-! ## Operations -/

/-- The range of `int64`. -/
def Fits (n : Int) : Prop := -2 ^ 63 ≤ n ∧ n < 2 ^ 63

instance (n : Int) : Decidable (Fits n) := inferInstanceAs (Decidable (_ ∧ _))

theorem fits_of_abs_lt {n : Int} (h : |n| < 2 ^ 63) : Fits n := by
  have := abs_lt.mp h
  exact ⟨this.1.le, this.2⟩

/-- The operation whose exact result is `n`. -/
def result (n : Int) : Checked Int64 := ⟨.ofInt n, !decide (Fits n)⟩
def add (x y : Int64) : Checked Int64 := result (x.toInt + y.toInt)
def mul (x y : Int64) : Checked Int64 := result (x.toInt * y.toInt)
def shl (x : Int64) (s : Nat) : Checked Int64 := result (x.toInt * 2 ^ s)

/-- `x >> s` rounds down and cannot overflow. -/
def shr (x : Int64) (s : Nat) : Int64 := .ofInt (x.toInt / 2 ^ s)

variable {a b : Int}

theorem toInt_ofInt (ha : Fits a) : (Int64.ofInt a).toInt = a := Int64.toInt_ofInt_of_le ha.1 ha.2

theorem result_eq_pure (h : Fits a) : result a = pure (.ofInt a) := by
  simp [result, pure, h]

theorem add_ofInt (ha : Fits a) (hb : Fits b) (h : Fits (a + b)) :
    add (.ofInt a) (.ofInt b) = pure (.ofInt (a + b)) := by
  rw [add, toInt_ofInt ha, toInt_ofInt hb, result_eq_pure h]

theorem mul_ofInt (ha : Fits a) (hb : Fits b) (h : Fits (a * b)) :
    mul (.ofInt a) (.ofInt b) = pure (.ofInt (a * b)) := by
  rw [mul, toInt_ofInt ha, toInt_ofInt hb, result_eq_pure h]

theorem shr_ofInt {s : Nat} (ha : Fits a) : shr (.ofInt a) s = .ofInt (a / 2 ^ s) := by
  rw [shr, toInt_ofInt ha]

/-- **The rule for a counting loop**: what each turn keeps without an overflow, the loop keeps
without an overflow. -/
theorem foldlM_range {body : α → Nat → Checked α} (I : Nat → α → Prop)
    (hbody : ∀ i < n, ∀ s, I i s → ∃ s', body s i = pure s' ∧ I (i + 1) s') {s : α} (hs : I 0 s) :
    ∃ s', (range n).foldlM body s = pure s' ∧ I n s' := by
  induction n with
  | zero => exact ⟨s, rfl, hs⟩
  | succ n ih =>
    obtain ⟨s₁, hrun, hs₁⟩ := ih fun i hi => hbody i (by omega)
    obtain ⟨s₂, hlast, hs₂⟩ := hbody n (by omega) s₁ hs₁
    refine ⟨s₂, ?_, hs₂⟩
    rw [range_succ, foldlM_append, hrun, pure_bind, foldlM_cons, hlast, pure_bind, foldlM_nil]

/-- The same for a loop over the entries of a square, row by row. -/
theorem foldlM_grid {f : α → Nat → Nat → Checked α} (I : Nat → α → Prop)
    (hbody : ∀ row < n, ∀ col < n, ∀ s, I (row * n + col) s →
      ∃ s', f s row col = pure s' ∧ I (row * n + col + 1) s') {s : α} (hs : I 0 s) :
    ∃ s', (range n).foldlM (fun s row =>
      (range n).foldlM (fun s col => f s row col) s) s = pure s' ∧ I (n * n) s' := by
  refine foldlM_range (fun row => I (row * n)) (fun row hrow s hs => ?_) (by simpa using hs)
  rw [Nat.succ_mul]
  exact foldlM_range (fun col => I (row * n + col)) (fun col hcol s hs => hbody row hrow col hcol s hs) hs

end Checked

/-! ## Slices of exact numbers -/

/-- The first `n` entries of the slice are these numbers. -/
structure Holds (dst : List Int64) (n : Nat) (d : Nat → Int) : Prop where
  length : n ≤ dst.length
  entry : ∀ p < n, dst.getD p 0 = .ofInt (d p)

variable {dst : List Int64} {d : Nat → Int}

theorem Holds.congr {d' : Nat → Int} (h : Holds dst n d) (hd : ∀ p < n, d p = d' p) : Holds dst n d' :=
  ⟨h.length, fun p hp => by rw [h.entry p hp, hd p hp]⟩

theorem Holds.set {q : Nat} (h : Holds dst n d) (hq : q < n) (v : Int) :
    Holds (dst.set q (.ofInt v)) n (Function.update d q v) := by
  refine ⟨by simpa using h.length, fun p hp => ?_⟩
  have hlen := h.length
  by_cases hpq : p = q
  · subst hpq
    simp [getD_eq_getElem?_getD, show p < dst.length by omega]
  · rw [Function.update_of_ne hpq, ← h.entry p hp, getD_eq_getElem?_getD,
      getElem?_set_ne (Ne.symm hpq), getD_eq_getElem?_getD]

/-- Entry after entry is replaced, and this is the next. -/
theorem Holds.set_next {t : Nat} {d' : Nat → Int} (h : Holds dst n fun p => if p < t then d' p else d p) (ht : t < n) :
    Holds (dst.set t (.ofInt (d' t))) n fun p => if p < t + 1 then d' p else d p := by
  refine (h.set ht _).congr fun p _ => ?_
  by_cases hp : p = t
  · subst hp
    rw [Function.update_self, if_pos (Nat.lt_succ_self _)]
  · have hiff : p < t + 1 ↔ p < t := by omega
    rw [Function.update_of_ne hp]
    simp only [hiff]

/-- `for i := 0; i < n; i++ { dst[i] = 0 }`. -/
theorem holds_zeros (dst : List Int64) : ∀ n ≤ dst.length,
    ((range n).foldl (fun dst i => dst.set i 0) dst).length = dst.length ∧
      Holds ((range n).foldl (fun dst i => dst.set i 0) dst) n fun _ => 0
  | 0, _ => ⟨rfl, Nat.zero_le _, fun p hp => absurd hp (Nat.not_lt_zero p)⟩
  | n + 1, h => by
    obtain ⟨hlen, hzero⟩ := holds_zeros dst n (by omega)
    rw [range_succ, foldl_append, foldl_cons, foldl_nil]
    refine ⟨by rw [length_set, hlen], by rw [length_set, hlen]; exact h, fun p hp => ?_⟩
    by_cases hpn : p = n
    · subst hpn
      simp [getD_eq_getElem?_getD, hlen, show p < dst.length by omega]
    · rw [getD_eq_getElem?_getD, getElem?_set_ne (Ne.symm hpn), ← getD_eq_getElem?_getD, hzero.entry p (by omega)]

/-- The loop adds `c p` to entry `p`, by additions whose absolute values sum up to at most `w p`;
so it does not overflow where there is room for them. -/
structure Adds (n : Nat) (m : List Int64 → Checked (List Int64)) (c w : Nat → Int) : Prop where
  weight : ∀ p, |c p| ≤ w p
  run : ∀ dst d, Holds dst n d → (∀ p < n, |d p| + w p < 2 ^ 63) →
    ∃ dst', m dst = pure dst' ∧ dst'.length = dst.length ∧ Holds dst' n fun p => d p + c p

namespace Adds

theorem skip : Adds n pure (fun _ => 0) fun _ => 0 :=
  ⟨fun _ => by simp, fun dst d h _ => ⟨dst, rfl, rfl, h.congr fun p _ => (add_zero _).symm⟩⟩

/-- One addition. -/
theorem single {m : List Int64 → Checked (List Int64)} {q : Nat} {t : Int} (hq : q < n) (ht : |t| < 2 ^ 63)
    (hm : ∀ dst, m dst = Checked.add (dst.getD q 0) (.ofInt t) >>= fun s => pure (dst.set q s)) :
    Adds n m (fun p => if p = q then t else 0) (fun p => if p = q then |t| else 0) := by
  refine ⟨fun p => ?_, fun dst d h hroom => ?_⟩
  · split_ifs <;> simp
  · have hq' := hroom q hq
    simp only [if_true] at hq'
    have hsum := abs_add_le (d q) t
    have hpos := abs_nonneg t
    refine ⟨dst.set q (.ofInt (d q + t)), ?_, by simp, ?_⟩
    · rw [hm, h.entry q hq, Checked.add_ofInt, pure_bind]
      · exact Checked.fits_of_abs_lt (by linarith)
      · exact Checked.fits_of_abs_lt ht
      · exact Checked.fits_of_abs_lt (by linarith)
    · refine (h.set hq _).congr fun p _ => ?_
      by_cases hp : p = q
      · subst hp
        simp
      · simp [hp]

/-- One loop after the other. -/
theorem seq {m m' : List Int64 → Checked (List Int64)} {c c' w w' : Nat → Int}
    (h : Adds n m c w) (h' : Adds n m' c' w') :
    Adds n (fun dst => m dst >>= m') (fun p => c p + c' p) (fun p => w p + w' p) := by
  refine ⟨fun p => (abs_add_le ..).trans (add_le_add (h.weight p) (h'.weight p)), ?_⟩
  intro dst d hd hroom
  have hw' : ∀ p, 0 ≤ w' p := fun p => (abs_nonneg _).trans (h'.weight p)
  obtain ⟨dst₁, hm, hlen, hd₁⟩ := h.run dst d hd fun p hp => by
    have := hroom p hp
    have := hw' p
    linarith
  obtain ⟨dst₂, hm', hlen', hd₂⟩ := h'.run dst₁ _ hd₁ fun p hp => by
    have := hroom p hp
    have := abs_add_le (d p) (c p)
    have := h.weight p
    linarith
  refine ⟨dst₂, ?_, hlen'.trans hlen, hd₂.congr fun p _ => add_assoc ..⟩
  rw [hm, pure_bind, hm']

/-- **A loop adds the sum of what its body adds.** -/
theorem foldlM {ι : Type} {body : List Int64 → ι → Checked (List Int64)} {c w : ι → Nat → Int} :
    ∀ {xs : List ι}, (∀ x ∈ xs, Adds n (body · x) (c x) (w x)) →
      Adds n (fun dst => xs.foldlM body dst) (fun p => (xs.map (c · p)).sum)
        (fun p => (xs.map (w · p)).sum)
  | [], _ => skip
  | x :: xs, h => by
    simp only [foldlM_cons, map_cons, sum_cons]
    exact (h x mem_cons_self).seq (foldlM fun y hy => h y (mem_cons_of_mem x hy))

end Adds

/-! ## Loops in blocks -/

/-- The bounds of the blocks a loop from `0` to `size` is cut into. -/
def blocks (b size : Nat) : List (Nat × Nat) :=
  (range ((size + b - 1) / b)).map fun t => (b * t, min (b * t + b) size)

/-- `for x := lo; x < hi; x++`. -/
def between (r : Nat × Nat) : List Nat := range' r.1 (r.2 - r.1)

theorem sum_comm {ι κ : Type} (xs : List ι) (ys : List κ) (f : ι → κ → Int) :
    (xs.map fun x => (ys.map (f x)).sum).sum = (ys.map fun y => (xs.map (f · y)).sum).sum := by
  induction xs with
  | nil => simp
  | cons x xs ih => simp [ih, sum_map_add]

theorem flatMap_blocks_range (size : Nat) : ∀ t,
    ((range t).map fun t => (b * t, min (b * t + b) size)).flatMap between =
      range (min (b * t) size)
  | 0 => by simp
  | t + 1 => by
    rw [range_succ, map_append, flatMap_append, flatMap_blocks_range size t]
    simp only [map_singleton, flatMap_singleton, between]
    rcases Nat.le_total (b * t) size with hle | hle
    · rw [Nat.min_eq_left hle, range_eq_range', range_eq_range']
      have := range'_append_1 (s := 0) (m := b * t) (n := min (b * t + b) size - b * t)
      rw [Nat.zero_add] at this
      rw [this, Nat.mul_succ]
      congr 1
      omega
    · rw [Nat.min_eq_right hle, Nat.min_eq_right (by omega), Nat.min_eq_right (by
        rw [Nat.mul_succ]
        omega), show size - b * t = 0 by omega]
      simp

/-- The blocks cover the loop, in its order. -/
theorem flatMap_blocks (hb : 0 < b) (size : Nat) : (blocks b size).flatMap between = range size := by
  rw [blocks, flatMap_blocks_range, Nat.min_eq_right]
  have hdiv := Nat.div_add_mod (size + b - 1) b
  have hmod := Nat.mod_lt (size + b - 1) hb
  omega

theorem lt_of_mem_block {size x : Nat} {r : Nat × Nat} (hr : r ∈ blocks b size) (hx : x ∈ between r) : x < size := by
  simp only [blocks, mem_map, mem_range] at hr
  obtain ⟨t, -, rfl⟩ := hr
  simp only [between, mem_range'_1] at hx
  omega

theorem sum_blocks (hb : 0 < b) (size : Nat) (f : Nat → Int) :
    ((blocks b size).map fun r => ((between r).map f).sum).sum = ∑ x ∈ Finset.range size, f x := by
  have hflat : (((blocks b size).flatMap between).map f).sum = ((range size).map f).sum := by
    rw [flatMap_blocks hb]
  rwa [map_flatMap, flatMap_def, sum_flatten, map_map] at hflat

end NogoCommons.Lib
