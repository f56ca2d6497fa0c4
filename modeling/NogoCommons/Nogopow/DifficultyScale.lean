import NogoCommons.Nogopow.Difficulty

/-!
# How far one multiplication can go

Everything here is about `scaled`, the `big.Float` that `CalcDifficulty` truncates. From below
it is simple: half the parent's difficulty is representable, and rounding cannot cross it. From
above the cases go by the magnitude of the parent's difficulty, which is what decides how coarse
the sum is, and the bound fails in one of them (`scaleDifficulty_le_iff`).
-/

namespace NogoCommons.Nogopow
open Lib BigFloat
variable {p : Int} {adj : Double}

/-- The number that is truncated: the product, rounded, plus the constant, rounded. -/
def scaled (p : Int) (adj : Double) : ℚ :=
  roundTo (intPrec p) (roundTo (intPrec p) (p * adj.val) + almostOne.val)

theorem ceiled_val (p : Int) (adj : Double) :
    (((BigFloat.setInt p).mul (.newFloat adj)).add (.newFloat almostOne)).val = scaled p adj := by
  have h53 : 53 ≤ intPrec p := le_max_of_le_right (by norm_num)
  have hmul : maxPrec (setInt p) (newFloat adj) = intPrec p := max_eq_left h53
  have hadd : maxPrec ((setInt p).mul (newFloat adj)) (newFloat almostOne) = intPrec p := by
    show max (maxPrec (setInt p) (newFloat adj)) 53 = intPrec p
    rw [hmul]
    exact max_eq_left h53
  show roundTo (maxPrec ((setInt p).mul (newFloat adj)) (newFloat almostOne))
    (roundTo (maxPrec (setInt p) (newFloat adj)) (p * adj.val) + almostOne.val) = _
  rw [hmul, hadd]
  rfl

theorem one_le_intPrec (p : Int) : 1 ≤ intPrec p := le_max_of_le_right (by norm_num)

theorem le_two_pow_intPrec (p : Int) : p ≤ 2 ^ intPrec p :=
  (le_abs_self p).trans (abs_le_intPrec p)

theorem two_pow_64_le (p : Int) : (2 : Int) ^ 64 ≤ 2 ^ intPrec p :=
  pow_le_pow_right₀ (by norm_num) (le_max_right ..)

/-- Multiples of a power of two fit the precision, up to `2 ^ 64` and up to the parent's
difficulty. -/
theorem representable_of_le {m : Int} (e : Int) (h0 : 0 ≤ m) (hm : m ≤ 2 ^ intPrec p) :
    Representable (intPrec p) (m * 2 ^ e) :=
  ⟨m, e, by rwa [abs_of_nonneg h0], rfl⟩

/-! ## From below -/

/-- Half the parent's difficulty, rounded up, is always reached. -/
theorem le_scaled (hp : 1 ≤ p) (hadj : 1 / 2 ≤ adj.val) : (((p + 1) / 2 : Int) : ℚ) ≤ scaled p adj := by
  have hhalf : (p : ℚ) * 2 ^ (-1 : Int) ≤ roundTo (intPrec p) (p * adj.val) := by
    refine le_roundTo (one_le_intPrec p) (representable_of_le _ (by omega) (le_two_pow_intPrec p)) ?_
    gcongr
    norm_num
    exact hadj
  have hc := almostOne_bounds.1
  have hceil : (((p + 1) / 2 : Int) : ℚ) ≤ (p + 1) / 2 := by
    rw [le_div_iff₀ (by norm_num)]
    have : (p + 1) / 2 * 2 ≤ p + 1 := by omega
    exact_mod_cast this
  have hrep : Representable (intPrec p) (((p + 1) / 2 : Int) : ℚ) := by
    have hle := le_two_pow_intPrec p
    simpa using representable_of_le (p := p) (m := (p + 1) / 2) 0 (by omega) (by omega)
  refine le_roundTo (one_le_intPrec p) hrep ?_
  norm_num at hhalf hc
  linarith

/-- The truncation, once the number is known to be positive. -/
theorem scaleDifficulty_eq (hp : 1 ≤ p) (hadj : 1 / 2 ≤ adj.val) : scaleDifficulty p adj = ⌊scaled p adj⌋ := by
  have hle := le_scaled hp hadj
  have hfloor : (p + 1) / 2 ≤ ⌊scaled p adj⌋ := Int.le_floor.mpr hle
  have hpos : (0 : ℚ) ≤ scaled p adj :=
    le_trans (by exact_mod_cast (by omega : 0 ≤ (p + 1) / 2)) hle
  unfold scaleDifficulty
  simp only [BigFloat.int, ceiled_val, if_pos hpos]
  rw [if_neg (by omega)]

theorem le_two_mul_scaleDifficulty (hp : 1 ≤ p) (hadj : 1 / 2 ≤ adj.val) : p ≤ 2 * scaleDifficulty p adj := by
  have hfloor : (p + 1) / 2 ≤ ⌊scaled p adj⌋ := Int.le_floor.mpr (le_scaled hp hadj)
  rw [scaleDifficulty_eq hp hadj]
  omega

theorem one_le_scaleDifficulty (hp : 1 ≤ p) (hadj : 1 / 2 ≤ adj.val) : 1 ≤ scaleDifficulty p adj := by
  have := le_two_mul_scaleDifficulty hp hadj
  omega

/-! ## From above -/

theorem scaleDifficulty_le_of_lt (hp : 1 ≤ p) (hadj : 1 / 2 ≤ adj.val) {b : Int}
    (h : scaled p adj < b + 1) : scaleDifficulty p adj ≤ b := by
  rw [scaleDifficulty_eq hp hadj]
  have : ⌊scaled p adj⌋ < b + 1 := Int.floor_lt.mpr (by exact_mod_cast h)
  omega

/-- Bounds on the product and on the sum, on one grid, bound the number. -/
theorem scaled_le {u v e : Int} (hu : 0 ≤ u) (huv : u ≤ v) (hv : v ≤ 2 ^ intPrec p)
    (hprod : p * adj.val ≤ u * 2 ^ e) (hsum : u * 2 ^ e + almostOne.val ≤ v * 2 ^ e) :
    scaled p adj ≤ v * 2 ^ e := by
  have hvQ : (0 : ℚ) ≤ v := by exact_mod_cast hu.trans huv
  have hx : roundTo (intPrec p) (p * adj.val) ≤ u * 2 ^ e :=
    roundTo_le (one_le_intPrec p) (representable_of_le e hu (huv.trans hv)) hprod
  exact roundTo_le (one_le_intPrec p) (representable_of_le e (hu.trans huv) hv) (by linarith)

/-- Below `2 ^ 44` the sum still sees the missing millionth. -/
theorem scaleDifficulty_le_of_small (hp : 1 ≤ p) (hlt : p < 2 ^ 44) (hadj : 1 / 2 ≤ adj.val)
    (hadj2 : adj.val ≤ 2) : scaleDifficulty p adj ≤ 2 * p := by
  obtain ⟨hc1, hc2⟩ := almostOne_bounds
  have hltQ : (p : ℚ) ≤ 2 ^ 44 - 1 := by exact_mod_cast Int.le_sub_one_of_lt hlt
  have hx : roundTo (intPrec p) (p * adj.val) ≤ p * 2 ^ (1 : Int) := by
    refine roundTo_le (one_le_intPrec p) (representable_of_le _ (by omega) (le_two_pow_intPrec p)) ?_
    gcongr
    norm_num
    exact hadj2
  have hx0 : 0 ≤ roundTo (intPrec p) (p * adj.val) :=
    le_roundTo (one_le_intPrec p) ⟨0, 0, by positivity, by norm_num⟩ (by positivity)
  norm_num at hx hc1 hc2 hltQ
  have herr := abs_roundTo_sub_le_of_lt (intPrec p) (e := 44)
    (x := roundTo (intPrec p) (p * adj.val) + almostOne.val) (by linarith) (by norm_num; linarith)
  have hunit : (2 : ℚ) ^ ((44 : Int) - intPrec p) ≤ 1 / 2 ^ 20 := by
    have h64 : (64 : Int) ≤ intPrec p := by exact_mod_cast le_max_right p.natAbs.size 64
    calc (2 : ℚ) ^ ((44 : Int) - intPrec p) ≤ 2 ^ (-20 : Int) :=
          zpow_le_zpow_right₀ (by norm_num) (by omega)
      _ = 1 / 2 ^ 20 := by norm_num
  apply scaleDifficulty_le_of_lt hp hadj
  have hle := (abs_le.mp herr).2
  unfold scaled
  norm_num at hunit
  push_cast
  linarith

/-- A multiplier below two is below it by a unit, which from `2 ^ 44` on is room enough. -/
theorem scaleDifficulty_le_of_adj_lt (hp : 2 ^ 44 ≤ p) (hadj : 1 / 2 ≤ adj.val)
    (hadj2 : adj.val < 2) : scaleDifficulty p adj ≤ 2 * p := by
  have hc2 := almostOne_bounds.2
  have hpred : adj.val ≤ 2 - 1 / 2 ^ 52 := by
    have h := adj.le_pred (e := 0) (k := 2 ^ 53) (by norm_num; exact hadj2) (by norm_num)
    norm_num at h ⊢
    exact h
  have hpQ : (2 ^ 44 : ℚ) ≤ p := by exact_mod_cast hp
  have hprod : p * adj.val ≤ 2 * p - p / 2 ^ 52 := by nlinarith
  apply scaleDifficulty_le_of_lt (by omega) hadj
  norm_num at hc2 hprod hpQ
  push_cast
  have h64 := two_pow_64_le p
  obtain h52 | h52 := lt_or_ge p (2 ^ 52)
  · -- The unit is `p / 2 ^ 52`, more than the `2 ^ -8` to which all this is exact.
    have hltQ : (p : ℚ) < 2 ^ 52 := by exact_mod_cast h52
    have hle : scaled p adj ≤ ((2 * p + 1) * 2 ^ 8 - 1 : Int) * 2 ^ (-8 : Int) := by
      refine scaled_le (u := 2 * p * 2 ^ 8 - 1) (by omega) (by omega) (by omega) ?_ ?_
      · norm_num at hltQ ⊢
        linarith
      · norm_num
        linarith
    norm_num at hle
    linarith
  obtain h63 | h63 := lt_or_ge p (2 ^ 63)
  · -- The unit is one or more, and integers are exact.
    have hgeQ : (2 ^ 52 : ℚ) ≤ p := by exact_mod_cast h52
    have hle : scaled p adj ≤ (2 * p : Int) * 2 ^ (0 : Int) := by
      refine scaled_le (u := 2 * p - 1) (by omega) (by omega) (by omega) ?_ ?_
      · norm_num at hgeQ ⊢
        linarith
      · norm_num
        linarith
    norm_num at hle
    linarith
  · -- Even numbers are exact, and the unit is more than two.
    have hgeQ : (2 ^ 63 : ℚ) ≤ p := by exact_mod_cast h63
    have hle : scaled p adj ≤ p * 2 ^ (1 : Int) := by
      refine scaled_le (u := p - 1) (by omega) (by omega) (le_two_pow_intPrec p) ?_ ?_
      · norm_num at hgeQ ⊢
        linarith
      · norm_num
        linarith
    norm_num at hle
    linarith

/-- Doubling is exact. -/
theorem scaled_doubled (hp : 1 ≤ p) (hadj : adj.val = 2) :
    scaled p adj = roundTo (intPrec p) (2 * p + almostOne.val) := by
  have hprod : roundTo (intPrec p) (p * adj.val) = p * 2 ^ (1 : Int) := by
    rw [hadj]
    have h := roundTo_of_representable (one_le_intPrec p) (representable_of_le 1 (by omega) (le_two_pow_intPrec p))
    norm_num at h ⊢
    exact h
  rw [scaled, hprod, zpow_one, mul_comm]

/-- **From `2 ^ 44` and below `2 ^ 63` the doubled difficulty comes out one too large**: the
constant is added as one. -/
theorem scaleDifficulty_doubled (hlo : 2 ^ 44 ≤ p) (hhi : p < 2 ^ 63) (hadj : adj.val = 2) :
    scaleDifficulty p adj = 2 * p + 1 := by
  obtain ⟨hc1, hc2⟩ := almostOne_bounds
  have hloQ : (2 ^ 44 : ℚ) ≤ p := by exact_mod_cast hlo
  have hhiQ : (p : ℚ) + 1 ≤ 2 ^ 63 := by exact_mod_cast hhi
  norm_num at hc1 hc2 hloQ hhiQ
  have hprec : intPrec p = 64 := by
    refine max_eq_right (Nat.size_le.mpr ?_)
    omega
  have hx : (0 : ℚ) < 2 * p + almostOne.val := by linarith
  -- The magnitude of the sum: the unit is `2 ^ (E - 63)`, between `2 ^ -18` and one.
  rcases hE : Int.log 2 |2 * (p : ℚ) + almostOne.val| with E
  have hE45 : 45 ≤ E := by
    rw [← hE, abs_of_pos hx]
    exact (Int.zpow_le_iff_le_log (by norm_num : 1 < 2) hx).mp (by norm_num; linarith)
  have hE63 : E ≤ 63 := by
    have h : Int.log 2 |2 * (p : ℚ) + almostOne.val| < 64 := by
      rw [abs_of_pos hx]
      exact (Int.lt_zpow_iff_log_lt (by norm_num : 1 < 2) hx).mp (by norm_num; linarith)
    omega
  have hq : quantum 64 (2 * (p : ℚ) + almostOne.val) = 2 ^ (E - 63) := by
    rw [quantum, hE]
    congr 1
    push_cast
    ring
  have hgrid : ((2 * p + 1) * 2 ^ (63 - E).toNat : Int) * (2 : ℚ) ^ (E - 63) = 2 * p + 1 := by
    have hexp : (((63 - E).toNat : ℕ) : Int) + (E - 63) = 0 := by omega
    push_cast
    rw [← zpow_natCast, mul_assoc, ← zpow_add₀ (by norm_num), hexp, zpow_zero, mul_one]
  have hunit : (2 : ℚ) ^ (-18 : Int) ≤ 2 ^ (E - 63) := zpow_le_zpow_right₀ (by norm_num) (by omega)
  norm_num at hunit
  have hround : roundTo 64 (2 * (p : ℚ) + almostOne.val) = 2 * p + 1 := by
    have hnear := roundTo_eq_of_near 64 (x := 2 * (p : ℚ) + almostOne.val)
      (k := (2 * p + 1) * 2 ^ (63 - E).toNat) (by
        rw [hq, hgrid, abs_lt]
        constructor <;> linarith)
    rw [hnear, hq, hgrid]
  rw [scaleDifficulty_eq (by omega) (by rw [hadj]; norm_num), scaled_doubled (by omega) hadj, hprec, hround]
  exact_mod_cast Int.floor_intCast (R := ℚ) (2 * p + 1)

/-- From `2 ^ 63` on the unit is two, and the constant is lost. -/
theorem scaleDifficulty_doubled_large (hlo : 2 ^ 63 ≤ p) (hadj : adj.val = 2) : scaleDifficulty p adj = 2 * p := by
  obtain ⟨hc1, hc2⟩ := almostOne_bounds
  have hloQ : (2 ^ 63 : ℚ) ≤ p := by exact_mod_cast hlo
  norm_num at hc1 hc2 hloQ
  have hx : (0 : ℚ) < 2 * p + almostOne.val := by linarith
  have hprec : intPrec p = p.natAbs.size := max_eq_left (by
    have : 63 < p.natAbs.size := Nat.lt_size.mpr (by omega)
    omega)
  -- The sum lies in the binade above the parent's difficulty.
  have hsize : p.natAbs < 2 ^ p.natAbs.size := Nat.lt_size_self _
  have hsize' : 2 ^ p.natAbs.size ≤ 2 * p.natAbs := by
    have h63 : 63 < p.natAbs.size := Nat.lt_size.mpr (by omega)
    have h : 2 ^ (p.natAbs.size - 1) ≤ p.natAbs := Nat.lt_size.mp (by omega)
    calc 2 ^ p.natAbs.size = 2 * 2 ^ (p.natAbs.size - 1) := by
          rw [← pow_succ']
          congr 1
          omega
      _ ≤ 2 * p.natAbs := by omega
  have habs : ((p.natAbs : ℕ) : ℚ) = p := by rw [Nat.cast_natAbs, abs_of_pos (by omega)]
  have hupper : (p : ℚ) + 1 ≤ 2 ^ p.natAbs.size := by rw [← habs]; exact_mod_cast hsize
  have hlower : (2 : ℚ) ^ p.natAbs.size ≤ 2 * p := by rw [← habs]; exact_mod_cast hsize'
  have hlog : Int.log 2 |2 * (p : ℚ) + almostOne.val| = p.natAbs.size := by
    refine log_eq hx ?_ ?_
    · rw [zpow_natCast]
      linarith
    · rw [zpow_add₀ (by norm_num), zpow_natCast, zpow_one]
      linarith
  have hq : quantum (intPrec p) (2 * (p : ℚ) + almostOne.val) = 2 := by
    rw [quantum, hlog, hprec, show (p.natAbs.size : Int) + 1 - p.natAbs.size = 1 by ring, zpow_one]
  have hround : roundTo (intPrec p) (2 * (p : ℚ) + almostOne.val) = p * 2 := by
    have hnear := roundTo_eq_of_near (intPrec p) (x := 2 * (p : ℚ) + almostOne.val) (k := p) (by
      rw [hq, abs_lt]
      constructor <;> linarith)
    rwa [hq] at hnear
  rw [scaleDifficulty_eq (by omega) (by rw [hadj]; norm_num), scaled_doubled (by omega) hadj, hround, mul_comm]
  exact_mod_cast Int.floor_intCast (R := ℚ) (2 * p)

/-- The bounds of the clamp hold for the result but at a multiplier of two, for a difficulty
from `2 ^ 44` and below `2 ^ 63`. -/
theorem scaleDifficulty_le_iff (hp : 1 ≤ p) (hadj : 1 / 2 ≤ adj.val) (hadj2 : adj.val ≤ 2) :
    scaleDifficulty p adj ≤ 2 * p ↔ ¬ (adj.val = 2 ∧ 2 ^ 44 ≤ p ∧ p < 2 ^ 63) := by
  constructor
  · rintro hle ⟨heq, hlo, hhi⟩
    rw [scaleDifficulty_doubled hlo hhi heq] at hle
    omega
  · intro hnot
    obtain hsmall | hlarge := lt_or_ge p (2 ^ 44)
    · exact scaleDifficulty_le_of_small hp hsmall hadj hadj2
    obtain hlt | heq := hadj2.lt_or_eq
    · exact scaleDifficulty_le_of_adj_lt hlarge hadj hlt
    · have h63 : 2 ^ 63 ≤ p := by
        by_contra hc
        exact hnot ⟨heq, hlarge, by omega⟩
      exact (scaleDifficulty_doubled_large h63 heq).le

/-- Where the bound fails, it fails by one, and the difficulty is large. -/
theorem scaleDifficulty_le_or (hp : 1 ≤ p) (hadj : 1 / 2 ≤ adj.val) (hadj2 : adj.val ≤ 2) :
    scaleDifficulty p adj ≤ 2 * p ∨ 2 ^ 44 ≤ p ∧ scaleDifficulty p adj = 2 * p + 1 := by
  by_cases h : adj.val = 2 ∧ 2 ^ 44 ≤ p ∧ p < 2 ^ 63
  · exact .inr ⟨h.2.1, scaleDifficulty_doubled h.2.1 h.2.2 h.1⟩
  · exact .inl ((scaleDifficulty_le_iff hp hadj hadj2).mpr h)

/-! ## The multiplier -/

/-- The multiplier before it is clamped. -/
def unclamped (ratio : Double) : ℚ := roundTo 53 (1 + roundTo 53 (1 / 2 * roundTo 53 (ratio.val - 1)))

theorem adjustment_val (ratio : Double) : (adjustment ratio).val = max (1 / 2) (min 2 (unclamped ratio)) := by
  have hadd : ((Double.ofInt 1).add (kpGain.mul (ratio.sub (.ofInt 1)))).val = unclamped ratio := by
    show roundTo 53 ((Double.ofInt 1).val + roundTo 53 (kpGain.val * roundTo 53 (ratio.val - (Double.ofInt 1).val))) = _
    rw [one_val, kpGain_val, unclamped]
  unfold adjustment
  simp only [hadd, kpClampMax_val, kpClampMin_val]
  split_ifs with h1 h2
  · rw [kpClampMax_val, min_eq_left h1.le, max_eq_right (by norm_num)]
  · rw [kpClampMin_val, min_eq_right (not_lt.mp h1), max_eq_left h2.le]
  · rw [hadd, min_eq_right (not_lt.mp h1), max_eq_right (not_lt.mp h2)]

theorem adjustment_ge (ratio : Double) : 1 / 2 ≤ (adjustment ratio).val := by
  rw [adjustment_val]
  exact le_max_left ..

theorem adjustment_le (ratio : Double) : (adjustment ratio).val ≤ 2 := by
  rw [adjustment_val]
  exact max_le (by norm_num) (min_le_left ..)

theorem sub_one_val (ratio : Double) : (ratio.sub (.ofInt 1)).val = roundTo 53 (ratio.val - 1) := by
  show roundTo 53 (ratio.val - (Double.ofInt 1).val) = _
  rw [one_val]

section Bounds
variable {ratio : Double} {c : ℚ}

theorem le_sub_one (hc : Representable 53 c) (h : c ≤ ratio.val - 1) : c ≤ (ratio.sub (.ofInt 1)).val := by
  rw [sub_one_val]
  exact le_roundTo (by norm_num) hc h

theorem sub_one_le (hc : Representable 53 c) (h : ratio.val - 1 ≤ c) : (ratio.sub (.ofInt 1)).val ≤ c := by
  rw [sub_one_val]
  exact roundTo_le (by norm_num) hc h

variable (hgain : Representable 53 (1 / 2 * c)) (hsum : Representable 53 (1 + 1 / 2 * c))

include hgain hsum

/-- Where the two operations after the difference are exact, bounds on the difference are bounds on the multiplier. -/
theorem le_adjustment (h : c ≤ (ratio.sub (.ofInt 1)).val) (hc : c ≤ 2) : 1 + 1 / 2 * c ≤ (adjustment ratio).val := by
  rw [sub_one_val] at h
  have hmul := le_roundTo (by norm_num) hgain (mul_le_mul_of_nonneg_left h (by norm_num))
  have hadd : 1 + 1 / 2 * c ≤ unclamped ratio := le_roundTo (by norm_num) hsum (by linarith)
  rw [adjustment_val]
  exact le_max_of_le_right (le_min (by linarith) hadd)

theorem adjustment_le_of (h : (ratio.sub (.ofInt 1)).val ≤ c) (hc : -1 ≤ c) : (adjustment ratio).val ≤ 1 + 1 / 2 * c := by
  rw [sub_one_val] at h
  have hmul := roundTo_le (by norm_num) hgain (mul_le_mul_of_nonneg_left h (by norm_num))
  have hadd : unclamped ratio ≤ 1 + 1 / 2 * c := roundTo_le (by norm_num) hsum (by linarith)
  rw [adjustment_val]
  exact max_le (by linarith) (min_le_of_right_le hadd)

end Bounds

/-- The clamp is reached from above exactly at three times the target speed. -/
theorem adjustment_eq_two (ratio : Double) : (adjustment ratio).val = 2 ↔ 3 ≤ ratio.val := by
  constructor
  · intro heq
    by_contra hlt
    rw [not_le] at hlt
    have hpred := ratio.le_pred (e := 1) (k := 3 * 2 ^ 51) (by norm_num; exact hlt) (by norm_num)
    have hsub : (ratio.sub (.ofInt 1)).val ≤ (2 ^ 52 - 1 : Int) * 2 ^ (-51 : Int) :=
      sub_one_le ⟨_, _, by norm_num, rfl⟩ (by norm_num at hpred ⊢; linarith)
    have hle := adjustment_le_of ⟨2 ^ 52 - 1, -52, by norm_num, by norm_num⟩ ⟨2 ^ 53 - 1, -52, by norm_num, by norm_num⟩
      hsub (by norm_num)
    norm_num [heq] at hle
  · intro hge
    have hsub : 2 ≤ (ratio.sub (.ofInt 1)).val := le_sub_one ⟨2, 0, by norm_num, by norm_num⟩ (by linarith)
    have hle := le_adjustment ⟨1, 0, by norm_num, by norm_num⟩ ⟨2, 0, by norm_num, by norm_num⟩ hsub le_rfl
    exact le_antisymm (adjustment_le ratio) (by norm_num at hle; exact hle)

end NogoCommons.Nogopow
