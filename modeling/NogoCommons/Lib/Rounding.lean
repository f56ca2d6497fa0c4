import Mathlib.Data.Int.Log
import Mathlib.Data.Nat.Size
import Mathlib.Data.Rat.Floor
import Mathlib.Tactic

/-!
# Binary floating point, as rationals

A number of `prec` bits is a rational `m * 2 ^ e` with `|m| ≤ 2 ^ prec`; the exponent is
unbounded, as it is in `math/big` and as it may be taken for doubles that neither overflow nor
underflow. `roundTo` rounds to the nearest such number, ties to even.

Two lemmas do most of the work elsewhere: a representable bound on the argument is a bound on
the result (`roundTo_le`, `le_roundTo`). They make monotonicity arguments out of exact
arithmetic at the bound. Where that is too coarse there is the half-unit error
(`abs_roundTo_sub_le`) and the nearest point itself (`roundTo_eq_of_near`).
-/

namespace NogoCommons.Lib

/-! ## To the nearest integer -/

/-- The nearest integer, and of two equally near the even one. `round` takes the upper one of
the two, so it is corrected where the lower one is even. -/
def roundEven (x : ℚ) : ℤ := if Int.fract x = 1 / 2 ∧ Even ⌊x⌋ then ⌊x⌋ else round x

theorem floor_le_roundEven (x : ℚ) : ⌊x⌋ ≤ roundEven x := by
  unfold roundEven
  split_ifs with htie
  · exact le_rfl
  · rw [round_eq]
    exact Int.floor_le_floor (by linarith)

theorem roundEven_le_round (x : ℚ) : roundEven x ≤ round x := by
  unfold roundEven
  split_ifs with htie
  · rw [round_eq]
    exact Int.floor_le_floor (by linarith)
  · exact le_rfl

variable {k e : ℤ}

theorem roundEven_le {x : ℚ} (h : x ≤ k) : roundEven x ≤ k := by
  refine (roundEven_le_round x).trans ?_
  rw [round_eq, ← Int.lt_add_one_iff, Int.floor_lt]
  push_cast
  linarith

theorem le_roundEven {x : ℚ} (h : k ≤ x) : k ≤ roundEven x :=
  (Int.le_floor.mpr h).trans (floor_le_roundEven x)

theorem abs_roundEven_sub_le (x : ℚ) : |(roundEven x : ℚ) - x| ≤ 1 / 2 := by
  unfold roundEven
  split_ifs with htie
  · -- At a tie the lower integer is as near as the upper one.
    have hfract : x - ⌊x⌋ = 1 / 2 := htie.1
    rw [abs_sub_comm, hfract]
    norm_num
  · rw [abs_sub_comm]
    exact abs_sub_round x

theorem roundEven_eq_of_near {x : ℚ} (h : |x - k| < 1 / 2) : roundEven x = k := by
  have herr := abs_roundEven_sub_le x
  rw [abs_le] at herr
  rw [abs_lt] at h
  have hlt : (roundEven x : ℚ) < k + 1 := by linarith
  have hgt : (k : ℚ) < roundEven x + 1 := by linarith
  have : roundEven x < k + 1 := by exact_mod_cast hlt
  have : k < roundEven x + 1 := by exact_mod_cast hgt
  omega

/-- A number and its negation are rounded alike: of two neighbours of a tie, one is even. -/
theorem roundEven_neg (x : ℚ) : roundEven (-x) = -roundEven x := by
  by_cases htie : Int.fract x = 1 / 2
  · have hhalf : ∀ n : ℤ, roundEven (n + 1 / 2) = if Even n then n else n + 1 := by
      intro n
      have hfract : Int.fract (1 / 2 : ℚ) = 1 / 2 := Int.fract_eq_self.mpr ⟨by norm_num, by norm_num⟩
      have hfloor : ⌊(1 / 2 : ℚ)⌋ = 0 := Int.floor_eq_zero_iff.mpr ⟨by norm_num, by norm_num⟩
      have hround : round (n + 1 / 2 : ℚ) = n + 1 := by
        rw [round_eq, add_assoc, Int.floor_intCast_add]
        norm_num
      simp only [roundEven, Int.fract_intCast_add, hfract, Int.floor_intCast_add, hfloor, hround, add_zero, true_and]
    obtain ⟨n, rfl⟩ : ∃ n : ℤ, x = n + 1 / 2 := ⟨⌊x⌋, by rw [← htie, Int.floor_add_fract]⟩
    rw [show -((n : ℚ) + 1 / 2) = ((-n - 1 : ℤ) : ℚ) + 1 / 2 by push_cast; ring, hhalf, hhalf]
    have hparity : Even (-n - 1) ↔ ¬ Even n := by rw [Int.even_sub_one, even_neg]
    split_ifs <;> first | omega | tauto
  · have hnear : |x - round x| < 1 / 2 := by
      rw [abs_sub_round_eq_min]
      grind
    rw [roundEven_eq_of_near hnear, roundEven_eq_of_near (k := -round x)]
    rwa [Int.cast_neg, neg_sub_neg, abs_sub_comm]

/-! ## To a number of bits -/

/-- Numbers with at most `prec` significant bits. -/
def Representable (prec : ℕ) (x : ℚ) : Prop := ∃ m e : ℤ, |m| ≤ 2 ^ prec ∧ x = m * 2 ^ e

/-- The unit in the last place of `prec` bits, at the magnitude of `x`. -/
def quantum (prec : ℕ) (x : ℚ) : ℚ := 2 ^ (Int.log 2 |x| + 1 - prec)

/-- The nearest number of `prec` bits, ties to even. -/
def roundTo (prec : ℕ) (x : ℚ) : ℚ := roundEven (x / quantum prec x) * quantum prec x

variable {prec : ℕ} {x g : ℚ}

theorem quantum_pos (prec : ℕ) (x : ℚ) : 0 < quantum prec x := by
  unfold quantum
  positivity

theorem roundTo_neg (prec : ℕ) (x : ℚ) : roundTo prec (-x) = -roundTo prec x := by
  rw [roundTo, roundTo, quantum, abs_neg, ← quantum, neg_div, roundEven_neg, Int.cast_neg, neg_mul]

theorem Representable.neg (h : Representable prec g) : Representable prec (-g) := by
  obtain ⟨m, e, hm, rfl⟩ := h
  exact ⟨-m, e, by rwa [abs_neg], by push_cast; ring⟩

theorem representable_int {n : ℤ} (h : |n| ≤ 2 ^ prec) : Representable prec n :=
  ⟨n, 0, h, by simp⟩

theorem grid_le_roundTo (prec : ℕ) (h : k * quantum prec x ≤ x) : k * quantum prec x ≤ roundTo prec x := by
  have hq := quantum_pos prec x
  have hr : k ≤ roundEven (x / quantum prec x) := le_roundEven ((le_div_iff₀ hq).mpr h)
  unfold roundTo
  gcongr

theorem zpow_log_le (hx : x ≠ 0) : (2 : ℚ) ^ Int.log 2 |x| ≤ |x| := by
  exact_mod_cast Int.zpow_log_le_self (by norm_num) (abs_pos.mpr hx)

theorem lt_zpow_log (x : ℚ) : |x| < 2 ^ (Int.log 2 |x| + 1) := by
  exact_mod_cast Int.lt_zpow_succ_log_self (by norm_num) |x|

theorem zpow_log_succ_eq (prec : ℕ) (x : ℚ) :
    (2 : ℚ) ^ (Int.log 2 |x| + 1) = ((2 ^ prec : ℤ) : ℚ) * quantum prec x := by
  unfold quantum
  push_cast
  rw [← zpow_natCast, ← zpow_add₀ (by norm_num)]
  congr 1
  ring

section
variable (hp : 1 ≤ prec)
include hp

/-- A representable number of magnitude `2 ^ e` or more is a multiple of the unit there. -/
theorem Representable.grid (h : Representable prec g) (he : (2 : ℚ) ^ e ≤ g) : ∃ k : ℤ, g = k * 2 ^ (e + 1 - prec) := by
  obtain ⟨m, f, hm, rfl⟩ := h
  have h2 : (0 : ℚ) < 2 ^ f := by positivity
  obtain hf | hf := le_or_gt (e + 1 - prec) f
  · -- The exponent is coarse enough: shift the mantissa.
    obtain ⟨j, rfl⟩ : ∃ j : ℕ, f = (e + 1 - prec) + j := ⟨(f - (e + 1 - prec)).toNat, by omega⟩
    refine ⟨m * 2 ^ j, ?_⟩
    rw [zpow_add₀ (by norm_num), zpow_natCast]
    push_cast
    ring
  · -- Otherwise the mantissa has to be the largest there is, a power of two.
    have hmQ : (m : ℚ) ≤ 2 ^ prec := by exact_mod_cast (le_abs_self m).trans hm
    have hupper : (m : ℚ) * 2 ^ f ≤ 2 ^ (prec + f : ℤ) := by
      rw [zpow_add₀ (by norm_num), zpow_natCast]
      gcongr
    have hef : e ≤ prec + f :=
      (zpow_le_zpow_iff_right₀ (by norm_num : (1 : ℚ) < 2)).mp (he.trans hupper)
    have heq : e = prec + f := by omega
    have hval : (m : ℚ) * 2 ^ f = 2 ^ e := le_antisymm (by rw [heq]; exact hupper) he
    refine ⟨2 ^ (prec - 1), ?_⟩
    rw [hval]
    push_cast
    rw [← zpow_natCast, ← zpow_add₀ (by norm_num)]
    congr 1
    push_cast [hp]
    omega

omit hp in
/-- A point of the grid at the magnitude of a number is a bound for both or for none. -/
theorem roundTo_le_grid (prec : ℕ) (h : x ≤ k * quantum prec x) : roundTo prec x ≤ k * quantum prec x := by
  have hq := quantum_pos prec x
  have hr : roundEven (x / quantum prec x) ≤ k := roundEven_le ((div_le_iff₀ hq).mpr h)
  unfold roundTo
  gcongr

/-- The powers of two around a number are on its grid. -/
theorem zpow_log_eq (x : ℚ) : (2 : ℚ) ^ Int.log 2 |x| = ((2 ^ (prec - 1) : ℤ) : ℚ) * quantum prec x := by
  unfold quantum
  push_cast
  rw [← zpow_natCast, ← zpow_add₀ (by norm_num)]
  congr 1
  push_cast [hp]
  ring

variable (hg : Representable prec g)
include hg

theorem roundTo_le_of_nonneg (hg0 : 0 ≤ g) (h : x ≤ g) : roundTo prec x ≤ g := by
  obtain hx | hx := le_or_gt x 0
  · have hle := roundTo_le_grid (k := 0) prec (by simpa using hx)
    simp only [Int.cast_zero, zero_mul] at hle
    exact hle.trans hg0
  · have hlog := zpow_log_le hx.ne'
    rw [abs_of_pos hx] at hlog
    obtain ⟨k, hk⟩ := hg.grid hp (hlog.trans h)
    rw [← abs_of_pos hx] at hk
    rw [hk] at h ⊢
    exact roundTo_le_grid prec h

theorem le_roundTo_of_nonneg (hg0 : 0 ≤ g) (h : g ≤ x) : g ≤ roundTo prec x := by
  obtain rfl | hx := (hg0.trans h).eq_or_lt
  · obtain rfl : g = 0 := le_antisymm h hg0
    simp [roundTo, roundEven]
  obtain hge | hlt := le_or_gt ((2 : ℚ) ^ Int.log 2 |x|) g
  · obtain ⟨k, hk⟩ := hg.grid hp hge
    rw [hk] at h ⊢
    exact grid_le_roundTo prec h
  · -- Below the magnitude of `x` there is its power of two to stop at.
    have hpow := zpow_log_le hx.ne'
    rw [zpow_log_eq hp, abs_of_pos hx] at hpow
    rw [zpow_log_eq hp] at hlt
    exact hlt.le.trans (grid_le_roundTo prec hpow)

/-- **A representable upper bound survives rounding.** -/
theorem roundTo_le (h : x ≤ g) : roundTo prec x ≤ g := by
  obtain hg0 | hg0 := le_total 0 g
  · exact roundTo_le_of_nonneg hp hg hg0 h
  · have hneg := le_roundTo_of_nonneg hp hg.neg (neg_nonneg.mpr hg0) (neg_le_neg h)
    rw [roundTo_neg] at hneg
    exact neg_le_neg_iff.mp hneg

/-- **A representable lower bound survives rounding.** -/
theorem le_roundTo (h : g ≤ x) : g ≤ roundTo prec x := by
  have hneg := roundTo_le hp hg.neg (neg_le_neg h)
  rw [roundTo_neg] at hneg
  exact neg_le_neg_iff.mp hneg

theorem roundTo_of_representable : roundTo prec g = g :=
  le_antisymm (roundTo_le hp hg le_rfl) (le_roundTo hp hg le_rfl)

end

theorem abs_div_quantum_le (prec : ℕ) (x : ℚ) : |x / quantum prec x| ≤ 2 ^ prec := by
  have hq := quantum_pos prec x
  have hlt := lt_zpow_log x
  rw [zpow_log_succ_eq prec] at hlt
  rw [abs_div, abs_of_pos hq, div_le_iff₀ hq]
  exact_mod_cast hlt.le

theorem representable_roundTo (prec : ℕ) (x : ℚ) : Representable prec (roundTo prec x) := by
  refine ⟨roundEven (x / quantum prec x), _, ?_, rfl⟩
  have hle := abs_le.mp (abs_div_quantum_le prec x)
  rw [abs_le]
  exact ⟨le_roundEven (by exact_mod_cast hle.1), roundEven_le (by exact_mod_cast hle.2)⟩

/-- The error is at most half a unit. -/
theorem abs_roundTo_sub_le (prec : ℕ) (x : ℚ) : |roundTo prec x - x| ≤ quantum prec x / 2 := by
  have hq := quantum_pos prec x
  have herr := abs_roundEven_sub_le (x / quantum prec x)
  have heq : roundTo prec x - x
      = (roundEven (x / quantum prec x) - x / quantum prec x) * quantum prec x := by
    rw [roundTo, sub_mul, div_mul_cancel₀ _ hq.ne']
  rw [heq, abs_mul, abs_of_pos hq]
  nlinarith

/-- Half a unit, where the magnitude is known only from above. -/
theorem abs_roundTo_sub_le_of_lt (prec : ℕ) (hx : 0 < x) (h : x < 2 ^ (e + 1)) :
    |roundTo prec x - x| ≤ 2 ^ (e - prec) := by
  have hlog : Int.log 2 |x| ≤ e := by
    rw [abs_of_pos hx]
    have := (Int.lt_zpow_iff_log_lt (by norm_num : 1 < 2) hx).mp (by exact_mod_cast h)
    omega
  refine (abs_roundTo_sub_le prec x).trans ?_
  have hle : quantum prec x ≤ 2 ^ (e - prec + 1) :=
    zpow_le_zpow_right₀ (by norm_num) (by omega)
  rw [zpow_add₀ (by norm_num), zpow_one] at hle
  linarith

/-- Strictly within half a unit of a point of the grid, rounding goes to that point. -/
theorem roundTo_eq_of_near (prec : ℕ) (h : |x - k * quantum prec x| < quantum prec x / 2) :
    roundTo prec x = k * quantum prec x := by
  have hq := quantum_pos prec x
  have hnear : |x / quantum prec x - k| < 1 / 2 := by
    have heq : x / quantum prec x - k = (x - k * quantum prec x) / quantum prec x := by
      rw [sub_div, mul_div_cancel_right₀ _ hq.ne']
    rw [heq, abs_div, abs_of_pos hq, div_lt_iff₀ hq]
    linarith
  rw [roundTo, roundEven_eq_of_near hnear]

theorem log_eq (hx : 0 < x) (hlo : (2 : ℚ) ^ e ≤ x) (hhi : x < 2 ^ (e + 1)) : Int.log 2 |x| = e := by
  rw [abs_of_pos hx]
  have h1 := (Int.zpow_le_iff_le_log (by norm_num : 1 < 2) hx).mp (by exact_mod_cast hlo)
  have h2 := (Int.lt_zpow_iff_log_lt (by norm_num : 1 < 2) hx).mp (by exact_mod_cast hhi)
  omega

/-! ## Doubles -/

/-- A finite double. -/
structure Double where
  val : ℚ
  repr : Representable 53 val

namespace Double

/-- The nearest double: a constant of the source, or the result of one operation. -/
def round (x : ℚ) : Double := ⟨roundTo 53 x, representable_roundTo 53 x⟩

/-- `float64(n)`. -/
def ofInt (n : ℤ) : Double := round n
def add (a b : Double) : Double := round (a.val + b.val)
def sub (a b : Double) : Double := round (a.val - b.val)
def mul (a b : Double) : Double := round (a.val * b.val)
def div (a b : Double) : Double := round (a.val / b.val)

theorem round_val_of_representable (hg : Representable 53 g) : (round g).val = g :=
  roundTo_of_representable (by norm_num) hg

/-- The doubles below `2 ^ (e + 1)` stop one unit short of any point of the grid there. -/
theorem le_pred (a : Double) (hlt : a.val < k * 2 ^ (e - 52)) (hk : (2 : ℚ) ^ e ≤ (k - 1) * 2 ^ (e - 52)) :
    a.val ≤ (k - 1) * 2 ^ (e - 52) := by
  obtain hge | hsmall := le_or_gt ((2 : ℚ) ^ e) a.val
  · obtain ⟨j, hj⟩ := a.repr.grid (by norm_num) hge
    have hexp : e + 1 - ((53 : ℕ) : ℤ) = e - 52 := by push_cast; ring
    rw [hexp] at hj
    have hpos : (0 : ℚ) < 2 ^ (e - 52) := by positivity
    rw [hj] at hlt ⊢
    have hjk : j < k := by exact_mod_cast lt_of_mul_lt_mul_right hlt hpos.le
    have hle : (j : ℚ) ≤ k - 1 := by exact_mod_cast Int.le_sub_one_of_lt hjk
    gcongr
  · exact hsmall.le.trans hk

end Double

/-! ## `big.Float` -/

/-- A `big.Float` that is not infinite: its precision and its value. -/
structure BigFloat where
  prec : ℕ
  val : ℚ
  prec_pos : 1 ≤ prec
  repr : Representable prec val

namespace BigFloat

/-- The precision `SetInt` gives: the length of the number, and 64 at least. -/
def intPrec (n : ℤ) : ℕ := max n.natAbs.size 64

theorem abs_le_intPrec (n : ℤ) : |n| ≤ 2 ^ intPrec n := by
  have hsize : n.natAbs < 2 ^ n.natAbs.size := Nat.lt_size_self _
  have hmono : (2 : ℕ) ^ n.natAbs.size ≤ 2 ^ intPrec n :=
    Nat.pow_le_pow_right (by norm_num) (le_max_left ..)
  rw [Int.abs_eq_natAbs]
  exact_mod_cast (hsize.trans_le hmono).le

/-- `new(big.Float).SetInt(n)`. -/
def setInt (n : ℤ) : BigFloat where
  prec := intPrec n
  val := n
  prec_pos := le_max_of_le_right (by norm_num)
  repr := representable_int (abs_le_intPrec n)

/-- `big.NewFloat(a)`. -/
def newFloat (a : Double) : BigFloat := ⟨53, a.val, by norm_num, a.repr⟩

/-- The larger precision of two operands, which a result into a new `big.Float` takes. -/
def maxPrec (a b : BigFloat) : ℕ := max a.prec b.prec

/-- A result rounded to the larger precision of the operands. -/
def rounded (a b : BigFloat) (x : ℚ) : BigFloat where
  prec := maxPrec a b
  val := roundTo (maxPrec a b) x
  prec_pos := le_max_of_le_left a.prec_pos
  repr := representable_roundTo _ x

/-- `new(big.Float).Mul(a, b)`. -/
def mul (a b : BigFloat) : BigFloat := rounded a b (a.val * b.val)

/-- `new(big.Float).Add(a, b)`. -/
def add (a b : BigFloat) : BigFloat := rounded a b (a.val + b.val)

/-- `a.Int(nil)`: towards zero. -/
def int (a : BigFloat) : ℤ := if 0 ≤ a.val then ⌊a.val⌋ else ⌈a.val⌉

end BigFloat
end NogoCommons.Lib
