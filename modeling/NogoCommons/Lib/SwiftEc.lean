import Mathlib.NumberTheory.LegendreSymbol.QuadraticChar.Basic
import Mathlib.Tactic.FieldSimp
import Mathlib.Tactic.LinearCombination

/-!
# Points of `y ^ 2 = x ^ 3 + b` from two field elements

For `u` and a point `(X, Y)` of the conic `X ^ 2 + 3 u ^ 2 Y ^ 2 = -(u ^ 3 + b)` the three numbers

    u + 4 Y ^ 2,   -X / (2 Y) - u / 2,   X / (2 Y) - u / 2

have values `x ^ 3 + b` whose product is a square, so that in a finite field one of the three is the first coordinate of a
point (`isSquare_candidate`). With `c` a square root of `-3` the conic is parametrised by `t` (`conic`), and the
parameter of the point that belongs to given `s = 4 Y ^ 2` and `v = X / (2 Y) - u / 2` is `± w (u (1 - c) / 2 + v)`, where
`w` is a square root of `s` (`Root`).
-/

namespace NogoCommons.Lib.SwiftEc
section Squares
variable {F : Type*} [Field F] {x y z : F}

theorem isSquare_of_mul_mul (hx : IsSquare x) (hz : IsSquare z) (hx0 : x ≠ 0) (hz0 : z ≠ 0)
    (h : IsSquare (x * y * z)) : IsSquare y := by
  have hy : y = x * y * z / (x * z) := by field_simp
  rw [hy]
  exact h.div (hx.mul hz)

/-- In a finite field the product of three numbers that are not squares is not a square. -/
theorem isSquare_or_of_mul_mul [Finite F] (h : IsSquare (x * y * z)) : IsSquare x ∨ IsSquare y ∨ IsSquare z := by
  classical
  have := Fintype.ofFinite F
  by_contra hnone
  push Not at hnone
  obtain ⟨hx, hy, hz⟩ := hnone
  have hχ : quadraticChar F (x * y * z) = -1 := by
    rw [map_mul, map_mul, quadraticChar_neg_one_iff_not_isSquare.mpr hx, quadraticChar_neg_one_iff_not_isSquare.mpr hy,
      quadraticChar_neg_one_iff_not_isSquare.mpr hz]
    rfl
  exact quadraticChar_neg_one_iff_not_isSquare.mp hχ h

end Squares

variable {F : Type*} [Field F] {b c u : F}

/-- The right-hand side of the curve. -/
def g (b x : F) : F := x ^ 3 + b

/-! ## The conic and the three numbers -/

/-- The first coordinate on the conic for the parameter. -/
def conicX (b u t : F) : F := (g b u - t ^ 2) / (t + t)
theorem conicX_eq (b u t : F) : conicX b u t = (g b u - t ^ 2) / (2 * t) := by rw [conicX, two_mul]

/-- The second. -/
def conicY (b c u t : F) : F := (conicX b u t + t) / (u * c)

variable {t : F}

theorem conic (h2 : (2 : F) ≠ 0) (hc : c ^ 2 = -3) (hc0 : c ≠ 0) (hu : u ≠ 0) (ht : t ≠ 0) :
    conicX b u t ^ 2 + 3 * u ^ 2 * conicY b c u t ^ 2 = -g b u := by
  have hX : 2 * t * conicX b u t = g b u - t ^ 2 := by
    rw [conicX_eq]
    field_simp
  have hY : u * c * conicY b c u t = conicX b u t + t := by
    rw [conicY]
    field_simp
  have h3 : 3 * u ^ 2 * conicY b c u t ^ 2 = -(u * c * conicY b c u t) ^ 2 := by
    linear_combination (u ^ 2 * conicY b c u t ^ 2) * hc
  rw [h3, hY]
  linear_combination -hX

/-- The second coordinate is zero only where the code doubles the parameter. -/
theorem conicY_ne_zero (h2 : (2 : F) ≠ 0) (hc0 : c ≠ 0) (hu : u ≠ 0) (ht : t ≠ 0) (hg : g b u ≠ -t ^ 2) :
    conicY b c u t ≠ 0 := by
  have hX : 2 * t * (conicX b u t + t) = g b u + t ^ 2 := by
    rw [conicX_eq]
    field_simp
    ring
  have hne : conicX b u t + t ≠ 0 := by
    intro h0
    rw [h0, mul_zero] at hX
    exact hg (by linear_combination -hX)
  exact div_ne_zero hne (mul_ne_zero hu hc0)

/-- The first of the three numbers. -/
def firstX (b c u t : F) : F := u + (conicY b c u t + conicY b c u t) ^ 2

/-- The second. -/
def secondX (b c u t : F) : F := -(conicX b u t / (conicY b c u t + conicY b c u t)) - u / (1 + 1)

/-- The third. -/
def thirdX (b c u t : F) : F := conicX b u t / (conicY b c u t + conicY b c u t) - u / (1 + 1)
theorem firstX_eq (b c u t : F) : firstX b c u t = u + 4 * conicY b c u t ^ 2 := by rw [firstX]; ring

theorem secondX_eq (b c u t : F) : secondX b c u t = -(conicX b u t / (2 * conicY b c u t)) - u / 2 := by
  rw [secondX, two_mul, one_add_one_eq_two]

theorem thirdX_eq (b c u t : F) : thirdX b c u t = conicX b u t / (2 * conicY b c u t) - u / 2 := by
  rw [thirdX, two_mul, one_add_one_eq_two]

/-- The identity behind the map, with `s = 4 Y ^ 2`, `m = X / (2 Y)` and `h = u / 2`. -/
theorem g_mul_g {s m h : F} (hrel : s * (m ^ 2 + 3 * h ^ 2) = -g b (2 * h)) :
    s ^ 3 * (g b (-m - h) * g b (m - h)) = g b (2 * h) ^ 2 * g b (2 * h + s) := by
  have hb : b = -(2 * h) ^ 3 - s * (m ^ 2 + 3 * h ^ 2) := by
    rw [hrel, g]
    ring
  subst hb
  simp only [g]
  ring

theorem isSquare_product (h2 : (2 : F) ≠ 0) (hc : c ^ 2 = -3) (hc0 : c ≠ 0) (hu : u ≠ 0) (ht : t ≠ 0)
    (hg : g b u ≠ -t ^ 2) : IsSquare (g b (firstX b c u t) * g b (secondX b c u t) * g b (thirdX b c u t)) := by
  have hY := conicY_ne_zero h2 hc0 hu ht hg
  have hconic := conic (b := b) h2 hc hc0 hu ht
  simp only [firstX_eq, secondX_eq, thirdX_eq]
  generalize conicX b u t = X at *
  generalize conicY b c u t = Y at *
  have h2h : 2 * (u / 2) = u := by field_simp
  have hkey : (4 * Y ^ 2) ^ 3 * (g b (-(X / (2 * Y)) - u / 2) * g b (X / (2 * Y) - u / 2)) =
      g b u ^ 2 * g b (u + 4 * Y ^ 2) := by
    have := g_mul_g (b := b) (s := 4 * Y ^ 2) (m := X / (2 * Y)) (h := u / 2) (by
      rw [h2h, ← hconic]
      field_simp
      ring)
    rwa [h2h] at this
  refine ⟨g b u * g b (u + 4 * Y ^ 2) / (8 * Y ^ 3), ?_⟩
  have h8 : (8 : F) * Y ^ 3 ≠ 0 := by
    have : (8 : F) = 2 ^ 3 := by norm_num
    rw [this]
    exact mul_ne_zero (pow_ne_zero _ h2) (pow_ne_zero _ hY)
  rw [div_mul_div_comm, eq_div_iff (mul_ne_zero h8 h8)]
  linear_combination g b (u + 4 * Y ^ 2) * hkey

/-- One of the three numbers is the first coordinate of a point. -/
theorem isSquare_candidate [Finite F] (h2 : (2 : F) ≠ 0) (hc : c ^ 2 = -3) (hc0 : c ≠ 0) (hu : u ≠ 0) (ht : t ≠ 0)
    (hg : g b u ≠ -t ^ 2) :
    IsSquare (g b (firstX b c u t)) ∨ IsSquare (g b (secondX b c u t)) ∨ IsSquare (g b (thirdX b c u t)) :=
  isSquare_or_of_mul_mul (isSquare_product h2 hc hc0 hu ht hg)

/-! ## The parameter of a given point -/

section Param
variable {e v w : F}
variable (h2 : (2 : F) ≠ 0)
include h2

theorem param_mul (he : e ^ 2 = -3) : (u * (1 - e) / 2 + v) * (u * (1 + e) / 2 + v) = u ^ 2 + u * v + v ^ 2 := by
  field_simp
  linear_combination (-u ^ 2) * he

/-- The parameter `w (u (1 - e) / 2 + v)` of the point with `4 Y ^ 2 = w ^ 2` and `X / (2 Y) = v + u / 2`, up to the sign
of `Y`. -/
theorem param (he : e ^ 2 = -3) (he0 : e ≠ 0) (hu : u ≠ 0) (hw : w ≠ 0) (hg : g b u ≠ 0)
    (hrel : w ^ 2 * (u ^ 2 + u * v + v ^ 2) = -g b u) (ht : t = w * (u * (1 - e) / 2 + v)) :
    t ≠ 0 ∧ g b u ≠ -t ^ 2 ∧ conicX b u t = -(w * (v + u / 2)) ∧ conicX b u t + t = -(w * u * e / 2) := by
  have hA : u * (1 - e) / 2 + v ≠ 0 := by
    intro h0
    rw [← param_mul h2 he, h0, zero_mul, mul_zero] at hrel
    exact hg (neg_eq_zero.mp hrel.symm)
  have ht0 : t ≠ 0 := ht ▸ mul_ne_zero hw hA
  have hsum : g b u + t ^ 2 = -(w ^ 2 * u * e * (u * (1 - e) / 2 + v)) := by
    rw [ht]
    field_simp
    linear_combination (4 : F) * hrel - w ^ 2 * u ^ 2 * he
  have hX : conicX b u t = -(w * (v + u / 2)) := by
    rw [conicX_eq, div_eq_iff (mul_ne_zero h2 ht0), ht]
    field_simp
    linear_combination (4 : F) * hrel - w ^ 2 * u ^ 2 * he
  refine ⟨ht0, ?_, hX, ?_⟩
  · intro heq
    rw [heq, neg_add_cancel, zero_eq_neg] at hsum
    exact mul_ne_zero (mul_ne_zero (mul_ne_zero (pow_ne_zero 2 hw) hu) he0) hA hsum
  · rw [hX, ht]
    field_simp
    ring

/-- What the three numbers are for given coordinates on the conic. -/
theorem candidates_eq (hc0 : c ≠ 0) (hu : u ≠ 0) (hw : w ≠ 0) (hX : conicX b u t = -(w * (v + u / 2))) :
    (conicX b u t + t = -(w * u * c / 2) → firstX b c u t = u + w ^ 2 ∧ secondX b c u t = -v - u ∧ thirdX b c u t = v) ∧
    (conicX b u t + t = -(w * u * -c / 2) →
      firstX b c u t = u + w ^ 2 ∧ secondX b c u t = v ∧ thirdX b c u t = -v - u) := by
  constructor
  all_goals
    intro hsum
    rw [firstX_eq, secondX_eq, thirdX_eq, conicY, hsum, hX]
    refine ⟨?_, ?_, ?_⟩
    all_goals
      field_simp
      ring

/-- A parameter found from `v` and `w` is taken as it is, and gives back `u + w ^ 2`, `v` and `-v - u`. -/
theorem candidates_of_param (hc : c ^ 2 = -3) (hc0 : c ≠ 0) (hu : u ≠ 0) (hw : w ≠ 0) (hg : g b u ≠ 0)
    (hrel : w ^ 2 * (u ^ 2 + u * v + v ^ 2) = -g b u)
    (ht : t = w * (u * (1 - c) / 2 + v) ∨ t = w * (u * (1 + c) / 2 + v)) :
    t ≠ 0 ∧ g b u ≠ -t ^ 2 ∧ firstX b c u t = u + w ^ 2 ∧
      (secondX b c u t = -v - u ∧ thirdX b c u t = v ∨ secondX b c u t = v ∧ thirdX b c u t = -v - u) := by
  rcases ht with ht | ht
  · obtain ⟨ht0, hne, hX, hsum⟩ := param h2 hc hc0 hu hw hg hrel ht
    obtain ⟨h1, h23⟩ := (candidates_eq h2 hc0 hu hw hX).1 hsum
    exact ⟨ht0, hne, h1, .inl h23⟩
  · have hcn : (-c) ^ 2 = -3 := by rw [neg_sq, hc]
    have htn : t = w * (u * (1 - -c) / 2 + v) := by rw [ht, sub_neg_eq_add]
    obtain ⟨ht0, hne, hX, hsum⟩ := param h2 hcn (neg_ne_zero.mpr hc0) hu hw hg hrel htn
    obtain ⟨h1, h23⟩ := (candidates_eq h2 hc0 hu hw hX).2 hsum
    exact ⟨ht0, hne, h1, .inr h23⟩

end Param
end NogoCommons.Lib.SwiftEc
