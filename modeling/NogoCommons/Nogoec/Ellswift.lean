import Mathlib
import NogoCommons.Lib.Primality
import NogoCommons.Lib.SwiftEc
import NogoCommons.Nogoec.Secp256k1

/-!
# `nogoec/ellswift` — the ElligatorSwift encoding

`xSwiftEC` takes two field values to the first coordinate of a point, and `xSwiftECInv` looks for the second of the two
when the first and the coordinate are given, in one of eight ways.

A field value is a number modulo the prime here and the operations of the package are exact. The prime is proved to be one,
by a chain of three tests that ends in primes of eight digits, `c` to be a square root of `-3`, and `-7` not to be a cube:
no point of the curve has second coordinate zero, which is what keeps every denominator away from zero. The square root is
the package's, with what its documentation says of it in `SquareRootVal`.
-/

namespace NogoCommons.Nogoec.Ellswift
open Lib
open Lib.SwiftEc

/-! ## The field -/

private theorem prime_128 : Nat.Prime 255515944373312847190720520512484175977 := by
  refine Primality.prime_of_test 128 2 [107590001, 7240687, 96557] ?_ (by decide +kernel)
  intro q hq
  simp only [List.mem_cons, List.not_mem_nil, or_false] at hq
  rcases hq with rfl | rfl | rfl
  all_goals norm_num

private theorem prime_237 : Nat.Prime 205115282021455665897114700593932402728804164701536103180137503955397371 :=
  Primality.prime_of_test 237 2 [255515944373312847190720520512484175977] (by simpa using prime_128)
    (by decide +kernel)

instance fieldPrime_prime : Fact fieldPrime.Prime :=
  ⟨Primality.prime_of_test 256 2 [205115282021455665897114700593932402728804164701536103180137503955397371]
    (by simpa using prime_237) (by decide +kernel)⟩

/-- The package's field values. -/
abbrev FieldVal : Type := ZMod fieldPrime

def cBytes : Bytes :=
  [0x0a, 0x2d, 0x2b, 0xa9, 0x35, 0x07, 0xf1, 0xdf, 0x23, 0x37, 0x70, 0xc2, 0xa7, 0x97, 0x96, 0x2c,
   0xc6, 0x1f, 0x6d, 0x15, 0xda, 0x14, 0xec, 0xd4,
   0x7d, 0x8d, 0x27, 0xae, 0x1c, 0xd5, 0xf8, 0x52]

/-- The constant of the package, set from its bytes by `init`. -/
def c : FieldVal := (beNat cBytes : ℕ)

theorem c_sq : c ^ 2 = -3 := by
  have h : ((beNat cBytes ^ 2 + 3 : ℕ) : FieldVal) = 0 :=
    (ZMod.natCast_eq_zero_iff ..).mpr (Nat.dvd_of_mod_eq_zero (by decide))
  push_cast at h
  exact eq_neg_of_add_eq_zero_left h

theorem natCast_ne_zero {n : ℕ} (hpos : n ≠ 0) (hlt : n < fieldPrime) : (n : FieldVal) ≠ 0 := by
  rw [ne_eq, ZMod.natCast_eq_zero_iff]
  exact fun h => absurd (Nat.le_of_dvd (by omega) h) (by omega)

theorem two_ne_zero : (2 : FieldVal) ≠ 0 := natCast_ne_zero (n := 2) (by decide) (by decide)
theorem three_ne_zero : (3 : FieldVal) ≠ 0 := natCast_ne_zero (n := 3) (by decide) (by decide)

theorem c_ne_zero : c ≠ 0 := by
  intro h
  have h3 := c_sq
  rw [h, zero_pow (by decide), zero_eq_neg] at h3
  exact three_ne_zero h3

/-- `-7` is not a cube: its power to a third of the order of the multiplicative group is not one. -/
theorem curve_ne_zero (x : FieldVal) : g 7 x ≠ 0 := by
  intro h
  have hcube : x ^ 3 = ((fieldPrime - 7 : ℕ) : FieldVal) := by
    rw [Nat.cast_sub (by decide), ZMod.natCast_self, zero_sub]
    exact eq_neg_of_add_eq_zero_left h
  have hx : x ≠ 0 := by
    rintro rfl
    rw [zero_pow (by decide)] at hcube
    exact natCast_ne_zero (by decide) (by decide) hcube.symm
  have hone : ((fieldPrime - 7 : ℕ) : FieldVal) ^ ((fieldPrime - 1) / 3) = 1 := by
    have hexp : 3 * ((fieldPrime - 1) / 3) = fieldPrime - 1 := by decide
    rw [← hcube, ← pow_mul, hexp, ZMod.pow_card_sub_one_eq_one hx]
  rw [← Primality.powMod_cast fieldPrime 256 _ _ (by decide)] at hone
  have hmod := (ZMod.natCast_eq_natCast_iff' _ 1 fieldPrime).mp (hone.trans Nat.cast_one.symm)
  exact absurd hmod (by decide +kernel)

/-- What the package says of `SquareRootVal`: the flag tells whether the value is a square, and then the result is a root of
it. -/
structure SquareRootVal where
  root : FieldVal → FieldVal
  found : FieldVal → Bool
  found_iff : ∀ a, found a = true ↔ IsSquare a
  root_mul_root : ∀ a, found a = true → root a * root a = a

/-- The prime is three modulo four, so that a power is a root wherever there is one. -/
def powerRoot : SquareRootVal where
  root a := a ^ ((fieldPrime + 1) / 4)
  found a := decide (a ^ ((fieldPrime + 1) / 4) * a ^ ((fieldPrime + 1) / 4) = a)
  found_iff a := by
    rw [decide_eq_true_eq]
    refine ⟨fun h => ⟨_, h.symm⟩, ?_⟩
    rintro ⟨r, rfl⟩
    have hexp : (fieldPrime + 1) / 4 + (fieldPrime + 1) / 4 + ((fieldPrime + 1) / 4 + (fieldPrime + 1) / 4) =
        fieldPrime + 1 := by decide
    rw [mul_pow, ← pow_add, ← pow_add, hexp, pow_succ, ZMod.pow_card]
  root_mul_root a h := of_decide_eq_true h

/-! ## Decoding -/

variable (sqrt : SquareRootVal)

def isXOnCurve (x : FieldVal) : Bool :=
  sqrt.found (x ^ 2 * x + 7)

/-- The first three steps: one in the place of zero, and `t` doubled where the second coordinate on the conic would be zero.
The source overwrites its arguments with these; nobody reads them afterwards. -/
def replaced (u t : FieldVal) : FieldVal × FieldVal :=
  let u := if u = 0 then 1 else u
  let t := if t = 0 then 1 else t
  let gu := u ^ 2 * u + 7
  let rhs := -t ^ 2
  (u, if gu = rhs then t + t else t)

def xSwiftEC (u t : FieldVal) : Except String FieldVal :=
  let (u, t) := replaced u t
  let tSquared := -t ^ 2
  let xNum := u ^ 2 * u + 7 + tSquared
  let xDenom := (t + t)⁻¹
  let x := xNum * xDenom
  let yNum := x + t
  let yDenom := (u * c)⁻¹
  let y := yNum * yDenom
  let firstX := u + y * y * 4
  if isXOnCurve sqrt firstX then
    .ok firstX
  else
    let doubleYInv := (y + y)⁻¹
    let xDivDoubleYInv := x * doubleYInv
    let invTwo := 2⁻¹
    let negUDivTwo := -(u * invTwo)
    let secondX := -xDivDoubleYInv + negUDivTwo
    if isXOnCurve sqrt secondX then
      .ok secondX
    else
      let thirdX := xDivDoubleYInv + negUDivTwo
      if isXOnCurve sqrt thirdX then
        .ok thirdX
      else
        .error "no calculated x-values were square"

theorem replaced_spec (u t : FieldVal) :
    (replaced u t).1 ≠ 0 ∧ (replaced u t).2 ≠ 0 ∧ g 7 (replaced u t).1 ≠ -(replaced u t).2 ^ 2 := by
  have hcube : ∀ a : FieldVal, a ^ 2 * a + 7 = g 7 a := fun a => by rw [g, pow_succ a 2]
  simp only [replaced, hcube]
  have hu : (if u = 0 then 1 else u) ≠ 0 := by
    split_ifs with h
    · exact one_ne_zero
    · exact h
  have ht : (if t = 0 then 1 else t) ≠ 0 := by
    split_ifs with h
    · exact one_ne_zero
    · exact h
  generalize (if u = 0 then 1 else u) = u at *
  generalize (if t = 0 then 1 else t) = t at *
  refine ⟨hu, ?_⟩
  split_ifs with heq
  · have htt : t + t ≠ 0 := by
      rw [← two_mul]
      exact mul_ne_zero two_ne_zero ht
    refine ⟨htt, fun hdouble => ?_⟩
    -- both equations together would make three times the square of `t` zero
    have h3 : 3 * t ^ 2 = 0 := by linear_combination hdouble - heq
    exact mul_ne_zero three_ne_zero (pow_ne_zero 2 ht) h3
  · exact ⟨ht, heq⟩

variable {u t x v : FieldVal} {caseNum : Nat}

theorem replaced_eq (hu : u ≠ 0) (ht : t ≠ 0) (hg : g 7 u ≠ -t ^ 2) : replaced u t = (u, t) := by
  rw [g, pow_succ u 2] at hg
  simp only [replaced, if_neg hu, if_neg ht, if_neg hg]

theorem isXOnCurve_iff (x : FieldVal) : isXOnCurve sqrt x = true ↔ IsSquare (g 7 x) := by
  rw [isXOnCurve, sqrt.found_iff, ← pow_succ, g]

/-- The source's candidates are those of the map, at the values put in place of its arguments. -/
theorem xSwiftEC_eq {u' t' : FieldVal} (h : replaced u t = (u', t')) : xSwiftEC sqrt u t =
      if isXOnCurve sqrt (firstX 7 c u' t') then .ok (firstX 7 c u' t')
      else if isXOnCurve sqrt (secondX 7 c u' t') then .ok (secondX 7 c u' t')
      else if isXOnCurve sqrt (thirdX 7 c u' t') then .ok (thirdX 7 c u' t')
      else .error "no calculated x-values were square" := by
  have hx : (u' ^ 2 * u' + 7 + -t' ^ 2) * (t' + t')⁻¹ = conicX 7 u' t' := by
    rw [conicX, g, div_eq_mul_inv, pow_succ u' 2, sub_eq_add_neg]
  have hy : (conicX 7 u' t' + t') * (u' * c)⁻¹ = conicY 7 c u' t' := by rw [conicY, div_eq_mul_inv]
  have h1 : u' + conicY 7 c u' t' * conicY 7 c u' t' * 4 = firstX 7 c u' t' := by
    rw [firstX]
    ring
  have h2 : -(conicX 7 u' t' * (conicY 7 c u' t' + conicY 7 c u' t')⁻¹) + -(u' * 2⁻¹) = secondX 7 c u' t' := by
    rw [secondX_eq, div_eq_mul_inv, div_eq_mul_inv, two_mul, sub_eq_add_neg]
  have h3 : conicX 7 u' t' * (conicY 7 c u' t' + conicY 7 c u' t')⁻¹ + -(u' * 2⁻¹) = thirdX 7 c u' t' := by
    rw [thirdX_eq, div_eq_mul_inv, div_eq_mul_inv, two_mul, sub_eq_add_neg]
  simp only [xSwiftEC, h, hx, hy, h1, h2, h3]

theorem xSwiftEC_total (u t : FieldVal) : ∃ x, xSwiftEC sqrt u t = .ok x ∧ IsSquare (g 7 x) := by
  obtain ⟨hu, ht, hg⟩ := replaced_spec u t
  rw [xSwiftEC_eq sqrt (Prod.mk.eta (p := replaced u t)).symm]
  generalize (replaced u t).1 = u' at *
  generalize (replaced u t).2 = t' at *
  have hone := isSquare_candidate two_ne_zero c_sq c_ne_zero hu ht hg
  simp only [← isXOnCurve_iff sqrt] at hone ⊢
  split_ifs with h1 h2 h3
  · exact ⟨_, rfl, h1⟩
  · exact ⟨_, rfl, h2⟩
  · exact ⟨_, rfl, h3⟩
  · exact (hone.elim h1 fun h => h.elim h2 h3).elim

/-! ## Encoding -/

def isOdd (y : FieldVal) : Bool :=
  y.val % 2 == 1

/-- The point with the coordinate and an even second one, if there is any. -/
def liftX (x : FieldVal) : Option (FieldVal × FieldVal) :=
  let ySqr := x ^ 2 * x + 7
  if sqrt.found ySqr then
    let y := sqrt.root ySqr
    if !isOdd y then some (x, y)
    else if !isOdd (-y) then some (x, -y)
    else none
  else none

/-- The first half of `xSwiftECInv`: `v` and `s`. -/
def findVS (u x : FieldVal) (caseNum : Nat) : Option (FieldVal × FieldVal) :=
  if caseNum &&& 2 = 0 then
    match liftX sqrt (-(x + u)) with
    | some _ => none
    | none =>
      let v := x
      let sDenom := u * v + u ^ 2 + v ^ 2
      let sNum := u ^ 2 * u + 7
      some (v, -(sDenom⁻¹ * sNum))
  else
    let s := x + -u
    if s = 0 then none
    else
      let lhs := (u ^ 2 * u + 7) * 4
      let rhs := u ^ 2 * 3 * s
      let radicand := -((lhs + rhs) * s)
      if !sqrt.found radicand then none
      else
        let r := sqrt.root radicand
        if caseNum &&& 1 = 1 ∧ r = 0 then none
        else some ((r * s⁻¹ + -u) * 2⁻¹, s)

def xSwiftECInv (u x : FieldVal) (caseNum : Nat) : Option FieldVal :=
  match findVS sqrt u x caseNum with
  | none => none
  | some (v, s) =>
    if !sqrt.found s then none
    else
      let w := sqrt.root s
      let oneMinusC := -c + 1
      let onePlusC := c + 1
      match caseNum &&& 5 with
      | 0 => some (-((u * oneMinusC * 2⁻¹ + v) * w))
      | 1 => some ((u * onePlusC * 2⁻¹ + v) * w)
      | 4 => some ((u * oneMinusC * 2⁻¹ + v) * w)
      -- five, since no other number is left
      | _ => some (-((u * onePlusC * 2⁻¹ + v) * w))

/-- A root is found as a point: one of the two roots is even, because the prime is odd. -/
theorem isSome_liftX (x : FieldVal) : (liftX sqrt x).isSome = true ↔ IsSquare (g 7 x) := by
  rw [← isXOnCurve_iff sqrt, isXOnCurve, liftX]
  dsimp only
  generalize sqrt.root (x ^ 2 * x + 7) = y
  have heven : isOdd y = true → isOdd (-y) = false := by
    intro hodd
    have hval : y.val % 2 = 1 := beq_iff_eq.mp hodd
    have hy0 : y ≠ 0 := by
      rintro rfl
      rw [ZMod.val_zero] at hval
      omega
    have hlt : y.val < fieldPrime := ZMod.val_lt y
    have hp : fieldPrime % 2 = 1 := by decide
    rw [isOdd, ZMod.neg_val, if_neg hy0, beq_eq_false_iff_ne]
    omega
  cases sqrt.found (x ^ 2 * x + 7) with
  | false => simp
  | true =>
    cases hy : isOdd y with
    | false => simp
    | true => simp [heven hy]

/-- What the two numbers satisfy. -/
theorem findVS_eq_some (hx : IsSquare (g 7 x)) {s : FieldVal} (h : findVS sqrt u x caseNum = some (v, s)) :
    s * (u ^ 2 + u * v + v ^ 2) = -g 7 u ∧ (v = x ∧ ¬IsSquare (g 7 (-v - u)) ∨ u + s = x) := by
  rw [findVS] at h
  dsimp only at h
  split_ifs at h with hcase hs hroot hr
  · cases hlift : liftX sqrt (-(x + u)) with
    | some P =>
      rw [hlift] at h
      cases h
    | none =>
      rw [hlift] at h
      cases h
      have hnot : ¬IsSquare (g 7 (-(x + u))) := by
        rw [← isSome_liftX sqrt, hlift]
        exact Bool.false_ne_true
      -- a zero denominator would make `-(x + u)` a third number with the cube of `x`
      have hD : u * x + u ^ 2 + x ^ 2 ≠ 0 := by
        intro h0
        have hg : g 7 (-(x + u)) = g 7 x := by
          rw [g, g]
          linear_combination -(2 * x + u) * h0
        exact hnot (hg ▸ hx)
      refine ⟨?_, .inl ⟨rfl, ?_⟩⟩
      · rw [g]
        linear_combination -(u ^ 3 + 7) * inv_mul_cancel₀ hD
      · rwa [neg_add'] at hnot
  · cases h
    have hsq := sqrt.root_mul_root _ (by simpa using hroot)
    generalize sqrt.root _ = r at hsq ⊢
    refine ⟨?_, .inr (by ring)⟩
    generalize x + -u = s at *
    have h2 := two_ne_zero
    rw [g]
    field_simp
    linear_combination hsq

theorem xSwiftECInv_eq_some (h : xSwiftECInv sqrt u x caseNum = some t) :
    ∃ v s w, findVS sqrt u x caseNum = some (v, s) ∧ w ^ 2 = s ∧
      (t = w * (u * (1 - c) / 2 + v) ∨ t = w * (u * (1 + c) / 2 + v)) := by
  rw [xSwiftECInv] at h
  cases hvs : findVS sqrt u x caseNum with
  | none =>
    rw [hvs] at h
    cases h
  | some vs =>
    obtain ⟨v, s⟩ := vs
    rw [hvs] at h
    dsimp only at h
    split_ifs at h with hroot
    have hsq : sqrt.root s ^ 2 = s := by
      rw [sq]
      exact sqrt.root_mul_root s (by simpa using hroot)
    have hneg : (-sqrt.root s) ^ 2 = s := by rw [neg_sq, hsq]
    split at h
    all_goals cases h
    · exact ⟨v, s, -sqrt.root s, rfl, hneg, .inl (by ring)⟩
    · exact ⟨v, s, sqrt.root s, rfl, hsq, .inr (by ring)⟩
    · exact ⟨v, s, sqrt.root s, rfl, hsq, .inl (by ring)⟩
    · exact ⟨v, s, -sqrt.root s, rfl, hneg, .inr (by ring)⟩

/-- The three numbers of a parameter that was found, with the one that is returned. -/
theorem xSwiftEC_of_param {w : FieldVal} (hu : u ≠ 0) (hx : IsSquare (g 7 x)) (hw : w ≠ 0)
    (hrel : w ^ 2 * (u ^ 2 + u * v + v ^ 2) = -g 7 u)
    (ht : t = w * (u * (1 - c) / 2 + v) ∨ t = w * (u * (1 + c) / 2 + v))
    (hcase : v = x ∧ ¬IsSquare (g 7 (-v - u)) ∨ u + w ^ 2 = x) : xSwiftEC sqrt u t = .ok x := by
  obtain ⟨ht0, hg, h1, h23⟩ := candidates_of_param two_ne_zero c_sq c_ne_zero hu hw (curve_ne_zero u) hrel ht
  have hprod := isSquare_product two_ne_zero c_sq c_ne_zero hu ht0 hg
  rw [xSwiftEC_eq sqrt (replaced_eq hu ht0 hg)]
  rcases hcase with ⟨rfl, hnot⟩ | rfl
  · -- the first number is not on the curve, or the product would make `-v - u` one that is
    have hfirst : ¬IsSquare (g 7 (firstX 7 c u t)) := by
      intro hsq
      refine hnot (isSquare_of_mul_mul hsq hx (curve_ne_zero _) (curve_ne_zero _) ?_)
      rcases h23 with ⟨h2, h3⟩ | ⟨h2, h3⟩
      · rwa [h2, h3] at hprod
      · rwa [h2, h3, mul_right_comm] at hprod
    rw [if_neg (by rwa [isXOnCurve_iff])]
    rcases h23 with ⟨h2, h3⟩ | ⟨h2, h3⟩
    · rw [h2, h3, if_neg (by rwa [isXOnCurve_iff]), if_pos (by rwa [isXOnCurve_iff])]
    · rw [h2, if_pos (by rwa [isXOnCurve_iff])]
  · rw [h1, if_pos (by rwa [isXOnCurve_iff])]

/-- Decoding is defined everywhere and gives points, and it undoes every encoding that is found. -/
theorem xSwiftEC_xSwiftECInv : (∀ u t, ∃ x, xSwiftEC sqrt u t = .ok x ∧ IsSquare (x ^ 3 + 7)) ∧
    ∀ u x t caseNum, u ≠ 0 → IsSquare (x ^ 3 + 7) → xSwiftECInv sqrt u x caseNum = some t →
      xSwiftEC sqrt u t = .ok x := by
  refine ⟨xSwiftEC_total sqrt, fun u x t caseNum hu hx h => ?_⟩
  obtain ⟨v, s, w, hvs, rfl, ht⟩ := xSwiftECInv_eq_some sqrt h
  obtain ⟨hrel, hcase⟩ := findVS_eq_some sqrt hx hvs
  have hw : w ≠ 0 := by
    rintro rfl
    rw [zero_pow (by decide), zero_mul, zero_eq_neg] at hrel
    exact curve_ne_zero u hrel
  exact xSwiftEC_of_param sqrt hu hx hw hrel ht hcase

private theorem exists_of_findVS {s : FieldVal} (h : findVS sqrt u x caseNum = some (v, s)) (hs : sqrt.found s = true) :
    ∃ t, xSwiftECInv sqrt u x caseNum = some t := by
  simp only [xSwiftECInv, h, hs]
  rw [if_neg (by decide)]
  split
  all_goals exact ⟨_, rfl⟩

private theorem isSquare_natCast {a r : ℕ} (h : r * r % fieldPrime = a % fieldPrime) : IsSquare (a : FieldVal) :=
  ⟨r, by rw [← Nat.cast_mul, ZMod.natCast_eq_natCast_iff', h]⟩

/-- At `u = 3` and `x = 4` the third way finds a parameter, with `s = 1`. -/
theorem xSwiftEC_xSwiftECInv_three : ∃ t, xSwiftECInv powerRoot 3 4 2 = some t ∧ xSwiftEC powerRoot 3 t = .ok 4 := by
  have hx : IsSquare ((4 : FieldVal) ^ 3 + 7) := by
    have h71 : (4 : FieldVal) ^ 3 + 7 = ((71 : ℕ) : FieldVal) := by norm_num
    rw [h71]
    exact isSquare_natCast (r := 0x598ec453728e0ffe0ae2f5e174243cf58f2a3f2c83d2457b43036db568b11093) (by decide)
  have hs : (4 : FieldVal) + -3 = 1 := by norm_num
  have hradicand : powerRoot.found (-(((3 : FieldVal) ^ 2 * 3 + 7) * 4 + 3 ^ 2 * 3)) = true := by
    have h163 : -(((3 : FieldVal) ^ 2 * 3 + 7) * 4 + 3 ^ 2 * 3) = ((fieldPrime - 163 : ℕ) : FieldVal) := by
      rw [Nat.cast_sub (by decide), ZMod.natCast_self]
      norm_num
    rw [powerRoot.found_iff, h163]
    exact isSquare_natCast (r := 0x3289da54b5d50f456f21f9f1b42285ddf9b534190a4aae043bb2233c59c5f0b1) (by decide)
  have hone : powerRoot.found 1 = true := (powerRoot.found_iff 1).mpr ⟨1, (mul_one 1).symm⟩
  obtain ⟨v, hvs⟩ : ∃ v, findVS powerRoot 3 4 2 = some (v, 1) := by
    rw [findVS, if_neg (by decide)]
    simp only [hs, mul_one, hradicand]
    rw [if_neg one_ne_zero, if_neg (by decide), if_neg (fun h => absurd h.1 (by decide))]
    exact ⟨_, rfl⟩
  obtain ⟨t, ht⟩ := exists_of_findVS powerRoot hvs hone
  exact ⟨t, ht, (xSwiftEC_xSwiftECInv powerRoot).2 3 4 t 2 three_ne_zero hx ht⟩

end NogoCommons.Nogoec.Ellswift
