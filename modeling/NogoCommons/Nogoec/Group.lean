import NogoCommons.Nogoec.Curve
import Mathlib.Data.ZMod.Basic
import Mathlib.Algebra.Module.Basic
import Mathlib.Tactic.Module

/-!
# `nogoec` — the group

What the documentation of `secp256k1` says about scalars, points and keys: the points are a group of which the scalars are
the multipliers, a point other than infinity is given by its first coordinate and the parity of its second, and the opposite
point has the same first coordinate and the other parity. All of it is in `Curve.Group`, over any order `n` and any group
`E` on which the numbers modulo `n` act.

A key that is written with its first coordinate alone stands for the one of the two opposite points whose second coordinate
is even, which is `evenPart`. It is the point times `parity`, and this is how every sign in the protocols is accounted for.
-/

namespace NogoCommons.Nogoec
open Lib

/-- What the package computes, in a group of order `n`. -/
structure Curve.Group (pkg : Curve) (n : ℕ) (E : Type) [AddCommGroup E] [Module (ZMod n) E] where
  order_pos : 0 < n
  order_le : n ≤ 2 ^ 256
  /-- The generator, which only a multiple of the order takes to infinity. -/
  G : E
  smul_G : ∀ a : ZMod n, a • G = 0 → a = 0
  /-- The first coordinate of a point, and whether the second is odd. -/
  xCoord : E → pkg.FieldVal
  yOdd : E → Bool
  xCoord_neg : ∀ P, xCoord (-P) = xCoord P
  yOdd_neg : ∀ P, P ≠ 0 → yOdd (-P) = !yOdd P
  fieldNormalize_xCoord : ∀ P, pkg.fieldNormalize (xCoord P) = xCoord P
  fieldEquals_self : ∀ x, pkg.fieldEquals x x = true
  -- scalars
  scalar : pkg.ModNScalar → ZMod n
  scalar_setInt : ∀ k, scalar (pkg.scalarSetInt k) = (k.toNat : ZMod n)
  scalar_setByteSlice : ∀ b, scalar (pkg.scalarSetByteSlice b).1 = (beNat (b.take 32) : ZMod n)
  scalar_overflow : ∀ b, (pkg.scalarSetByteSlice b).2 = true ↔ n ≤ beNat (b.take 32)
  scalar_putBytes : ∀ s, (pkg.scalarPutBytesUnchecked s).bytes = beBytes 32 (scalar s).val
  scalar_isZero : ∀ s, pkg.scalarIsZero s = true ↔ scalar s = 0
  scalar_negate : ∀ s, scalar (pkg.scalarNegate s) = -scalar s
  scalar_add : ∀ s s', scalar (pkg.scalarAdd s s') = scalar s + scalar s'
  scalar_mul : ∀ s s', scalar (pkg.scalarMul s s') = scalar s * scalar s'
  scalar_nonce : ∀ privKey hash extra version i, scalar (pkg.nonceRFC6979 privKey hash extra version i) ≠ 0
  -- points
  point : pkg.JacobianPoint → E
  point_infinity : point pkg.infinityPoint = 0
  point_base : ∀ s, point (pkg.scalarBaseMultNonConst s) = scalar s • G
  point_mult : ∀ s p, point (pkg.scalarMultNonConst s p) = scalar s • point p
  point_add : ∀ p q, point (pkg.addNonConst p q) = point p + point q
  point_toAffine : ∀ p, point (pkg.toAffine p) = point p
  point_negateY : ∀ p, point (pkg.negateY (pkg.toAffine p)) = -point p
  /-- A point has one affine form. -/
  toAffine_eq : ∀ p q, point p = point q → pkg.toAffine p = pkg.toAffine q
  pointEq_iff : ∀ p q, pkg.pointEq p q = true ↔ p = q
  isInfinity_iff : ∀ p, pkg.isInfinity p = true ↔ point p = 0
  affine_isInfinity_iff : ∀ p, (pkg.fieldEq (pkg.pointX (pkg.toAffine p)) (pkg.pointX pkg.infinityPoint) &&
    pkg.fieldEq (pkg.pointY (pkg.toAffine p)) (pkg.pointY pkg.infinityPoint)) = true ↔ point p = 0
  pointX_toAffine : ∀ p, point p ≠ 0 → pkg.pointX (pkg.toAffine p) = xCoord (point p)
  pointY_toAffine : ∀ p, point p ≠ 0 → pkg.fieldIsOdd (pkg.pointY (pkg.toAffine p)) = yOdd (point p)
  -- public keys
  key : pkg.PublicKey → E
  key_pointKey : ∀ p, point p ≠ 0 → key (pkg.pointKey (pkg.toAffine p)) = point p
  point_asJacobian : ∀ K, point (pkg.asJacobian K) = key K
  isOnCurve_key : ∀ K, key K ≠ 0 → pkg.isOnCurve K = true
  publicKeyIsEqual_iff : ∀ K K', pkg.publicKeyIsEqual K K' = true ↔ key K = key K'
  serializeCompressed_key : ∀ K, key K ≠ 0 → (pkg.serializeCompressed K).bytes =
    (if yOdd (key K) then 3 else 2) :: (pkg.fieldPutBytesUnchecked (xCoord (key K))).bytes
  parsePubKey_compressed : ∀ P, P ≠ 0 → ∃ K, key K = P ∧
    pkg.parsePubKey ((if yOdd P then 3 else 2) :: (pkg.fieldPutBytesUnchecked (xCoord P)).bytes) = .ok K

namespace Curve.Group
variable {pkg : Curve} {n : ℕ} {E : Type} [AddCommGroup E] [Module (ZMod n) E] (doc : pkg.Group n E)

/-- The bytes of the first coordinate. -/
def xBytes (P : E) : Bytes := (pkg.fieldPutBytesUnchecked (doc.xCoord P)).bytes

/-- The compressed form of a point. -/
def compressed (P : E) : Bytes := (if doc.yOdd P then 3 else 2) :: doc.xBytes P

/-- The sign that makes the second coordinate even. -/
def parity (P : E) : ZMod n := if doc.yOdd P then -1 else 1

/-- The point with the same first coordinate whose second coordinate is even. -/
def evenPart (P : E) : E := doc.parity P • P
theorem length_xBytes (P : E) : (doc.xBytes P).length = 32 := FixedBytes.bytes_length _

variable {P : E}

theorem evenPart_of_odd (h : doc.yOdd P = true) : doc.evenPart P = -P := by
  rw [evenPart, parity, if_pos h, neg_smul, one_smul]

theorem evenPart_of_even (h : doc.yOdd P = false) : doc.evenPart P = P := by
  rw [evenPart, parity, if_neg (by simp [h]), one_smul]

/-- What holds of a point and of its opposite holds of its even part. -/
theorem evenPart_cases (P : E) : doc.evenPart P = P ∧ doc.yOdd P = false ∨ doc.evenPart P = -P ∧ doc.yOdd P = true := by
  cases h : doc.yOdd P with
  | false => exact .inl ⟨doc.evenPart_of_even h, rfl⟩
  | true => exact .inr ⟨doc.evenPart_of_odd h, rfl⟩

theorem evenPart_ne_zero (h : P ≠ 0) : doc.evenPart P ≠ 0 := by
  rcases doc.evenPart_cases P with ⟨hP, -⟩ | ⟨hP, -⟩
  · rwa [hP]
  · rw [hP]
    exact neg_ne_zero.mpr h

theorem xCoord_evenPart (P : E) : doc.xCoord (doc.evenPart P) = doc.xCoord P := by
  rcases doc.evenPart_cases P with ⟨hP, -⟩ | ⟨hP, -⟩
  · rw [hP]
  · rw [hP, doc.xCoord_neg]

theorem xBytes_evenPart (P : E) : doc.xBytes (doc.evenPart P) = doc.xBytes P := by
  rw [xBytes, doc.xCoord_evenPart, xBytes]

theorem yOdd_evenPart (h : P ≠ 0) : doc.yOdd (doc.evenPart P) = false := by
  rcases doc.evenPart_cases P with ⟨hP, hodd⟩ | ⟨hP, hodd⟩
  · rw [hP, hodd]
  · rw [hP, doc.yOdd_neg P h, hodd]
    rfl

theorem smul_G_ne_zero {a : ZMod n} (h : a ≠ 0) : a • doc.G ≠ 0 := fun h' => h (doc.smul_G a h')

/-- The key of a number. -/
theorem key_pubKey {d : pkg.ModNScalar} (h : doc.scalar d ≠ 0) : doc.key (pkg.pubKey d) = doc.scalar d • doc.G := by
  have hbase := doc.point_base d
  rw [Curve.pubKey, doc.key_pointKey _ (by rw [hbase]; exact doc.smul_G_ne_zero h), hbase]

theorem key_pubKey_ne_zero {d : pkg.ModNScalar} (h : doc.scalar d ≠ 0) : doc.key (pkg.pubKey d) ≠ 0 := by
  rw [doc.key_pubKey h]
  exact doc.smul_G_ne_zero h

theorem serializeCompressed_eq {K : pkg.PublicKey} (h : doc.key K ≠ 0) :
    (pkg.serializeCompressed K).bytes = doc.compressed (doc.key K) := doc.serializeCompressed_key K h

/-- The two bytes that a compressed key starts with. -/
theorem head?_serializeCompressed {K : pkg.PublicKey} (h : doc.key K ≠ 0) :
    (pkg.serializeCompressed K).bytes.head? = some (if doc.yOdd (doc.key K) then 3 else 2) := by
  rw [doc.serializeCompressed_eq h]
  rfl

/-- A compressed key is read back, as far as the group is concerned. -/
theorem parsePubKey_eq (h : P ≠ 0) : ∃ K, pkg.parsePubKey (doc.compressed P) = .ok K ∧ doc.key K = P := by
  obtain ⟨K, hK, hparse⟩ := doc.parsePubKey_compressed P h
  exact ⟨K, hparse, hK⟩

theorem compressed_evenPart (h : P ≠ 0) : doc.compressed (doc.evenPart P) = 2 :: doc.xBytes P := by
  rw [compressed, doc.yOdd_evenPart h, doc.xBytes_evenPart]
  rfl

end Curve.Group

/-! ## The group of discrete logarithms -/

namespace logCurve

instance neZero_groupOrder : NeZero groupOrder := ⟨groupOrder_pos.ne'⟩

/-- A number below the order as an element of the group. -/
def pointOf (k : Fin groupOrder) : ZMod groupOrder := (k.val : ZMod groupOrder)
def logOf (P : ZMod groupOrder) : Fin groupOrder := ⟨P.val, ZMod.val_lt P⟩
theorem pointOf_scalarOf (k : Nat) : pointOf (scalarOf k) = (k : ZMod groupOrder) := ZMod.natCast_mod k groupOrder
theorem val_pointOf (k : Fin groupOrder) : (pointOf k).val = k.val := ZMod.val_cast_of_lt k.isLt
theorem logOf_pointOf (k : Fin groupOrder) : logOf (pointOf k) = k := Fin.ext (val_pointOf k)

variable {k : Fin groupOrder} {P : ZMod groupOrder}

theorem pointOf_eq_zero : pointOf k = 0 ↔ k.val = 0 := by
  rw [← val_pointOf, ZMod.val_eq_zero]

theorem pointOf_injective {k' : Fin groupOrder} (h : pointOf k = pointOf k') : k = k' := by
  rw [← logOf_pointOf k, h, logOf_pointOf]

section
variable (k : Fin groupOrder)

theorem pointOf_neg : pointOf (scalarOf (groupOrder - k.val)) = -pointOf k := by
  rw [pointOf_scalarOf, Nat.cast_sub k.isLt.le, ZMod.natCast_self, zero_sub]
  rfl

theorem val_logOf_neg (h : P ≠ 0) : (logOf (-P)).val = groupOrder - (logOf P).val := by
  show (-P).val = groupOrder - P.val
  rw [ZMod.neg_val, if_neg h]

theorem logX_neg (P : ZMod groupOrder) : logX (logOf (-P)) = logX (logOf P) := by
  by_cases h : P = 0
  · rw [h, neg_zero]
  · have hlt := (logOf P).isLt
    rw [logX, logX, val_logOf_neg h, Nat.sub_sub_self hlt.le, Nat.min_comm]

theorem groupOrder_odd : groupOrder % 2 = 1 := by decide

theorem logY_odd_neg (h : P ≠ 0) : (logY (logOf (-P)) % 2 == 1) = !(logY (logOf P) % 2 == 1) := by
  have hlt := (logOf P).isLt
  have hpos : (logOf P).val ≠ 0 := fun h0 => h ((ZMod.val_eq_zero P).mp h0)
  have hodd := groupOrder_odd
  have hne : groupOrder - (logOf P).val ≠ 0 := by omega
  rw [logY, logY, val_logOf_neg h, if_neg hne, if_neg hpos]
  by_cases hle : (logOf P).val ≤ groupOrder / 2
  · rw [if_pos hle, if_neg (by omega)]
    rfl
  · rw [if_neg hle, if_pos (by omega)]
    rfl

theorem logX_lt : logX k < 2 ^ 256 :=
  (Nat.min_le_left _ _).trans_lt (k.isLt.trans (by decide))

theorem logX_lt_fieldPrime : logX k < fieldPrime :=
  (Nat.min_le_left _ _).trans_lt (k.isLt.trans (by decide))

theorem logOfCoords_log : logOfCoords (logX k) (logY k) = k := by
  have hlt := k.isLt
  have hodd := groupOrder_odd
  apply Fin.ext
  rw [logOfCoords, logX, logY]
  by_cases h0 : k.val = 0
  · rw [if_pos h0, if_pos rfl, h0]
    exact Nat.zero_mod _
  · rw [if_neg h0]
    by_cases hle : k.val ≤ groupOrder / 2
    · rw [if_pos hle, if_neg (by decide), if_pos rfl, Nat.min_eq_left (by omega)]
      exact Nat.mod_eq_of_lt hlt
    · rw [if_neg hle, if_neg (by decide), if_neg (by decide), Nat.min_eq_right (by omega), Nat.sub_sub_self hlt.le]
      exact Nat.mod_eq_of_lt hlt

theorem logParsePubKey_compressed (h : P ≠ 0) :
    logParsePubKey ((if logY (logOf P) % 2 == 1 then 3 else 2) :: (fixed32 (logX (logOf P))).bytes) = .ok (logOf P) := by
  have hlt := (logOf P).isLt
  have hpos : (logOf P).val ≠ 0 := fun h0 => h ((ZMod.val_eq_zero P).mp h0)
  have hodd := groupOrder_odd
  have hx : beNat (fixed32 (logX (logOf P))).bytes = logX (logOf P) := beNat_beBytes_of_lt (logX_lt _)
  rw [logParsePubKey, List.drop_one, List.tail_cons, hx, List.head?_cons, logX, logY, if_neg hpos]
  by_cases hle : (logOf P).val ≤ groupOrder / 2
  · rw [if_pos hle, Nat.min_eq_left (by omega), if_neg (by omega), if_pos (by decide)]
    exact congrArg Except.ok (Fin.ext (Nat.mod_eq_of_lt hlt))
  · rw [if_neg hle, Nat.min_eq_right (by omega), if_neg (by omega), if_neg (by decide), Nat.sub_sub_self hlt.le]
    exact congrArg Except.ok (Fin.ext (Nat.mod_eq_of_lt hlt))

theorem logSerializeCompressed_eq : (logSerializeCompressed k).bytes =
    (if logY k % 2 == 1 then 3 else 2) :: beBytes 32 (logX k) := by
  have hcases : logY k = 0 ∨ logY k = 2 ∨ logY k = 1 := by
    rw [logY]
    split_ifs
    · exact .inl rfl
    · exact .inr (.inl rfl)
    · exact .inr (.inr rfl)
  have hhead : (if logY k = 1 then 3 else 2) = (if logY k % 2 == 1 then (3 : UInt8) else 2) := by
    rcases hcases with h | h | h <;> rw [h] <;> rfl
  rw [← hhead]
  rfl

theorem logSerializeCompressed_pointOf : (logSerializeCompressed k).bytes =
    (if logY (logOf (pointOf k)) % 2 == 1 then 3 else 2) :: (fixed32 (logX (logOf (pointOf k)))).bytes := by
  rw [logOf_pointOf]
  exact logSerializeCompressed_eq k

theorem logX_eq_zero : logX k = 0 ↔ k.val = 0 := by
  have hlt := k.isLt
  rw [logX]
  omega

theorem logY_eq_zero : logY k = 0 ↔ k.val = 0 := by
  rw [logY]
  split_ifs with h0 hle
  · exact iff_of_true rfl h0
  · exact iff_of_false (by decide) h0
  · exact iff_of_false (by decide) h0

theorem coords_eq_zero : (logX k == 0 && logY k == 0) = true ↔ pointOf k = 0 := by
  rw [Bool.and_eq_true, beq_iff_eq, beq_iff_eq, logX_eq_zero, logY_eq_zero, and_self, pointOf_eq_zero]

theorem coords_or_z_eq_zero :
    ((logX k == 0 && logY k == 0) || (if k.val = 0 then 0 else 1) == 0) = true ↔ pointOf k = 0 := by
  rw [Bool.or_eq_true, coords_eq_zero, pointOf_eq_zero]
  split_ifs with h0
  · exact iff_of_true (.inl h0) h0
  · constructor
    · rintro (h | h)
      · exact h
      · cases h
    · exact .inl

theorem val_beq_zero : (k.val == 0) = true ↔ pointOf k = 0 := by
  rw [beq_iff_eq, pointOf_eq_zero]

end

theorem val_beq_iff (k k' : Fin groupOrder) : (k.val == k'.val) = true ↔ k = k' := by
  rw [beq_iff_eq, Fin.ext_iff]

theorem val_beq_pointOf (k k' : Fin groupOrder) : (k.val == k'.val) = true ↔ pointOf k = pointOf k' := by
  rw [val_beq_iff]
  exact ⟨congrArg pointOf, pointOf_injective⟩

theorem val_bne_zero (h : pointOf k ≠ 0) : (k.val != 0) = true :=
  bne_iff_ne.mpr fun h0 => h (pointOf_eq_zero.mpr h0)

theorem pointOf_succ_ne_zero (i : UInt32) : pointOf (scalarOf (i.toNat + 1)) ≠ 0 := by
  have hlt : i.toNat + 1 < groupOrder := Nat.lt_of_le_of_lt i.toNat_lt (by decide)
  rw [ne_eq, pointOf_eq_zero]
  show (i.toNat + 1) % groupOrder ≠ 0
  rw [Nat.mod_eq_of_lt hlt]
  exact Nat.add_one_ne_zero _

theorem pointOf_add (k k' : Fin groupOrder) : pointOf (scalarOf (k.val + k'.val)) = pointOf k + pointOf k' := by
  rw [pointOf_scalarOf, Nat.cast_add]
  rfl

theorem pointOf_mul (k k' : Fin groupOrder) : pointOf (scalarOf (k.val * k'.val)) = pointOf k * pointOf k' := by
  rw [pointOf_scalarOf, Nat.cast_mul]
  rfl

theorem parsePubKey_eq_log : logCurve.parsePubKey = logParsePubKey := rfl
theorem fieldPutBytesUnchecked_log (x : Nat) : logCurve.fieldPutBytesUnchecked x = fixed32 x := rfl

theorem parsePubKey_log (h : P ≠ 0) : logCurve.parsePubKey ((if logY (logOf P) % 2 == 1 then 3 else 2) ::
      (logCurve.fieldPutBytesUnchecked (logX (logOf P))).bytes) = .ok (logOf P) := by
  rw [parsePubKey_eq_log, fieldPutBytesUnchecked_log]
  exact logParsePubKey_compressed h

def group : logCurve.Group groupOrder (ZMod groupOrder) where
  order_pos := groupOrder_pos
  order_le := by decide
  G := 1
  smul_G a h := by rwa [smul_eq_mul, mul_one] at h
  xCoord P := logX (logOf P)
  yOdd P := logY (logOf P) % 2 == 1
  xCoord_neg := logX_neg
  yOdd_neg _ h := logY_odd_neg h
  fieldNormalize_xCoord P := Nat.mod_eq_of_lt (logX_lt_fieldPrime (logOf P))
  fieldEquals_self (x : Nat) := beq_self_eq_true x
  scalar := pointOf
  scalar_setInt k := pointOf_scalarOf k.toNat
  scalar_setByteSlice b := pointOf_scalarOf (beNat (b.take 32))
  scalar_overflow _ := decide_eq_true_iff
  scalar_putBytes s := congrArg (beBytes 32) (val_pointOf s).symm
  scalar_isZero := val_beq_zero
  scalar_negate := pointOf_neg
  scalar_add := pointOf_add
  scalar_mul := pointOf_mul
  scalar_nonce _ _ _ _ i := pointOf_succ_ne_zero i
  point := pointOf
  point_infinity := (pointOf_scalarOf 0).trans Nat.cast_zero
  point_base s := (mul_one (pointOf s)).symm
  point_mult := pointOf_mul
  point_add := pointOf_add
  point_toAffine _ := rfl
  point_negateY := pointOf_neg
  toAffine_eq _ _ := pointOf_injective
  pointEq_iff := val_beq_iff
  isInfinity_iff := coords_or_z_eq_zero
  affine_isInfinity_iff := coords_eq_zero
  pointX_toAffine p _ := congrArg logX (logOf_pointOf p).symm
  pointY_toAffine p _ := congrArg (fun k => logY k % 2 == 1) (logOf_pointOf p).symm
  key := pointOf
  key_pointKey p _ := congrArg pointOf (logOfCoords_log p)
  point_asJacobian _ := rfl
  isOnCurve_key _ := val_bne_zero
  publicKeyIsEqual_iff := val_beq_pointOf
  serializeCompressed_key K _ := logSerializeCompressed_pointOf K
  parsePubKey_compressed P h := ⟨logOf P, ZMod.natCast_zmod_val P, parsePubKey_log h⟩

end logCurve
end NogoCommons.Nogoec
