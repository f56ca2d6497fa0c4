import NogoCommons.Nogoec.Secp256k1

/-!
# `nogoec` — scalars and points

What signing and deriving use of the package `secp256k1` besides the functions of `Secp256k1`, and what its documentation
says of scalars: they are numbers below the order of the group, set from up to 32 bytes.

The functions of `nogoec` itself that only put those of the package together are here too: `PubKey`, `ParseJacobian` and
`JacobianToByteSlice`.
-/

namespace NogoCommons.Nogoec
open Lib

/-- The package, with the functions that signing and deriving use. -/
structure Curve extends Secp256k1 where
  scalarIsZero : ModNScalar → Bool
  scalarIsOverHalfOrder : ModNScalar → Bool
  scalarSetInt : UInt32 → ModNScalar
  scalarAdd : ModNScalar → ModNScalar → ModNScalar
  scalarMul : ModNScalar → ModNScalar → ModNScalar
  /-- `==` on field values. -/
  fieldEq : FieldVal → FieldVal → Bool
  /-- The zero value of a point. -/
  infinityPoint : JacobianPoint
  /-- `==` on points. -/
  pointEq : JacobianPoint → JacobianPoint → Bool
  /-- `Y.Negate(1)` and `Y.Normalize()`. -/
  negateY : JacobianPoint → JacobianPoint
  newPublicKey : FieldVal → FieldVal → PublicKey
  publicKeyIsEqual : PublicKey → PublicKey → Bool
  /-- `NonceRFC6979(privKey, hash, extra, version, extraIterations)`. -/
  nonceRFC6979 : Bytes → Bytes → Bytes → Bytes → UInt32 → ModNScalar

namespace Curve
variable (pkg : Curve)

/-- The zero value of a scalar. -/
def scalarZero : pkg.ModNScalar := pkg.scalarSetInt 0

/-- The public key with the coordinates of a point. -/
def pointKey (p : pkg.JacobianPoint) : pkg.PublicKey := pkg.newPublicKey (pkg.pointX p) (pkg.pointY p)
def pubKey (key : pkg.ModNScalar) : pkg.PublicKey := pkg.pointKey (pkg.toAffine (pkg.scalarBaseMultNonConst key))

/-- The check for the point at infinity. -/
def isInfinity (p : pkg.JacobianPoint) : Bool :=
  (pkg.fieldIsZero (pkg.pointX p) && pkg.fieldIsZero (pkg.pointY p)) || pkg.fieldIsZero (pkg.pointZ p)

def parseJacobian (point : Bytes) : Except String pkg.JacobianPoint :=
  let len := point.length
  if len ≠ 33 then .error s!"invalid nonce: invalid length: {len}"
  else if point.head? = some 0 then .ok pkg.infinityPoint
  else do
    let noncePk ← pkg.parsePubKey point
    return pkg.asJacobian noncePk

def jacobianToByteSlice (point : pkg.JacobianPoint) : FixedBytes 33 :=
  if pkg.fieldEq (pkg.pointX point) (pkg.pointX pkg.infinityPoint) &&
      pkg.fieldEq (pkg.pointY point) (pkg.pointY pkg.infinityPoint) then FixedBytes.zero 33
  else pkg.serializeCompressed (pkg.pointKey (pkg.toAffine point))

/-- The numbers that scalars stand for. -/
structure Scalars where
  value : pkg.ModNScalar → Nat
  setByteSlice_value : ∀ b, b.length ≤ 32 → value (pkg.scalarSetByteSlice b).1 = beNat b % groupOrder
  setByteSlice_overflow : ∀ b, b.length ≤ 32 → ((pkg.scalarSetByteSlice b).2 = true ↔ groupOrder ≤ beNat b)
  isZero_iff : ∀ s, pkg.scalarIsZero s = true ↔ value s = 0
  isOverHalfOrder_iff : ∀ s, pkg.scalarIsOverHalfOrder s = true ↔ groupOrder / 2 < value s

end Curve

/-! ## The package over discrete logarithms -/

/-- The point with a first coordinate, in the half that the second coordinate says. -/
def logOfCoords (x y : Nat) : Fin groupOrder :=
  if y = 0 then scalarOf 0 else if y = 2 then scalarOf x else scalarOf (groupOrder - x)

/-- The package over discrete logarithms, with scalars that are set from the first 32 bytes. -/
def logPackage : Secp256k1 :=
  { discreteLogs with
    scalarSetByteSlice := fun b => (scalarOf (beNat (b.take 32)), decide (groupOrder ≤ beNat (b.take 32))) }

def logCurve : Curve where
  toSecp256k1 := logPackage
  scalarIsZero s := s.val == 0
  scalarIsOverHalfOrder s := decide (groupOrder / 2 < s.val)
  scalarSetInt k := scalarOf k.toNat
  scalarAdd s s' := scalarOf (s.val + s'.val)
  scalarMul s s' := scalarOf (s.val * s'.val)
  fieldEq := fun (r r' : Nat) => r == r'
  infinityPoint := scalarOf 0
  pointEq k k' := k.val == k'.val
  negateY k := scalarOf (groupOrder - k.val)
  newPublicKey := logOfCoords
  publicKeyIsEqual k k' := k.val == k'.val
  -- any function that avoids zero would do
  nonceRFC6979 _ _ _ _ iterations := scalarOf (iterations.toNat + 1)

def logCurve.scalars : logCurve.Scalars where
  value s := s.val
  setByteSlice_value b hb := by
    show beNat (b.take 32) % groupOrder = _
    rw [List.take_of_length_le hb]
  setByteSlice_overflow b hb := by
    show decide (groupOrder ≤ beNat (b.take 32)) = true ↔ _
    rw [List.take_of_length_le hb]
    exact decide_eq_true_iff
  isZero_iff _ := beq_iff_eq
  isOverHalfOrder_iff _ := decide_eq_true_iff

end NogoCommons.Nogoec
