import NogoCommons.Lib.Bytes

/-!
# `nogoec` — the curve package

`nogoec` gives names to the types of the package `secp256k1`, which is not part of this repository. Its functions are the
fields of `Secp256k1`, and what its documentation says of them is in structures over it: `Secp256k1.Numbers` says which
numbers the bytes of field values and scalars stand for.

A field value is set from bytes without being reduced, and the caller is told whether it should have been; a scalar is
reduced and the caller is told so. In both cases it is the caller who has to look.
-/

namespace NogoCommons.Nogoec
open Lib

/-- The prime of the field. -/
def fieldPrime : Nat := 0xfffffffffffffffffffffffffffffffffffffffffffffffffffffffefffffc2f

/-- The order of the group. -/
def groupOrder : Nat := 0xfffffffffffffffffffffffffffffffebaaedce6af48a03bbfd25e8cd0364141

/-- The functions of the package that are used. -/
structure Secp256k1 where
  FieldVal : Type
  ModNScalar : Type
  JacobianPoint : Type
  PublicKey : Type
  /-- The value, and whether it is not below the prime. -/
  fieldSetByteSlice : Bytes → FieldVal × Bool
  fieldNormalize : FieldVal → FieldVal
  fieldPutBytesUnchecked : FieldVal → FixedBytes 32
  fieldEquals : FieldVal → FieldVal → Bool
  fieldIsZero : FieldVal → Bool
  fieldIsOdd : FieldVal → Bool
  /-- The value, and whether it was not below the order. -/
  scalarSetByteSlice : Bytes → ModNScalar × Bool
  scalarPutBytesUnchecked : ModNScalar → FixedBytes 32
  scalarNegate : ModNScalar → ModNScalar
  parsePubKey : Bytes → Except String PublicKey
  serializeCompressed : PublicKey → FixedBytes 33
  serializeUncompressed : PublicKey → FixedBytes 65
  isOnCurve : PublicKey → Bool
  asJacobian : PublicKey → JacobianPoint
  scalarBaseMultNonConst : ModNScalar → JacobianPoint
  scalarMultNonConst : ModNScalar → JacobianPoint → JacobianPoint
  addNonConst : JacobianPoint → JacobianPoint → JacobianPoint
  toAffine : JacobianPoint → JacobianPoint
  pointX : JacobianPoint → FieldVal
  pointY : JacobianPoint → FieldVal
  pointZ : JacobianPoint → FieldVal

/-- The numbers that field values and scalars stand for. -/
structure Secp256k1.Numbers (pkg : Secp256k1) where
  fieldValue : pkg.FieldVal → Nat
  scalarValue : pkg.ModNScalar → Nat
  fieldSetByteSlice_value : ∀ b, b.length = 32 → fieldValue (pkg.fieldSetByteSlice b).1 = beNat b
  fieldSetByteSlice_overflow : ∀ b, b.length = 32 →
    ((pkg.fieldSetByteSlice b).2 = true ↔ fieldPrime ≤ beNat b)
  fieldNormalize_value : ∀ r, fieldValue (pkg.fieldNormalize r) = fieldValue r % fieldPrime
  fieldPutBytesUnchecked_eq : ∀ r, fieldValue r < fieldPrime →
    (pkg.fieldPutBytesUnchecked r).bytes = beBytes 32 (fieldValue r)
  scalarSetByteSlice_value : ∀ b, b.length = 32 → scalarValue (pkg.scalarSetByteSlice b).1 = beNat b % groupOrder
  scalarPutBytesUnchecked_eq : ∀ s, (pkg.scalarPutBytesUnchecked s).bytes = beBytes 32 (scalarValue s)
  scalarValue_injective : Function.Injective scalarValue

/-! ## The package over discrete logarithms

The points are the numbers below the order, which is the group that the curve is, with the generator for 1. A point and its
opposite have the same first coordinate; the greater of the two numbers has the odd second one. -/

theorem groupOrder_pos : 0 < groupOrder := by decide
def scalarOf (k : Nat) : Fin groupOrder := ⟨k % groupOrder, Nat.mod_lt _ groupOrder_pos⟩
def fixed32 (v : Nat) : FixedBytes 32 := ⟨beBytes 32 v, beBytes_length 32 v⟩
def logX (k : Fin groupOrder) : Nat := min k.val (groupOrder - k.val)
def logY (k : Fin groupOrder) : Nat := if k.val = 0 then 0 else if k.val ≤ groupOrder / 2 then 2 else 1

def logParsePubKey (b : Bytes) : Except String (Fin groupOrder) :=
  let x := beNat (b.drop 1)
  if x = 0 ∨ groupOrder / 2 < x then .error "invalid public key"
  else if b.head? = some 2 then .ok (scalarOf x)
  else .ok (scalarOf (groupOrder - x))

def logSerializeCompressed (k : Fin groupOrder) : FixedBytes 33 where
  bytes := (if logY k = 1 then 3 else 2) :: beBytes 32 (logX k)
  length_eq := congrArg Nat.succ (beBytes_length 32 _)

def logSerializeUncompressed (k : Fin groupOrder) : FixedBytes 65 where
  bytes := 4 :: (beBytes 32 (logX k) ++ beBytes 32 (logY k))
  length_eq := by rw [List.length_cons, List.length_append, beBytes_length, beBytes_length]

def discreteLogs : Secp256k1 where
  FieldVal := Nat
  ModNScalar := Fin groupOrder
  JacobianPoint := Fin groupOrder
  PublicKey := Fin groupOrder
  fieldSetByteSlice b := (beNat b, decide (fieldPrime ≤ beNat b))
  fieldNormalize r := r % fieldPrime
  fieldPutBytesUnchecked r := fixed32 r
  fieldEquals r r' := r == r'
  fieldIsZero r := r == 0
  fieldIsOdd r := r % 2 == 1
  scalarSetByteSlice b := (scalarOf (beNat b), decide (groupOrder ≤ beNat b))
  scalarPutBytesUnchecked s := fixed32 s.val
  scalarNegate s := scalarOf (groupOrder - s.val)
  parsePubKey := logParsePubKey
  serializeCompressed := logSerializeCompressed
  serializeUncompressed := logSerializeUncompressed
  isOnCurve k := k.val != 0
  asJacobian k := k
  scalarBaseMultNonConst s := s
  scalarMultNonConst s k := scalarOf (s.val * k.val)
  addNonConst k k' := scalarOf (k.val + k'.val)
  toAffine k := k
  pointX := logX
  pointY := logY
  pointZ k := if k.val = 0 then 0 else 1

def discreteLogs.numbers : discreteLogs.Numbers where
  fieldValue r := r
  scalarValue s := s.val
  fieldSetByteSlice_value _ _ := rfl
  fieldSetByteSlice_overflow _ _ := decide_eq_true_iff
  fieldNormalize_value _ := rfl
  fieldPutBytesUnchecked_eq _ _ := rfl
  scalarSetByteSlice_value _ _ := rfl
  scalarPutBytesUnchecked_eq _ := rfl
  scalarValue_injective := Fin.val_injective

end NogoCommons.Nogoec
