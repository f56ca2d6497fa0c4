import NogoCommons.Nogoec.Secp256k1

/-!
# `nogoec/schnorr` — signatures

A signature is 64 bytes, a field value and a scalar. `ParseSignature` looks at what the field value's setter reports and
not at what the scalar's setter does, so that a scalar which is not below the order of the group is accepted and reduced.
So the bytes that parse are those that `Serialize` gives back, but for these (`canonical_iff`), and every signature whose
scalar is small enough has a second spelling, which `Verify` accepts with the first (`accepts_addOrder`).
-/

namespace NogoCommons.Nogoec.Schnorr
open Lib List

def signatureSize : Nat := 64
def scalarSize : Nat := 32
def pubKeyBytesLen : Nat := 32
def tagBIP0340Challenge : Bytes := ascii "BIP0340/challenge"

inductive ErrorKind
  | sigTooShort | sigTooLong | sigRTooBig | invalidHashLen | pubKeyNotOnCurve | sigRNotOnCurve | sigRYIsOdd
  | unequalRValues
deriving DecidableEq, Repr

inductive SchnorrError
  | signature (kind : ErrorKind) (description : String)
  | pubKey (description : String)
deriving DecidableEq, Repr

variable (pkg : Secp256k1)

structure Signature where
  r : pkg.FieldVal
  s : pkg.ModNScalar

variable {pkg}

def newSignature (r : pkg.FieldVal) (s : pkg.ModNScalar) : Signature pkg := ⟨pkg.fieldNormalize r, s⟩

def Signature.serialize (sig : Signature pkg) : Bytes :=
  (pkg.fieldPutBytesUnchecked sig.r).bytes ++ (pkg.scalarPutBytesUnchecked sig.s).bytes

variable (pkg) in
def parseSignature (sig : Bytes) : Except SchnorrError (Signature pkg) :=
  let sigLen := sig.length
  if sigLen < signatureSize then
    .error (.signature .sigTooShort s!"malformed signature: too short: {sigLen} < {signatureSize}")
  else if signatureSize < sigLen then
    .error (.signature .sigTooLong s!"malformed signature: too long: {sigLen} > {signatureSize}")
  else
    let r := pkg.fieldSetByteSlice (sig.take 32)
    if r.2 then .error (.signature .sigRTooBig "invalid signature: r >= field prime")
    else
      -- what the setter reports is not looked at
      let s := pkg.scalarSetByteSlice ((sig.drop 32).take 32)
      .ok (newSignature r.1 s.1)

/-! ## Verification -/

variable (pkg) in
/-- `ParsePubKey`; `none` is the nil slice. -/
def parsePubKey : Option Bytes → Except SchnorrError pkg.PublicKey
  | none => .error (.pubKey "nil pubkey byte string")
  | some pubKeyStr =>
    let len := pubKeyStr.length
    if len ≠ pubKeyBytesLen then
      .error (.pubKey s!"bad pubkey byte string size (want {pubKeyBytesLen}, have {len})")
    else
      -- the compressed form of the point with the even coordinate
      match pkg.parsePubKey (2 :: pubKeyStr) with
      | .error e => .error (.pubKey e)
      | .ok pubKey => .ok pubKey

def serializePubKey (pub : pkg.PublicKey) : Bytes := (pkg.serializeCompressed pub).bytes.drop 1

/-- `schnorrVerify`, for any tagged hash. -/
def schnorrVerify (taggedHash : Bytes → List Bytes → FixedBytes 32) (sig : Signature pkg) (hash pubKeyBytes : Bytes) :
    Except SchnorrError Unit :=
  let len := hash.length
  if len ≠ scalarSize then
    .error (.signature .invalidHashLen s!"wrong size for message (got {len}, want {scalarSize})")
  else
    match parsePubKey pkg (some pubKeyBytes) with
    | .error e => .error e
    | .ok pubKey =>
      if !pkg.isOnCurve pubKey then .error (.signature .pubKeyNotOnCurve "pubkey point is not on curve")
      else
        let rBytes := (pkg.fieldPutBytesUnchecked sig.r).bytes
        let pBytes := serializePubKey pubKey
        let commitment := taggedHash tagBIP0340Challenge [rBytes, pBytes, hash]
        let e := pkg.scalarNegate (pkg.scalarSetByteSlice commitment.bytes).1
        let P := pkg.asJacobian pubKey
        let R := pkg.addNonConst (pkg.scalarBaseMultNonConst sig.s) (pkg.scalarMultNonConst e P)
        if (pkg.fieldIsZero (pkg.pointX R) && pkg.fieldIsZero (pkg.pointY R)) || pkg.fieldIsZero (pkg.pointZ R) then
          .error (.signature .sigRNotOnCurve "calculated R point is the point at infinity")
        else
          let R := pkg.toAffine R
          if pkg.fieldIsOdd (pkg.pointY R) then .error (.signature .sigRYIsOdd "calculated R y-value is odd")
          else if !pkg.fieldEquals sig.r (pkg.pointX R) then
            .error (.signature .unequalRValues "calculated R point was not given R")
          else .ok ()

def Signature.verify (taggedHash : Bytes → List Bytes → FixedBytes 32) (sig : Signature pkg) (hash : Bytes)
    (pubKey : pkg.PublicKey) : Bool :=
  match schnorrVerify taggedHash sig hash (serializePubKey pubKey) with
  | .ok _ => true
  | .error _ => false

variable (pkg) in
/-- The bytes are a signature of the hash under the key. -/
def accepts (taggedHash : Bytes → List Bytes → FixedBytes 32) (hash : Bytes) (pubKey : pkg.PublicKey) (b : Bytes) : Bool :=
  match parseSignature pkg b with
  | .ok sig => sig.verify taggedHash hash pubKey
  | .error _ => false

/-! ## The bytes of a signature -/

variable {b : Bytes}

theorem parseSignature_eq_ok (doc : pkg.Numbers) {sig : Signature pkg} :
    parseSignature pkg b = .ok sig ↔ b.length = 64 ∧ beNat (b.take 32) < fieldPrime ∧
      sig = newSignature (pkg.fieldSetByteSlice (b.take 32)).1 (pkg.scalarSetByteSlice (b.drop 32)).1 := by
  rw [parseSignature]
  by_cases hlen : b.length = 64
  · have htake : (b.take 32).length = 32 := length_take_of_le (by omega)
    have hdrop : (b.drop 32).take 32 = b.drop 32 := take_of_length_le (by rw [length_drop]; omega)
    have hover := doc.fieldSetByteSlice_overflow _ htake
    rw [if_neg (by rw [hlen]; decide), if_neg (by rw [hlen]; decide), hdrop]
    dsimp only
    split_ifs with hr
    · constructor
      · intro h
        cases h
      · rintro ⟨-, hlt, -⟩
        exact absurd (hover.mp hr) (Nat.not_le.mpr hlt)
    · constructor
      · intro h
        exact ⟨hlen, Nat.not_le.mp (fun hle => hr (hover.mpr hle)), (Except.ok.inj h).symm⟩
      · rintro ⟨-, -, rfl⟩
        rfl
  · constructor
    · intro h
      rcases Nat.lt_or_gt_of_ne hlen with hlt | hgt
      · rw [if_pos (show b.length < signatureSize from hlt)] at h
        cases h
      · rw [if_neg (show ¬ b.length < signatureSize from hgt.not_gt), if_pos (show signatureSize < b.length from hgt)] at h
        cases h
    · rintro ⟨h, -⟩
      exact absurd h hlen

/-- What `Serialize` gives for bytes that parse: the scalar comes back reduced. -/
theorem serialize_parsed (doc : pkg.Numbers) (hlen : b.length = 64) (hr : beNat (b.take 32) < fieldPrime) :
    (newSignature (pkg.fieldSetByteSlice (b.take 32)).1 (pkg.scalarSetByteSlice (b.drop 32)).1).serialize =
      b.take 32 ++ beBytes 32 (beNat (b.drop 32) % groupOrder) := by
  have htake : (b.take 32).length = 32 := length_take_of_le (by omega)
  have hdrop : (b.drop 32).length = 32 := by rw [length_drop]; omega
  have hnorm : doc.fieldValue (pkg.fieldNormalize (pkg.fieldSetByteSlice (b.take 32)).1) = beNat (b.take 32) := by
    rw [doc.fieldNormalize_value, doc.fieldSetByteSlice_value _ htake, Nat.mod_eq_of_lt hr]
  have hbytes : beBytes 32 (beNat (b.take 32)) = b.take 32 := by
    have hself := beBytes_beNat (b.take 32)
    rwa [htake] at hself
  rw [Signature.serialize, newSignature, doc.fieldPutBytesUnchecked_eq _ (by rw [hnorm]; exact hr), hnorm, hbytes,
    doc.scalarPutBytesUnchecked_eq, doc.scalarSetByteSlice_value _ hdrop]

/-- The bytes that parse although the scalar is not below the order. -/
def Overflows (b : Bytes) : Prop :=
  b.length = 64 ∧ beNat (b.take 32) < fieldPrime ∧ groupOrder ≤ beNat (b.drop 32)

variable (pkg) in
/-- If the bytes parse, both numbers are in their ranges and the bytes are those of the result. -/
def Canonical (b : Bytes) : Prop :=
  ∀ sig, parseSignature pkg b = .ok sig →
    sig.serialize = b ∧ beNat (b.take 32) < fieldPrime ∧ beNat (b.drop 32) < groupOrder

/-- The bytes that parse are canonical unless the scalar overflows, and two that do not overflow are not the same
signature. -/
theorem canonical_iff (doc : pkg.Numbers) : (∀ b, Canonical pkg b ↔ ¬ Overflows b) ∧
      ∀ b b' sig, parseSignature pkg b = .ok sig → parseSignature pkg b' = .ok sig →
        ¬ Overflows b → ¬ Overflows b' → b = b' := by
  have hcanonical : ∀ b, ¬ Overflows b → Canonical pkg b := by
    intro b hover sig hparse
    obtain ⟨hlen, hr, rfl⟩ := (parseSignature_eq_ok doc).mp hparse
    have hs : beNat (b.drop 32) < groupOrder := Nat.not_le.mp fun hle => hover ⟨hlen, hr, hle⟩
    have hbytes : beBytes 32 (beNat (b.drop 32)) = b.drop 32 := by
      have hself := beBytes_beNat (b.drop 32)
      rwa [length_drop, hlen] at hself
    refine ⟨?_, hr, hs⟩
    rw [serialize_parsed doc hlen hr, Nat.mod_eq_of_lt hs, hbytes, take_append_drop]
  constructor
  · intro b
    constructor
    · rintro hcan ⟨hlen, hr, hs⟩
      have hparse := (parseSignature_eq_ok doc).mpr ⟨hlen, hr, rfl⟩
      exact Nat.not_le.mpr (hcan _ hparse).2.2 hs
    · exact hcanonical b
  · intro b b' sig hparse hparse' hover hover'
    rw [← (hcanonical b hover sig hparse).1, (hcanonical b' hover' sig hparse').1]

/-- The numbers 1 and 1 are a signature that is canonical. -/
theorem canonical_iff_one : Canonical discreteLogs (beBytes 32 1 ++ beBytes 32 1) :=
  ((canonical_iff discreteLogs.numbers).1 _).mpr fun hover => absurd hover.2.2 (by decide)

/-! ## The second spelling -/

/-- The same bytes with the order added to the scalar. -/
def addOrder (b : Bytes) : Bytes := b.take 32 ++ beBytes 32 (beNat (b.drop 32) + groupOrder)

theorem addOrder_ne (hlen : b.length = 64) (h : beNat (b.drop 32) + groupOrder < 2 ^ 256) : addOrder b ≠ b := by
  intro heq
  have hdrop := congrArg (drop 32) heq
  rw [addOrder, drop_left' (length_take_of_le (by omega))] at hdrop
  have hnum := congrArg beNat hdrop
  rw [beNat_beBytes_of_lt h] at hnum
  have := groupOrder_pos
  omega

/-- Both spellings are the same signature, so what is accepted in one is accepted in the other, for every key, hash and
hash function. -/
theorem accepts_addOrder (doc : pkg.Numbers) (hlen : b.length = 64) (h : beNat (b.drop 32) + groupOrder < 2 ^ 256) :
    addOrder b ≠ b ∧ ∀ taggedHash hash pubKey,
      accepts pkg taggedHash hash pubKey (addOrder b) = accepts pkg taggedHash hash pubKey b := by
  have htakeLen : (b.take 32).length = 32 := length_take_of_le (by omega)
  have htake : (addOrder b).take 32 = b.take 32 := take_left' htakeLen
  have hdrop : (addOrder b).drop 32 = beBytes 32 (beNat (b.drop 32) + groupOrder) := drop_left' htakeLen
  have hlen' : (addOrder b).length = 64 := by rw [addOrder, length_append, htakeLen, beBytes_length]
  have hscalar : (pkg.scalarSetByteSlice ((addOrder b).drop 32)).1 = (pkg.scalarSetByteSlice (b.drop 32)).1 := by
    apply doc.scalarValue_injective
    rw [doc.scalarSetByteSlice_value _ (by rw [hdrop, beBytes_length]),
      doc.scalarSetByteSlice_value _ (by rw [length_drop]; omega), hdrop, beNat_beBytes_of_lt h,
      Nat.add_mod_right]
  have hparse : parseSignature pkg (addOrder b) = parseSignature pkg b := by
    simp only [parseSignature, htake, hscalar, hlen, hlen',
      take_of_length_le (show ((addOrder b).drop 32).length ≤ 32 by rw [length_drop]; omega),
      take_of_length_le (show (b.drop 32).length ≤ 32 by rw [length_drop]; omega)]
  refine ⟨addOrder_ne hlen h, fun taggedHash hash pubKey => ?_⟩
  rw [accepts, hparse, accepts]

theorem accepts_addOrder_one : addOrder (beBytes 32 1 ++ beBytes 32 1) ≠ beBytes 32 1 ++ beBytes 32 1 :=
  (accepts_addOrder discreteLogs.numbers (by decide) (by decide)).1

/-- The numbers 1 and 1 are the signature of a hash, and so are 1 and 1 plus the order: the tagged hash is constantly zero,
and the generator is the key. -/
theorem two_spellings_accepted :
    let b := beBytes 32 1 ++ beBytes 32 1
    let b' := beBytes 32 1 ++ beBytes 32 (1 + groupOrder)
    let accepted := accepts discreteLogs (fun _ _ => FixedBytes.zero 32) (replicate 32 0) (scalarOf 1)
    b' ≠ b ∧ accepted b = true ∧ accepted b' = true ∧ ¬ Canonical discreteLogs b' := by
  refine ⟨by decide, by decide, by decide, fun hcan => ?_⟩
  have hparse := (parseSignature_eq_ok discreteLogs.numbers (b := beBytes 32 1 ++ beBytes 32 (1 + groupOrder))).mpr
    ⟨by decide, by decide, rfl⟩
  exact absurd (hcan _ hparse).2.2 (by decide)

end NogoCommons.Nogoec.Schnorr
