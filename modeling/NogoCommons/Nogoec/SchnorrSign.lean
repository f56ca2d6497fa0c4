import NogoCommons.Nogoec.Schnorr
import NogoCommons.Nogoec.Group

/-!
# `nogoec/schnorr` — signing

The signer negates the private key when the public key is odd and the nonce when its point is odd; the verifier lifts the
key's first coordinate to the even point and asks for an even nonce point. So both sides compute with even parts, and the
equation the verifier checks is `s G = R + e P` between them (`schnorrVerify_ok`).

With the equation, signing fails only where the challenge is not below the order (`schnorrSign_eq`), and the check at its
end never rejects. The loop over nonces goes on until that does not happen, which no bound can be given for: a result of
`Sign` is a result after some number of turns.
-/

namespace NogoCommons.Nogoec.Schnorr
open Lib

def tagBIP0340Aux : Bytes := ascii "BIP0340/aux"
def tagBIP0340Nonce : Bytes := ascii "BIP0340/nonce"

def rfc6979ExtraDataV0 : Bytes :=
  [0xa3, 0xeb, 0x4c, 0x18, 0x2f, 0xae, 0x7e, 0xf4, 0xe8, 0x10, 0xc6, 0xee, 0x13, 0xb0, 0xe9, 0x26,
    0x68, 0x6d, 0x71, 0xe8, 0x7f, 0x39, 0x4f, 0x79, 0x9c, 0x00, 0xa5, 0x21, 0x03, 0xcb, 0x4e, 0x17]

def pubKeyFormatCompressedOdd : UInt8 := 3

inductive SignErrorKind
  | invalidHashLen | privateKeyIsZero | schnorrHashValue
deriving DecidableEq, Repr

inductive SignError
  | signature (kind : SignErrorKind) (description : String)
  | verify (err : SchnorrError)
deriving DecidableEq, Repr

structure SignOptions where
  fastSign : Bool
  authNonce : Option (FixedBytes 32)

section Sign
variable (pkg : Curve) (taggedHash : Bytes → List Bytes → FixedBytes 32)

def schnorrSign (privKey nonce : pkg.ModNScalar) (pubKey : pkg.PublicKey) (hash : Bytes) (fastSign : Bool) :
    Except SignError (Signature pkg.toSecp256k1) :=
  let R := pkg.toAffine (pkg.scalarBaseMultNonConst nonce)
  let k := if pkg.fieldIsOdd (pkg.pointY R) then pkg.scalarNegate nonce else nonce
  let pBytes := serializePubKey pubKey
  let commitment := taggedHash tagBIP0340Challenge [(pkg.fieldPutBytesUnchecked (pkg.pointX R)).bytes, pBytes, hash]
  let e := pkg.scalarSetByteSlice commitment.bytes
  if e.2 then .error (.signature .schnorrHashValue "hash of (r || P || m) too big")
  else
    let s := pkg.scalarAdd (pkg.scalarMul e.1 privKey) k
    let sig := newSignature (pkg.pointX R) s
    if !fastSign then
      match schnorrVerify taggedHash sig hash pBytes with
      | .error err => .error (.verify err)
      | .ok _ => .ok sig
    else .ok sig

/-- The loop of `Sign` over the nonces, for a number of turns; nothing if it has not returned by then. -/
def signFrom (privKeyScalar : pkg.ModNScalar) (pub : pkg.PublicKey) (hash : Bytes) (fastSign : Bool) :
    Nat → UInt32 → Option (Signature pkg.toSecp256k1)
  | 0, _ => none
  | turns + 1, iteration =>
    let privKeyBytes := (pkg.scalarPutBytesUnchecked privKeyScalar).bytes
    let k := pkg.nonceRFC6979 privKeyBytes hash rfc6979ExtraDataV0 [] iteration
    match schnorrSign pkg taggedHash privKeyScalar k pub hash fastSign with
    | .error _ => signFrom privKeyScalar pub hash fastSign turns (iteration + 1)
    | .ok sig => some sig

/-- The private key, negated if the public key is odd. -/
def signingKey (privKey : pkg.ModNScalar) : pkg.ModNScalar :=
  if (pkg.serializeCompressed (pkg.pubKey privKey)).bytes.head? = some pubKeyFormatCompressedOdd then
    pkg.scalarNegate privKey
  else privKey

/-- `Sign`, with a number of turns for its loop. -/
def sign (privKey : pkg.ModNScalar) (hash : Bytes) (opts : SignOptions) (turns : Nat) :
    Option (Except SignError (Signature pkg.toSecp256k1)) :=
  let len := hash.length
  if len ≠ scalarSize then
    some (.error (.signature .invalidHashLen s!"wrong size for message hash (got {len}, want {scalarSize})"))
  else if pkg.scalarIsZero privKey then some (.error (.signature .privateKeyIsZero "private key is zero"))
  else
    let pub := pkg.pubKey privKey
    let pubKeyBytes := (pkg.serializeCompressed pub).bytes
    let privKeyScalar := signingKey pkg privKey
    match opts.authNonce with
    | some authNonce =>
      let privBytes := (pkg.scalarPutBytesUnchecked privKeyScalar).bytes
      let t := List.zipWith (· ^^^ ·) (taggedHash tagBIP0340Aux [authNonce.bytes]).bytes privBytes
      let rand := taggedHash tagBIP0340Nonce [t, pubKeyBytes.drop 1, hash]
      let kPrime := (pkg.scalarSetByteSlice rand.bytes).1
      if pkg.scalarIsZero kPrime then some (.error (.signature .schnorrHashValue "generated nonce is zero"))
      else some (schnorrSign pkg taggedHash privKeyScalar kPrime pub hash opts.fastSign)
    | none => (signFrom pkg taggedHash privKeyScalar pub hash opts.fastSign turns 0).map .ok

end Sign

section Group
variable {pkg : Curve} {taggedHash : Bytes → List Bytes → FixedBytes 32} {n : ℕ} {E : Type} [AddCommGroup E]
  [Module (ZMod n) E] (doc : pkg.Group n E) {K : pkg.PublicKey} {d : pkg.ModNScalar}

theorem serializePubKey_eq (h : doc.key K ≠ 0) : serializePubKey K = doc.xBytes (doc.key K) := by
  rw [serializePubKey, doc.serializeCompressed_eq h]
  rfl

/-- A key that is written with its first coordinate is read as its even part. -/
theorem parsePubKey_serializePubKey (h : doc.key K ≠ 0) :
    ∃ K', parsePubKey pkg.toSecp256k1 (some (serializePubKey K)) = .ok K' ∧ doc.key K' = doc.evenPart (doc.key K) := by
  obtain ⟨K', hparse, hK'⟩ := doc.parsePubKey_eq (doc.evenPart_ne_zero h)
  refine ⟨K', ?_, hK'⟩
  rw [doc.compressed_evenPart h] at hparse
  rw [serializePubKey_eq doc h, parsePubKey, if_neg (by rw [doc.length_xBytes]; decide), hparse]

variable (pkg taggedHash) in
/-- The challenge for a nonce point, a key and a hash. -/
def challenge (R P : E) (hash : Bytes) : ZMod n :=
  doc.scalar (pkg.scalarSetByteSlice (taggedHash tagBIP0340Challenge [doc.xBytes R, doc.xBytes P, hash]).bytes).1

variable {sig : Signature pkg.toSecp256k1} {hash : Bytes}

/-- The equation that makes a signature valid. -/
theorem schnorrVerify_ok {R : E} (hR : R ≠ 0) (hodd : doc.yOdd R = false) (hr : sig.r = doc.xCoord R)
    (hK : doc.key K ≠ 0) (hlen : hash.length = 32) (heq : doc.scalar sig.s • doc.G =
      R + challenge pkg taggedHash doc R (doc.key K) hash • doc.evenPart (doc.key K)) :
    schnorrVerify taggedHash sig hash (serializePubKey K) = .ok () := by
  obtain ⟨K', hparse, hK'⟩ := parsePubKey_serializePubKey doc hK
  have hne : doc.key K' ≠ 0 := by
    rw [hK']
    exact doc.evenPart_ne_zero hK
  have hpBytes : serializePubKey K' = doc.xBytes (doc.key K) := by
    rw [serializePubKey_eq doc hne, hK', doc.xBytes_evenPart]
  have hrBytes : (pkg.fieldPutBytesUnchecked sig.r).bytes = doc.xBytes R := by rw [hr, Curve.Group.xBytes]
  unfold schnorrVerify
  rw [hparse]
  dsimp only
  rw [if_neg (by rw [hlen]; decide), doc.isOnCurve_key K' hne, hrBytes, hpBytes]
  -- the point that the verifier computes
  set R' := pkg.addNonConst (pkg.scalarBaseMultNonConst sig.s) (pkg.scalarMultNonConst (pkg.scalarNegate
    (pkg.scalarSetByteSlice (taggedHash tagBIP0340Challenge [doc.xBytes R, doc.xBytes (doc.key K), hash]).bytes).1)
    (pkg.asJacobian K')) with hR'
  have hpoint : doc.point R' = R := by
    rw [hR', doc.point_add, doc.point_base, doc.point_mult, doc.scalar_negate, doc.point_asJacobian, hK', heq, neg_smul]
    exact add_neg_cancel_right ..
  have hfinite : pkg.isInfinity R' = false := by
    rwa [Bool.eq_false_iff, ne_eq, doc.isInfinity_iff, hpoint]
  rw [Curve.isInfinity] at hfinite
  have hx : pkg.fieldEquals sig.r (pkg.pointX (pkg.toAffine R')) = true := by
    rw [doc.pointX_toAffine R' (by rw [hpoint]; exact hR), hpoint, hr]
    exact doc.fieldEquals_self _
  have hy : pkg.fieldIsOdd (pkg.pointY (pkg.toAffine R')) = false := by
    rw [doc.pointY_toAffine R' (by rw [hpoint]; exact hR), hpoint, hodd]
  rw [hfinite, hy, hx]
  rfl

/-- The even key and the even nonce. -/
theorem scalar_negate_if {s : pkg.ModNScalar} {P : E} (h : doc.scalar s • doc.G = P) :
    doc.scalar (if doc.yOdd P then pkg.scalarNegate s else s) • doc.G = doc.evenPart P := by
  rcases doc.evenPart_cases P with ⟨hP, hodd⟩ | ⟨hP, hodd⟩
  · rw [hP, hodd, if_neg (by decide), h]
  · rw [hP, hodd, if_pos rfl, doc.scalar_negate, neg_smul, h]

variable (pkg taggedHash) in
/-- The bytes of the challenge for a nonce. -/
def commitment (nonce : pkg.ModNScalar) (K : pkg.PublicKey) (hash : Bytes) : Bytes :=
  (taggedHash tagBIP0340Challenge [doc.xBytes (doc.scalar nonce • doc.G), doc.xBytes (doc.key K), hash]).bytes

variable (taggedHash) in
/-- With a nonce and a key that are not zero, `schnorrSign` fails only where the challenge is not below the order: what it
would return is valid. -/
theorem schnorrSign_eq {nonce : pkg.ModNScalar} (hnonce : doc.scalar nonce ≠ 0) (hK : doc.key K ≠ 0)
    (hd : doc.scalar d • doc.G = doc.evenPart (doc.key K)) (hlen : hash.length = 32) (fastSign : Bool) :
    ∃ sig, schnorrVerify taggedHash sig hash (serializePubKey K) = .ok () ∧
      schnorrSign pkg taggedHash d nonce K hash fastSign =
        if (pkg.scalarSetByteSlice (commitment pkg taggedHash doc nonce K hash)).2 then
          .error (.signature .schnorrHashValue "hash of (r || P || m) too big")
        else .ok sig := by
  have hpoint := doc.point_base nonce
  generalize hR : pkg.scalarBaseMultNonConst nonce = R at hpoint
  have hne : doc.point R ≠ 0 := by
    rw [hpoint]
    exact doc.smul_G_ne_zero hnonce
  have hx := doc.pointX_toAffine R hne
  have hy := doc.pointY_toAffine R hne
  have hcommitment : pkg.scalarSetByteSlice (taggedHash tagBIP0340Challenge
      [(pkg.fieldPutBytesUnchecked (doc.xCoord (doc.point R))).bytes, serializePubKey K, hash]).bytes =
        pkg.scalarSetByteSlice (commitment pkg taggedHash doc nonce K hash) := by
    rw [serializePubKey_eq doc hK, commitment, ← hpoint]
    rfl
  have hk := scalar_negate_if doc hpoint.symm
  generalize hkdef : (if doc.yOdd (doc.point R) then pkg.scalarNegate nonce else nonce) = k at hk
  have he : challenge pkg taggedHash doc (doc.evenPart (doc.point R)) (doc.key K) hash =
      doc.scalar (pkg.scalarSetByteSlice (commitment pkg taggedHash doc nonce K hash)).1 := by
    rw [challenge, doc.xBytes_evenPart, hpoint]
    rfl
  generalize pkg.scalarSetByteSlice (commitment pkg taggedHash doc nonce K hash) = e at he hcommitment ⊢
  have hvalid : schnorrVerify taggedHash (newSignature (doc.xCoord (doc.point R)) (pkg.scalarAdd (pkg.scalarMul e.1 d) k))
      hash (serializePubKey K) = .ok () := by
    apply schnorrVerify_ok doc (doc.evenPart_ne_zero hne) (doc.yOdd_evenPart hne) _ hK hlen
    · rw [he, newSignature, doc.scalar_add, doc.scalar_mul, add_smul, mul_smul, hd, hk, add_comm]
    · rw [doc.xCoord_evenPart]
      exact doc.fieldNormalize_xCoord _
  refine ⟨_, hvalid, ?_⟩
  unfold schnorrSign
  dsimp only
  rw [hR, hx, hy, hkdef, hcommitment]
  split_ifs
  · rfl
  · rw [hvalid]
  · rfl

/-- Whatever `schnorrSign` returns is valid. -/
theorem verify_of_schnorrSign {nonce : pkg.ModNScalar} {fastSign : Bool} (hnonce : doc.scalar nonce ≠ 0)
    (hK : doc.key K ≠ 0) (hd : doc.scalar d • doc.G = doc.evenPart (doc.key K)) (hlen : hash.length = 32)
    (h : schnorrSign pkg taggedHash d nonce K hash fastSign = .ok sig) : sig.verify taggedHash hash K = true := by
  obtain ⟨sig', hvalid, hsign⟩ := schnorrSign_eq taggedHash doc hnonce hK hd hlen fastSign
  rw [h] at hsign
  split_ifs at hsign
  cases hsign
  rw [Signature.verify, hvalid]

theorem verify_of_signFrom {fastSign : Bool} (hK : doc.key K ≠ 0)
    (hd : doc.scalar d • doc.G = doc.evenPart (doc.key K)) (hlen : hash.length = 32) {turns : Nat}
    {iteration : UInt32} (h : signFrom pkg taggedHash d K hash fastSign turns iteration = some sig) :
    sig.verify taggedHash hash K = true := by
  induction turns generalizing iteration with
  | zero => cases h
  | succ turns ih =>
    rw [signFrom] at h
    split at h
    · exact ih h
    · next hsign =>
      cases h
      exact verify_of_schnorrSign doc (doc.scalar_nonce _ _ _ _ _) hK hd hlen hsign

/-- The loop returns in the turn in which the challenge is below the order. -/
theorem signFrom_returns (fastSign : Bool) (hK : doc.key K ≠ 0) (hd : doc.scalar d • doc.G = doc.evenPart (doc.key K))
    (hlen : hash.length = 32) (turns : Nat) (iteration : UInt32)
    (h : (pkg.scalarSetByteSlice (commitment pkg taggedHash doc (pkg.nonceRFC6979
      (pkg.scalarPutBytesUnchecked d).bytes hash rfc6979ExtraDataV0 [] (iteration + UInt32.ofNat turns)) K hash)).2 = false) :
    ∃ sig, signFrom pkg taggedHash d K hash fastSign (turns + 1) iteration = some sig := by
  induction turns generalizing iteration with
  | zero =>
    rw [show iteration + UInt32.ofNat 0 = iteration from UInt32.add_zero _] at h
    obtain ⟨sig, -, hsign⟩ := schnorrSign_eq taggedHash doc (doc.scalar_nonce _ _ _ _ _) hK hd hlen fastSign
    rw [h, if_neg (by decide)] at hsign
    rw [signFrom]
    rw [hsign]
    exact ⟨sig, rfl⟩
  | succ turns ih =>
    rw [signFrom]
    split
    · apply ih
      have hnext : iteration + 1 + UInt32.ofNat turns = iteration + UInt32.ofNat (turns + 1) := by
        rw [UInt32.ofNat_add, UInt32.add_assoc, UInt32.add_comm (UInt32.ofNat turns)]
        rfl
      rwa [hnext]
    · exact ⟨_, rfl⟩

theorem scalar_signingKey (hd : doc.scalar d ≠ 0) :
    doc.scalar (signingKey pkg d) • doc.G = doc.evenPart (doc.key (pkg.pubKey d)) := by
  have hhead : ((pkg.serializeCompressed (pkg.pubKey d)).bytes.head? = some pubKeyFormatCompressedOdd) ↔
      doc.yOdd (doc.key (pkg.pubKey d)) = true := by
    rw [doc.head?_serializeCompressed (doc.key_pubKey_ne_zero hd)]
    cases doc.yOdd (doc.key (pkg.pubKey d)) <;> decide
  rw [← scalar_negate_if doc (doc.key_pubKey hd).symm, signingKey]
  simp only [hhead]

variable (taggedHash) in
/-- Without a nonce of the caller, `Sign` returns in the turn in which the challenge is below the order. -/
theorem sign_returns (hd : doc.scalar d ≠ 0) (hlen : hash.length = 32) (fastSign : Bool) (turns : Nat)
    (h : (pkg.scalarSetByteSlice (commitment pkg taggedHash doc (pkg.nonceRFC6979
      (pkg.scalarPutBytesUnchecked (signingKey pkg d)).bytes hash rfc6979ExtraDataV0 [] (UInt32.ofNat turns))
      (pkg.pubKey d) hash)).2 = false) :
    ∃ sig, sign pkg taggedHash d hash ⟨fastSign, none⟩ (turns + 1) = some (.ok sig) := by
  rw [← UInt32.zero_add (UInt32.ofNat turns)] at h
  obtain ⟨sig, hsig⟩ := signFrom_returns doc fastSign (doc.key_pubKey_ne_zero hd) (scalar_signingKey doc hd) hlen turns 0 h
  refine ⟨sig, ?_⟩
  rw [sign, if_neg (by rw [hlen]; decide), if_neg fun hzero => hd ((doc.scalar_isZero d).mp hzero)]
  dsimp only
  rw [hsig]
  rfl

end Group

/-- Every signature that `Sign` returns is accepted under the key of the signer. -/
theorem sign_verifies {pkg : Curve} {n : ℕ} {E : Type} [AddCommGroup E] [Module (ZMod n) E] (doc : pkg.Group n E)
    (taggedHash : Bytes → List Bytes → FixedBytes 32) {d : pkg.ModNScalar} (hd : doc.scalar d ≠ 0) {hash : Bytes}
    (hlen : hash.length = 32) (opts : SignOptions) (turns : Nat) {sig : Signature pkg.toSecp256k1}
    (hsign : sign pkg taggedHash d hash opts turns = some (.ok sig)) :
    sig.verify taggedHash hash (pkg.pubKey d) = true := by
  have hK := doc.key_pubKey_ne_zero hd
  have heven := scalar_signingKey doc hd
  rw [sign, if_neg (by rw [hlen]; decide), if_neg fun hzero => hd ((doc.scalar_isZero d).mp hzero)] at hsign
  dsimp only at hsign
  split at hsign
  · split_ifs at hsign with hnonce
    · cases hsign
    · refine verify_of_schnorrSign doc (fun h => ?_) hK heven hlen (Option.some.inj hsign)
      exact hnonce ((doc.scalar_isZero _).mpr h)
  · obtain ⟨sig', hfrom, hok⟩ := Option.map_eq_some_iff.mp hsign
    cases hok
    exact verify_of_signFrom doc hK heven hlen hfrom

/-- In the group of discrete logarithms the key 1 signs in the first turn, when every hash is zero. -/
theorem sign_verifies_one : ∃ sig,
    sign logCurve (fun _ _ => FixedBytes.zero 32) (scalarOf 1) (List.replicate 32 0) ⟨true, none⟩ 1 = some (.ok sig) ∧
    sig.verify (fun _ _ => FixedBytes.zero 32) (List.replicate 32 0) (logCurve.pubKey (scalarOf 1)) = true := by
  have hone : logCurve.group.scalar (scalarOf 1) ≠ 0 := fun h => absurd (logCurve.pointOf_eq_zero.mp h) (by decide)
  have hlen : (List.replicate 32 (0 : UInt8)).length = 32 := List.length_replicate
  obtain ⟨sig, hsign⟩ := sign_returns (fun _ _ => FixedBytes.zero 32) logCurve.group hone hlen true 0 (by decide)
  exact ⟨sig, hsign, sign_verifies logCurve.group _ hone hlen ⟨true, none⟩ 1 hsign⟩

end NogoCommons.Nogoec.Schnorr
