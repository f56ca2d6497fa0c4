import NogoCommons.Lib.Go
import NogoCommons.Nogoec.Group

/-!
# `nogoutil/hdkeychain/extendedkey.go`

A child of an extended key is made from the left half of a keyed hash, as a scalar that is added to the key: to the number
if the key is private (`childPrivate`), to the point if it is public (`childPublic`). Both refuse a left half that is not
below the order. The public branch also refuses a left half of zero, and neither looks at the sum, which is the key of the
child and must not be zero.

So making the public child of the public key and making the public key of the private child come to the same wherever the
left half is not zero and is not the opposite of the key, and the private child is a usable key there; where one of the
two happens they do not (`derive_neuter_iff`).

The keyed hash, the key hash and the table of versions are arbitrary functions.
-/

namespace NogoCommons.Hdkeychain
open Lib List
open Nogoec

def hardenedKeyStart : UInt32 := 0x80000000
def maxUint8 : UInt8 := 255

inductive HdError
  | deriveBeyondMaxDepth | deriveHardFromPublic | invalidChild | unknownHDKeyID
  | pubKey (description : String)
deriving DecidableEq, Repr

structure ExtendedKey where
  key : Bytes
  pubKey : Bytes
  chainCode : Bytes
  depth : UInt8
  parentFP : Bytes
  childNum : UInt32
  version : Bytes
  isPrivate : Bool
deriving DecidableEq, Repr

def newExtendedKey (version key chainCode parentFP : Bytes) (depth : UInt8) (childNum : UInt32) (isPrivate : Bool) :
    ExtendedKey where
  key := key
  pubKey := []
  chainCode := chainCode
  depth := depth
  parentFP := parentFP
  childNum := childNum
  version := version
  isPrivate := isPrivate

/-- `chaincfg.HDPrivateKeyToPublicKeyID`, for a table of registered versions. -/
def hdPrivateKeyToPublicKeyID (hdPrivToPubKeyIDs : Bytes → Option Bytes) (id : Bytes) : Except HdError Bytes :=
  if id.length ≠ 4 then .error .unknownHDKeyID
  else
    match hdPrivToPubKeyIDs id with
    | none => .error .unknownHDKeyID
    | some pubBytes => .ok pubBytes

variable {E : Type} {k : ExtendedKey} {i : UInt32} {version : Bytes}
namespace ExtendedKey
variable (pkg : Curve) (hmac512 : Bytes → Bytes → FixedBytes 64) (hash160 : Bytes → FixedBytes 20)
  (hdPrivToPubKeyIDs : Bytes → Option Bytes)

/-- The compressed public key of the bytes of a private key. -/
def publicBytes (key : Bytes) : Bytes := (pkg.serializeCompressed (pkg.pubKey (pkg.scalarSetByteSlice key).1)).bytes

/-- `pubKeyBytes`, with the key as it is afterwards. -/
def pubKeyBytes (k : ExtendedKey) : Bytes × ExtendedKey :=
  if !k.isPrivate then (k.key, k)
  else if k.pubKey.length = 0 then (publicBytes pkg k.key, { k with pubKey := publicBytes pkg k.key })
  else (k.pubKey, k)

/-- What is hashed for a child, with the key as it is afterwards. -/
def childData (k : ExtendedKey) (i : UInt32) : Go (Bytes × ExtendedKey) :=
  let data := replicate 37 0
  let number := beBytes 4 i.toNat
  if hardenedKeyStart ≤ i then
    -- the offset of a key that is too long is negative
    if 33 < k.key.length then .error .sliceBounds
    else .ok (copySlice (copySlice data (33 - k.key.length) k.key) 33 number, k)
  else
    let pub := k.pubKeyBytes pkg
    .ok (copySlice (copySlice data 0 pub.1) 33 number, pub.2)

/-- The key of a private child. -/
def childPrivate (key : Bytes) (ilNum : pkg.ModNScalar) : Except HdError Bytes :=
  let keyNum := pkg.scalarSetByteSlice key
  if keyNum.2 then .error .invalidChild
  else .ok ((pkg.scalarPutBytesUnchecked (pkg.scalarAdd ilNum keyNum.1)).bytes.dropWhile (· == 0))

/-- The key of a public child. -/
def childPublic (key : Bytes) (ilNum : pkg.ModNScalar) : Except HdError Bytes :=
  let ilJ := pkg.scalarBaseMultNonConst ilNum
  if pkg.isInfinity ilJ then .error .invalidChild
  else
    match pkg.parsePubKey key with
    | .error err => .error (.pubKey err)
    | .ok pubKey =>
      let childKeyPubJ := pkg.addNonConst ilJ (pkg.asJacobian pubKey)
      .ok (pkg.serializeCompressed (pkg.pointKey (pkg.toAffine childKeyPubJ))).bytes

/-- `Derive`, with the key as it is afterwards. -/
def derive (k : ExtendedKey) (i : UInt32) : Go (Except HdError ExtendedKey × ExtendedKey) :=
  if k.depth = maxUint8 then .ok (.error .deriveBeyondMaxDepth, k)
  else if !k.isPrivate ∧ hardenedKeyStart ≤ i then .ok (.error .deriveHardFromPublic, k)
  else do
    let data ← k.childData pkg i
    let k := data.2
    let ilr := (hmac512 k.chainCode data.1).bytes
    let il := ilr.take (ilr.length / 2)
    let childChainCode := ilr.drop (ilr.length / 2)
    let ilNum := pkg.scalarSetByteSlice il
    if ilNum.2 then return (.error .invalidChild, k)
    else
      match if k.isPrivate then childPrivate pkg k.key ilNum.1 else childPublic pkg k.key ilNum.1 with
      | .error err => return (.error err, k)
      | .ok childKey =>
        let pub := k.pubKeyBytes pkg
        let parentFP := (hash160 pub.1).bytes.take 4
        return (.ok (newExtendedKey k.version childKey childChainCode parentFP (k.depth + 1) i k.isPrivate), pub.2)

/-- `Neuter`, with the key as it is afterwards. -/
def neuter (k : ExtendedKey) : Except HdError ExtendedKey × ExtendedKey :=
  if !k.isPrivate then (.ok k, k)
  else
    match hdPrivateKeyToPublicKeyID hdPrivToPubKeyIDs k.version with
    | .error err => (.error err, k)
    | .ok version =>
      let pub := k.pubKeyBytes pkg
      (.ok (newExtendedKey version pub.1 k.chainCode k.parentFP k.depth k.childNum false), pub.2)

/-! ## The two ways to a public child -/

/-- `Derive`, and `Neuter` of the child. -/
def deriveNeuter (k : ExtendedKey) (i : UInt32) : Go (Except HdError ExtendedKey) := do
  let r ← k.derive pkg hmac512 hash160 i
  match r.1 with
  | .error err => return .error err
  | .ok child => return (child.neuter pkg hdPrivToPubKeyIDs).1

/-- `Neuter`, and `Derive` of the public key. -/
def neuterDerive (k : ExtendedKey) (i : UInt32) : Go (Except HdError ExtendedKey) :=
  match (k.neuter pkg hdPrivToPubKeyIDs).1 with
  | .error err => .ok (.error err)
  | .ok pub => do
    let r ← pub.derive pkg hmac512 hash160 i
    return r.1

/-- Both are refused as invalid children, or both are the same key. -/
def Agree (a b : Go (Except HdError ExtendedKey)) : Prop :=
  a = .ok (.error .invalidChild) ∧ b = .ok (.error .invalidChild) ∨
    ∃ c c', a = .ok (.ok c) ∧ b = .ok (.ok c') ∧ c.key = c'.key ∧ c.chainCode = c'.chainCode ∧ c.depth = c'.depth ∧
      c.parentFP = c'.parentFP ∧ c.childNum = c'.childNum

/-- The two ways agree on children that are not hardened, and no private child has the key zero. -/
def Commutes (k : ExtendedKey) (i : UInt32) : Prop :=
  (i < hardenedKeyStart → Agree (k.deriveNeuter pkg hmac512 hash160 hdPrivToPubKeyIDs i)
    (k.neuterDerive pkg hmac512 hash160 hdPrivToPubKeyIDs i)) ∧
  ∀ child k', k.derive pkg hmac512 hash160 i = .ok (.ok child, k') → beNat child.key ≠ 0

/-- A private key of the curve, below the greatest depth; the public key is there or still has to be computed. -/
structure IsPrivateKey (n : ℕ) (k : ExtendedKey) : Prop where
  isPrivate : k.isPrivate = true
  length_le : k.key.length ≤ 32
  pos : 0 < beNat k.key
  lt : beNat k.key < n
  depth_ne : k.depth ≠ maxUint8
  pubKey : k.pubKey = [] ∨ k.pubKey = publicBytes pkg k.key

/-- What a child is made from, as the proposal describes it. -/
def serialized (k : ExtendedKey) (i : UInt32) : Bytes :=
  (if hardenedKeyStart ≤ i then replicate (33 - k.key.length) 0 ++ k.key else publicBytes pkg k.key) ++
    beBytes 4 i.toNat

/-- The left half of the hash, as a number. -/
def leftNumber (k : ExtendedKey) (i : UInt32) : Nat :=
  beNat ((hmac512 k.chainCode (k.serialized pkg i)).bytes.take 32)

/-- Where the two ways agree: the version is known, and the left half is refused by both or is neither zero nor the
opposite of the key. -/
def Usable (n : ℕ) (k : ExtendedKey) (i : UInt32) : Prop :=
  (i < hardenedKeyStart → ∃ version, hdPrivateKeyToPublicKeyID hdPrivToPubKeyIDs k.version = .ok version) ∧
  (n ≤ k.leftNumber pkg hmac512 i ∨
    ((k.leftNumber pkg hmac512 i + beNat k.key) % n ≠ 0 ∧ (i < hardenedKeyStart → k.leftNumber pkg hmac512 i ≠ 0)))

/-! ## Private keys -/

section Private
variable {pkg hmac512 hash160 hdPrivToPubKeyIDs} {n : ℕ} [AddCommGroup E] [Module (ZMod n) E] (doc : pkg.Group n E)

theorem length_publicBytes (key : Bytes) : (publicBytes pkg key).length = 33 := FixedBytes.bytes_length _

/-- The key of a number that is not zero. -/
theorem publicBytes_eq {key : Bytes} (hlen : key.length ≤ 32) (hne : (beNat key : ZMod n) ≠ 0) :
    publicBytes pkg key = doc.compressed ((beNat key : ZMod n) • doc.G) := by
  have hscalar := doc.scalar_setByteSlice key
  rw [take_of_length_le hlen] at hscalar
  rw [← hscalar] at hne ⊢
  rw [publicBytes, doc.serializeCompressed_eq (doc.key_pubKey_ne_zero hne), doc.key_pubKey hne]

variable (pkg) in
/-- The key with its public key computed. -/
def memo (k : ExtendedKey) : ExtendedKey := { k with pubKey := publicBytes pkg k.key }

theorem pubKeyBytes_eq (hpriv : k.isPrivate = true) (hmemo : k.pubKey = [] ∨ k.pubKey = publicBytes pkg k.key) :
    k.pubKeyBytes pkg = (publicBytes pkg k.key, k.memo pkg) := by
  rw [pubKeyBytes, if_neg (by rw [hpriv]; decide)]
  rcases hmemo with h | h
  · rw [if_pos (by rw [h]; rfl)]
    rfl
  · rw [if_neg (by rw [h, length_publicBytes]; decide), memo, ← h]

theorem pubKeyBytes_memo (hpriv : k.isPrivate = true) :
    (k.memo pkg).pubKeyBytes pkg = (publicBytes pkg k.key, k.memo pkg) := pubKeyBytes_eq hpriv (.inr rfl)

/-- The three parts of what is hashed. -/
theorem copy_key_number (pad : Nat) {key number : Bytes} (hlen : pad + key.length = 33) (hnumber : number.length = 4) :
    copySlice (copySlice (replicate 37 0) pad key) 33 number = replicate pad 0 ++ key ++ number := by
  have hzero : replicate 37 (0 : UInt8) =
      replicate pad 0 ++ (replicate key.length 0 ++ replicate number.length 0) := by
    rw [replicate_append_replicate, replicate_append_replicate, hnumber, ← Nat.add_assoc, hlen]
  have hkey : copySlice (replicate 37 (0 : UInt8)) (replicate pad (0 : UInt8)).length key =
      replicate pad 0 ++ (key ++ replicate number.length 0) := by
    rw [hzero, copySlice_append _ length_replicate]
  have hpre : (replicate pad (0 : UInt8) ++ key).length = 33 := by rw [length_append, length_replicate, hlen]
  rw [length_replicate, ← append_assoc, ← append_nil (replicate number.length 0)] at hkey
  rw [hkey, ← hpre, copySlice_append _ length_replicate, append_nil]

theorem childData_hardened (hlen : k.key.length ≤ 32) (hi : hardenedKeyStart ≤ i) :
    k.childData pkg i = .ok (k.serialized pkg i, k) := by
  rw [childData, if_pos hi, if_neg (by omega), copy_key_number (33 - k.key.length) (by omega) (beBytes_length 4 _),
    serialized, if_pos hi]

theorem childData_normal (hpub : (k.pubKeyBytes pkg).1.length = 33) (hi : ¬ hardenedKeyStart ≤ i) :
    k.childData pkg i = .ok ((k.pubKeyBytes pkg).1 ++ beBytes 4 i.toNat, (k.pubKeyBytes pkg).2) := by
  rw [childData, if_neg hi]
  dsimp only
  rw [copy_key_number 0 (by rw [Nat.zero_add, hpub]) (beBytes_length 4 _)]
  rfl

/-- What is hashed for a child of a private key. -/
theorem childData_private (hk : IsPrivateKey pkg n k) :
    ∃ k', k.childData pkg i = .ok (k.serialized pkg i, k') ∧ (k' = k ∨ k' = k.memo pkg) := by
  by_cases hi : hardenedKeyStart ≤ i
  · exact ⟨k, childData_hardened hk.length_le hi, .inl rfl⟩
  · have hpub := pubKeyBytes_eq hk.isPrivate hk.pubKey
    refine ⟨k.memo pkg, ?_, .inr rfl⟩
    rw [childData_normal (by rw [hpub]; exact length_publicBytes _) hi, hpub, serialized, if_neg hi]

theorem length_left (ilr : FixedBytes 64) : (ilr.bytes.take 32).length = 32 :=
  length_take_of_le (by rw [FixedBytes.bytes_length]; decide)

variable (pkg hmac512 hash160 n) in
/-- The child of a private key. -/
def privateChild (k : ExtendedKey) (i : UInt32) : ExtendedKey :=
  newExtendedKey k.version (natBytes ((k.leftNumber pkg hmac512 i + beNat k.key) % n))
    ((hmac512 k.chainCode (k.serialized pkg i)).bytes.drop 32) ((hash160 (publicBytes pkg k.key)).bytes.take 4)
    (k.depth + 1) i true

include doc

theorem childPrivate_eq {il : Bytes} (hk : IsPrivateKey pkg n k) (hil : il.length = 32) :
    childPrivate pkg k.key (pkg.scalarSetByteSlice il).1 = .ok (natBytes ((beNat il + beNat k.key) % n)) := by
  have htake : k.key.take 32 = k.key := take_of_length_le hk.length_le
  have hover : (pkg.scalarSetByteSlice k.key).2 = false := by
    rw [Bool.eq_false_iff, ne_eq, doc.scalar_overflow, htake, Nat.not_le]
    exact hk.lt
  have hval : (doc.scalar (pkg.scalarAdd (pkg.scalarSetByteSlice il).1 (pkg.scalarSetByteSlice k.key).1)).val =
      (beNat il + beNat k.key) % n := by
    rw [doc.scalar_add, doc.scalar_setByteSlice, doc.scalar_setByteSlice, htake, take_of_length_le hil.le,
      ← Nat.cast_add, ZMod.val_natCast]
  have hlt : (beNat il + beNat k.key) % n < 256 ^ 32 :=
    (Nat.mod_lt _ doc.order_pos).trans_le (doc.order_le.trans (by norm_num))
  rw [childPrivate, hover, if_neg (by decide), doc.scalar_putBytes, hval, ← natBytes_beNat_eq_dropWhile,
    beNat_beBytes_of_lt hlt]

/-- What `Derive` of a private key does. -/
theorem derive_private (hk : IsPrivateKey pkg n k) : ∃ k', k.derive pkg hmac512 hash160 i =
      .ok (if n ≤ k.leftNumber pkg hmac512 i then .error .invalidChild
        else .ok (k.privateChild pkg hmac512 hash160 n i), k') := by
  obtain ⟨k', hdata, hk'⟩ : ∃ k', k.childData pkg i = .ok (k.serialized pkg i, k') ∧ (k' = k ∨ k' = k.memo pkg) :=
    childData_private hk
  obtain ⟨hchain, hkey, hpriv, hversion, hdepth, hpub⟩ : k'.chainCode = k.chainCode ∧ k'.key = k.key ∧
      k'.isPrivate = true ∧ k'.version = k.version ∧ k'.depth = k.depth ∧
      k'.pubKeyBytes pkg = (publicBytes pkg k.key, k.memo pkg) := by
    rcases hk' with rfl | rfl
    · exact ⟨rfl, rfl, hk.isPrivate, rfl, rfl, pubKeyBytes_eq hk.isPrivate hk.pubKey⟩
    · exact ⟨rfl, rfl, hk.isPrivate, rfl, rfl, pubKeyBytes_memo hk.isPrivate⟩
  have hlen : (hmac512 k.chainCode (k.serialized pkg i)).bytes.length = 64 := FixedBytes.bytes_length _
  have hil := length_left (hmac512 k.chainCode (k.serialized pkg i))
  have hover := doc.scalar_overflow ((hmac512 k.chainCode (k.serialized pkg i)).bytes.take 32)
  rw [take_of_length_le hil.le] at hover
  rw [derive, if_neg hk.depth_ne, if_neg (by rw [hk.isPrivate]; simp), hdata, ok_bind]
  dsimp only
  rw [hchain, hlen, show 64 / 2 = 32 from rfl, hkey, hpriv, if_pos rfl, childPrivate_eq doc hk hil, hpub, hversion, hdepth]
  by_cases hbig : n ≤ k.leftNumber pkg hmac512 i
  · rw [if_pos hbig, if_pos (hover.mpr hbig)]
    exact ⟨k', rfl⟩
  · rw [if_neg hbig, if_neg fun h => hbig (hover.mp h)]
    exact ⟨k.memo pkg, rfl⟩

omit doc in
theorem neuter_private (hpriv : k.isPrivate = true) (hmemo : k.pubKey = [] ∨ k.pubKey = publicBytes pkg k.key)
    (hversion : hdPrivateKeyToPublicKeyID hdPrivToPubKeyIDs k.version = .ok version) :
    (k.neuter pkg hdPrivToPubKeyIDs).1 =
      .ok (newExtendedKey version (publicBytes pkg k.key) k.chainCode k.parentFP k.depth k.childNum false) := by
  rw [neuter, if_neg (by rw [hpriv]; decide), hversion]
  rw [pubKeyBytes_eq hpriv hmemo]

end Private

/-! ## Public keys -/

section Public
variable {pkg hmac512 hash160} {n : ℕ} [AddCommGroup E] [Module (ZMod n) E] (doc : pkg.Group n E)

include doc

variable {il : Bytes}

theorem isInfinity_base (hil : il.length = 32) :
    pkg.isInfinity (pkg.scalarBaseMultNonConst (pkg.scalarSetByteSlice il).1) = true ↔ (beNat il : ZMod n) = 0 := by
  rw [doc.isInfinity_iff, doc.point_base, doc.scalar_setByteSlice, take_of_length_le hil.le]
  constructor
  · exact doc.smul_G _
  · intro h
    rw [h, zero_smul]

theorem childPublic_zero (hil : il.length = 32) (hzero : (beNat il : ZMod n) = 0) (key : Bytes) :
    childPublic pkg key (pkg.scalarSetByteSlice il).1 = .error .invalidChild := by
  rw [childPublic, if_pos ((isInfinity_base doc hil).mpr hzero)]

theorem childPublic_eq {P : E} (hil : il.length = 32) (hne : (beNat il : ZMod n) ≠ 0) (hP : P ≠ 0)
    (hsum : (beNat il : ZMod n) • doc.G + P ≠ 0) :
    childPublic pkg (doc.compressed P) (pkg.scalarSetByteSlice il).1 =
      .ok (doc.compressed ((beNat il : ZMod n) • doc.G + P)) := by
  obtain ⟨K, hparse, hK⟩ := doc.parsePubKey_eq hP
  have hpoint : doc.point (pkg.addNonConst (pkg.scalarBaseMultNonConst (pkg.scalarSetByteSlice il).1)
      (pkg.asJacobian K)) = (beNat il : ZMod n) • doc.G + P := by
    rw [doc.point_add, doc.point_base, doc.scalar_setByteSlice, take_of_length_le hil.le, doc.point_asJacobian, hK]
  rw [← hpoint] at hsum ⊢
  rw [childPublic, if_neg fun h => hne ((isInfinity_base doc hil).mp h), hparse]
  dsimp only
  have hkey := doc.key_pointKey _ hsum
  rw [doc.serializeCompressed_eq (by rw [hkey]; exact hsum), hkey]

/-- What `Derive` of a public key does, up to the key of the child. -/
theorem derive_public (hpriv : k.isPrivate = false) (hkey : k.key.length = 33) (hdepth : k.depth ≠ maxUint8)
    (hi : i < hardenedKeyStart) :
    k.derive pkg hmac512 hash160 i =
      let ilr := (hmac512 k.chainCode (k.key ++ beBytes 4 i.toNat)).bytes
      .ok (if n ≤ beNat (ilr.take 32) then .error .invalidChild
        else match childPublic pkg k.key (pkg.scalarSetByteSlice (ilr.take 32)).1 with
          | .error err => .error err
          | .ok childKey => .ok (newExtendedKey k.version childKey (ilr.drop 32) ((hash160 k.key).bytes.take 4)
            (k.depth + 1) i false), k) := by
  have hpub : k.pubKeyBytes pkg = (k.key, k) := by rw [pubKeyBytes, if_pos (by rw [hpriv]; rfl)]
  have hnot : ¬ hardenedKeyStart ≤ i := UInt32.not_le.mpr hi
  have hlen : (hmac512 k.chainCode (k.key ++ beBytes 4 i.toNat)).bytes.length = 64 := FixedBytes.bytes_length _
  have hil := length_left (hmac512 k.chainCode (k.key ++ beBytes 4 i.toNat))
  have hover := doc.scalar_overflow ((hmac512 k.chainCode (k.key ++ beBytes 4 i.toNat)).bytes.take 32)
  rw [take_of_length_le hil.le] at hover
  rw [derive, if_neg hdepth, if_neg fun h => hnot h.2, childData_normal (by rw [hpub, hkey]) hnot, hpub, ok_bind]
  dsimp only
  rw [hlen, show 64 / 2 = 32 from rfl, hpriv, if_neg Bool.false_ne_true, hpub]
  by_cases hbig : n ≤ beNat ((hmac512 k.chainCode (k.key ++ beBytes 4 i.toNat)).bytes.take 32)
  · rw [if_pos hbig, if_pos (hover.mpr hbig)]
    rfl
  · rw [if_neg hbig, if_neg fun h => hbig (hover.mp h)]
    split <;> rfl

end Public

/-! ## Both ways -/

section Commute
variable {pkg hmac512 hash160 hdPrivToPubKeyIDs} {n : ℕ} [AddCommGroup E] [Module (ZMod n) E] (doc : pkg.Group n E)

theorem IsPrivateKey.cast_ne_zero (hk : IsPrivateKey pkg n k) : (beNat k.key : ZMod n) ≠ 0 := by
  rw [ne_eq, ZMod.natCast_eq_zero_iff]
  exact Nat.not_dvd_of_pos_of_lt hk.pos hk.lt

theorem leftNumber_normal (hi : i < hardenedKeyStart) : k.leftNumber pkg hmac512 i =
    beNat ((hmac512 k.chainCode (publicBytes pkg k.key ++ beBytes 4 i.toNat)).bytes.take 32) := by
  rw [leftNumber, serialized, if_neg (UInt32.not_le.mpr hi)]

include doc

/-- `Derive` of the public key. -/
theorem neuterDerive_eq (hk : IsPrivateKey pkg n k) (hi : i < hardenedKeyStart)
    (hversion : hdPrivateKeyToPublicKeyID hdPrivToPubKeyIDs k.version = .ok version) :
    k.neuterDerive pkg hmac512 hash160 hdPrivToPubKeyIDs i =
      if n ≤ k.leftNumber pkg hmac512 i then .ok (.error .invalidChild)
      else match childPublic pkg (publicBytes pkg k.key) (pkg.scalarSetByteSlice
          ((hmac512 k.chainCode (publicBytes pkg k.key ++ beBytes 4 i.toNat)).bytes.take 32)).1 with
        | .error err => .ok (.error err)
        | .ok childKey => .ok (.ok (newExtendedKey version childKey
          ((hmac512 k.chainCode (publicBytes pkg k.key ++ beBytes 4 i.toNat)).bytes.drop 32)
          ((hash160 (publicBytes pkg k.key)).bytes.take 4) (k.depth + 1) i false)) := by
  rw [neuterDerive, neuter_private hk.isPrivate hk.pubKey hversion]
  dsimp only
  have hderive : (newExtendedKey version (publicBytes pkg k.key) k.chainCode k.parentFP k.depth k.childNum false).derive
      pkg hmac512 hash160 i = _ := derive_public doc rfl (length_publicBytes _) hk.depth_ne hi
  rw [hderive, leftNumber_normal hi]
  dsimp only [newExtendedKey]
  rw [ok_bind]
  split_ifs with hbig
  · rfl
  · split <;> rfl

/-- `Neuter` of the private child. -/
theorem deriveNeuter_eq (hk : IsPrivateKey pkg n k)
    (hversion : hdPrivateKeyToPublicKeyID hdPrivToPubKeyIDs k.version = .ok version) :
    k.deriveNeuter pkg hmac512 hash160 hdPrivToPubKeyIDs i =
      if n ≤ k.leftNumber pkg hmac512 i then .ok (.error .invalidChild)
      else .ok (.ok (newExtendedKey version (publicBytes pkg (k.privateChild pkg hmac512 hash160 n i).key)
        ((hmac512 k.chainCode (k.serialized pkg i)).bytes.drop 32) ((hash160 (publicBytes pkg k.key)).bytes.take 4)
        (k.depth + 1) i false)) := by
  obtain ⟨k', hderive⟩ : ∃ k', k.derive pkg hmac512 hash160 i = .ok (if n ≤ k.leftNumber pkg hmac512 i
      then .error .invalidChild else .ok (k.privateChild pkg hmac512 hash160 n i), k') := derive_private doc hk
  rw [deriveNeuter, hderive, ok_bind]
  split_ifs with hbig
  · rfl
  · dsimp only
    have hneuter : ((k.privateChild pkg hmac512 hash160 n i).neuter pkg hdPrivToPubKeyIDs).1 = _ :=
      neuter_private rfl (.inl rfl) hversion
    rw [hneuter]
    rfl

/-- The key of the private child, if it is not zero, is the sum in the group. -/
theorem publicBytes_privateChild (hsum : (k.leftNumber pkg hmac512 i + beNat k.key) % n ≠ 0) :
    publicBytes pkg (k.privateChild pkg hmac512 hash160 n i).key =
      doc.compressed ((k.leftNumber pkg hmac512 i : ZMod n) • doc.G + (beNat k.key : ZMod n) • doc.G) := by
  have hlt : (k.leftNumber pkg hmac512 i + beNat k.key) % n < 256 ^ 32 :=
    (Nat.mod_lt _ doc.order_pos).trans_le (doc.order_le.trans (by norm_num))
  have hcast : (((k.leftNumber pkg hmac512 i + beNat k.key) % n : ℕ) : ZMod n) =
      (k.leftNumber pkg hmac512 i : ZMod n) + (beNat k.key : ZMod n) := by
    rw [ZMod.natCast_mod, Nat.cast_add]
  have hne : (((k.leftNumber pkg hmac512 i + beNat k.key) % n : ℕ) : ZMod n) ≠ 0 := by
    rw [ne_eq, ZMod.natCast_eq_zero_iff]
    exact Nat.not_dvd_of_pos_of_lt (Nat.pos_of_ne_zero hsum) (Nat.mod_lt _ doc.order_pos)
  rw [privateChild, newExtendedKey, publicBytes_eq doc (natBytes_length_le hlt) (by rw [beNat_natBytes]; exact hne),
    beNat_natBytes, hcast, add_smul]

theorem agree_of_usable (hk : IsPrivateKey pkg n k) (hi : i < hardenedKeyStart)
    (h : k.Usable pkg hmac512 hdPrivToPubKeyIDs n i) :
    Agree (k.deriveNeuter pkg hmac512 hash160 hdPrivToPubKeyIDs i)
      (k.neuterDerive pkg hmac512 hash160 hdPrivToPubKeyIDs i) := by
  obtain ⟨hregistered, hleft⟩ := h
  obtain ⟨version, hversion⟩ := hregistered hi
  rw [deriveNeuter_eq doc hk hversion, neuterDerive_eq doc hk hi hversion]
  by_cases hbig : n ≤ k.leftNumber pkg hmac512 i
  · rw [if_pos hbig, if_pos hbig]
    exact .inl ⟨rfl, rfl⟩
  · obtain ⟨hsum, hne⟩ := hleft.resolve_left hbig
    have hleft' : k.leftNumber pkg hmac512 i = _ := leftNumber_normal hi
    have hil := length_left (hmac512 k.chainCode (publicBytes pkg k.key ++ beBytes 4 i.toNat))
    have hpub := publicBytes_eq doc hk.length_le hk.cast_ne_zero
    have hzero : (k.leftNumber pkg hmac512 i : ZMod n) ≠ 0 := by
      rw [ne_eq, ZMod.natCast_eq_zero_iff]
      exact Nat.not_dvd_of_pos_of_lt (Nat.pos_of_ne_zero (hne hi)) (Nat.lt_of_not_le hbig)
    have hpoint : (k.leftNumber pkg hmac512 i : ZMod n) • doc.G + (beNat k.key : ZMod n) • doc.G ≠ 0 := by
      rw [← add_smul, ← Nat.cast_add]
      apply doc.smul_G_ne_zero
      rw [ne_eq, ZMod.natCast_eq_zero_iff]
      exact fun hdvd => hsum (Nat.mod_eq_zero_of_dvd hdvd)
    have hchild : childPublic pkg (publicBytes pkg k.key) (pkg.scalarSetByteSlice
        ((hmac512 k.chainCode (publicBytes pkg k.key ++ beBytes 4 i.toNat)).bytes.take 32)).1 =
        .ok (doc.compressed ((k.leftNumber pkg hmac512 i : ZMod n) • doc.G + (beNat k.key : ZMod n) • doc.G)) := by
      rw [hleft'] at hzero hpoint ⊢
      have heq := childPublic_eq doc hil hzero (doc.smul_G_ne_zero hk.cast_ne_zero) hpoint
      rwa [← hpub] at heq
    rw [if_neg hbig, if_neg hbig, hchild]
    refine .inr ⟨_, _, rfl, rfl, publicBytes_privateChild doc hsum, ?_, rfl, rfl, rfl⟩
    rw [serialized, if_neg (UInt32.not_le.mpr hi)]
    rfl

/-- The two ways to a public child agree, and the private child is not zero, exactly where the left half is usable. -/
theorem derive_neuter_iff (hk : IsPrivateKey pkg n k) :
    k.Commutes pkg hmac512 hash160 hdPrivToPubKeyIDs i ↔ k.Usable pkg hmac512 hdPrivToPubKeyIDs n i := by
  obtain ⟨k', hderive⟩ : ∃ k', k.derive pkg hmac512 hash160 i = .ok (if n ≤ k.leftNumber pkg hmac512 i
      then .error .invalidChild else .ok (k.privateChild pkg hmac512 hash160 n i), k') := derive_private doc hk
  constructor
  · rintro ⟨hagree, hzero⟩
    have hregistered : i < hardenedKeyStart →
        ∃ version, hdPrivateKeyToPublicKeyID hdPrivToPubKeyIDs k.version = .ok version := by
      intro hi
      cases hversion : hdPrivateKeyToPublicKeyID hdPrivToPubKeyIDs k.version with
      | ok version => exact ⟨version, rfl⟩
      | error err =>
        have herr : err = .unknownHDKeyID := by
          rw [hdPrivateKeyToPublicKeyID] at hversion
          split_ifs at hversion
          · exact (Except.error.inj hversion).symm
          · split at hversion
            · exact (Except.error.inj hversion).symm
            · cases hversion
        have hneuter : k.neuterDerive pkg hmac512 hash160 hdPrivToPubKeyIDs i = .ok (.error .unknownHDKeyID) := by
          rw [neuterDerive, neuter, if_neg (by rw [hk.isPrivate]; decide), hversion, herr]
        rcases hagree hi with ⟨-, h⟩ | ⟨c, c', -, h, -⟩
        · rw [hneuter] at h
          cases h
        · rw [hneuter] at h
          cases h
    refine ⟨hregistered, ?_⟩
    by_cases hbig : n ≤ k.leftNumber pkg hmac512 i
    · exact .inl hbig
    · rw [if_neg hbig] at hderive
      refine .inr ⟨?_, fun hi hleft => ?_⟩
      · have hchild := hzero _ k' hderive
        rwa [privateChild, newExtendedKey, beNat_natBytes] at hchild
      · -- the private way succeeds and the public one does not
        obtain ⟨version, hversion⟩ := hregistered hi
        have hil := length_left (hmac512 k.chainCode (publicBytes pkg k.key ++ beBytes 4 i.toNat))
        have hpublic : k.neuterDerive pkg hmac512 hash160 hdPrivToPubKeyIDs i = _ := neuterDerive_eq doc hk hi hversion
        rw [if_neg hbig, childPublic_zero doc hil (by rw [← leftNumber_normal hi, hleft, Nat.cast_zero])] at hpublic
        have hprivate : k.deriveNeuter pkg hmac512 hash160 hdPrivToPubKeyIDs i = _ := deriveNeuter_eq doc hk hversion
        rw [if_neg hbig] at hprivate
        rcases hagree hi with ⟨h, -⟩ | ⟨c, c', -, h, -⟩
        · rw [hprivate] at h
          cases h
        · rw [hpublic] at h
          cases h
  · intro h
    refine ⟨fun hi => agree_of_usable doc hk hi h, fun child k'' hok => ?_⟩
    rw [hderive] at hok
    split_ifs at hok with hbig
    · cases hok
    · cases hok
      rw [privateChild, newExtendedKey, beNat_natBytes]
      exact (h.2.resolve_left hbig).1

end Commute

/-- The private key 1. -/
def keyOne : ExtendedKey := newExtendedKey [1, 2, 3, 4] [1] [] [0, 0, 0, 0] 0 0 true

/-- A keyed hash that always has the same left half. -/
def constantHmac (left : Nat) (_ _ : Bytes) : FixedBytes 64 where
  bytes := beBytes 32 left ++ replicate 32 7
  length_eq := by rw [length_append, beBytes_length, length_replicate]

theorem isPrivateKey_keyOne : IsPrivateKey logCurve groupOrder keyOne where
  isPrivate := rfl
  length_le := by decide
  pos := by decide
  lt := by decide
  depth_ne := by decide
  pubKey := .inl rfl

/-- With a left half of 5 the two ways agree on the child of the key 1. -/
theorem derive_neuter_iff_five :
    keyOne.Commutes logCurve (constantHmac 5) (fun _ => FixedBytes.zero 20) (fun _ => some [4, 3, 2, 1]) 0 := by
  refine (derive_neuter_iff logCurve.group isPrivateKey_keyOne).mpr ⟨fun _ => ⟨[4, 3, 2, 1], rfl⟩, .inr ⟨?_, fun _ => ?_⟩⟩
  · decide
  · decide

/-- A left half of zero gives a private child and no public one, and a left half that is the opposite of the key gives a
private child without a key. -/
theorem zero_not_refused :
    (∃ c, keyOne.deriveNeuter logCurve (constantHmac 0) (fun _ => FixedBytes.zero 20) (fun _ => some [4, 3, 2, 1]) 0 =
        .ok (.ok c)) ∧
      keyOne.neuterDerive logCurve (constantHmac 0) (fun _ => FixedBytes.zero 20) (fun _ => some [4, 3, 2, 1]) 0 =
        .ok (.error .invalidChild) ∧
      ∃ child k', keyOne.derive logCurve (constantHmac (groupOrder - 1)) (fun _ => FixedBytes.zero 20) 0 =
        .ok (.ok child, k') ∧ child.key = [] := by
  refine ⟨?_, by decide, ?_⟩
  · rw [deriveNeuter_eq logCurve.group isPrivateKey_keyOne rfl, if_neg (by decide)]
    exact ⟨_, rfl⟩
  · obtain ⟨k', hk'⟩ : ∃ k', keyOne.derive logCurve (constantHmac (groupOrder - 1)) (fun _ => FixedBytes.zero 20) 0 = _ :=
      derive_private logCurve.group isPrivateKey_keyOne
    rw [if_neg (by decide)] at hk'
    exact ⟨_, k', hk', by decide⟩

end ExtendedKey
end NogoCommons.Hdkeychain
