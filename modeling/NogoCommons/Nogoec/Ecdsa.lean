import NogoCommons.Lib.Go
import NogoCommons.Lib.Strings
import NogoCommons.Nogoec.Curve

/-!
# `nogoec/ecdsa` — signatures in DER

`parseSig` reads `0x30 len 0x02 rlen R 0x02 slen S`. The three lengths come from the input, and every index and slice
expression is behind a test of the one before it, so that none leaves the input (`parseSig_ok`); the addition `siglen+2`
is on bytes, but a sum that wraps is too small for the test that follows it.

With `der` the two numbers have to be in their shortest form, and the input is no longer than the longest signature.
What stands after the `len` bytes is cut off before it is looked at, in both modes: signatures with such bytes are on the
chain, and the tests of the package have one. So a signature has one form up to what follows it, and not one form.
-/

namespace NogoCommons.Nogoec.Ecdsa
open Lib List

def minSigLen : Nat := 8
def maxSigLen : Nat := 72

inductive PaddingError
  | negativeValue
  | excessivelyPaddedValue
deriving DecidableEq, Repr

/-- Which of the two numbers. -/
inductive Part
  | r
  | s
deriving DecidableEq, Repr

def Part.name : Part → String
  | .r => "R"
  | .s => "S"

def Part.ordinal : Part → String
  | .r => "1st"
  | .s => "2nd"

inductive SigError
  | tooShort
  | tooLong
  | noHeaderMagic
  | badLength
  | noIntMarker (part : Part)
  | bogusLength (part : Part)
  | negative (part : Part)
  | excessivelyPadded (part : Part)
  | tooLarge (part : Part)
  | notBelowOrder (part : Part)
  | zero (part : Part)
  | badFinalLength (index len : Nat)
  | highS
deriving DecidableEq, Repr

def SigError.text : SigError → String
  | .tooShort => "malformed signature: too short"
  | .tooLong => "malformed signature: too long"
  | .noHeaderMagic => "malformed signature: no header magic"
  | .badLength => "malformed signature: bad length"
  | .noIntMarker part => s!"malformed signature: no {part.ordinal} int marker"
  | .bogusLength part => s!"malformed signature: bogus {part.name} length"
  | .negative part => s!"signature {part.name} is negative"
  | .excessivelyPadded part => s!"signature {part.name} is excessively padded"
  | .tooLarge part => s!"invalid signature: {part.name} is larger than 256 bits"
  | .notBelowOrder part => s!"invalid signature: {part.name} >= group order"
  | .zero part => s!"invalid signature: {part.name} is 0"
  | .badFinalLength index len => s!"malformed signature: bad final length {index} != {len}"
  | .highS => "non-canonical signature: S value not in low-S form"

def canonicalPadding (b : Bytes) : Go (Option PaddingError) := do
  let first ← elemAt b 0
  if first &&& 0x80 = 0x80 then pure (some .negativeValue)
  else if 1 < b.length ∧ first = 0 then
    let second ← elemAt b 1
    pure (if second &&& 0x80 ≠ 0x80 then some .excessivelyPaddedValue else none)
  else pure none

variable (pkg : Curve)

structure Signature where
  r : pkg.ModNScalar
  s : pkg.ModNScalar

/-- What `canonicalPadding` says of a number, where it is asked. -/
def paddingError (part : Part) (der : Bool) (b : Bytes) : Go (Option SigError) :=
  if der then do
    match ← canonicalPadding b with
    | some .negativeValue => pure (some (.negative part))
    | some .excessivelyPaddedValue => pure (some (.excessivelyPadded part))
    | none => pure none
  else pure none

/-- A number in `[1, N-1]`. -/
def parseScalar (part : Part) (b : Bytes) : Except SigError pkg.ModNScalar :=
  let b := b.dropWhile (· == 0)
  if 32 < b.length then .error (.tooLarge part)
  else
    let v := pkg.scalarSetByteSlice b
    if v.2 then .error (.notBelowOrder part)
    else if pkg.scalarIsZero v.1 then .error (.zero part)
    else .ok v.1

/-- The part of `parseSig` for one of the numbers, which stands there twice: the marker at `index`, the length, and the
number, which has to leave `spare` bytes. The result has the index after it. -/
def parseInteger (part : Part) (spare : Nat) (der : Bool) (sigStr : Bytes) (index : Nat) :
    Go (Except SigError (pkg.ModNScalar × Nat)) := do
  let marker ← elemAt sigStr index
  if marker ≠ 2 then pure (.error (.noIntMarker part))
  else
    let len ← elemAt sigStr (index + 1)
    if (len.toNat : Int) ≤ 0 ∨ (sigStr.length : Int) - ↑(index + 2) - spare < len.toNat then
      pure (.error (.bogusLength part))
    else
      let number ← slice sigStr (index + 2) (index + 2 + len.toNat)
      match ← paddingError part der number with
      | some e => pure (.error e)
      | none =>
        match parseScalar pkg part number with
        | .error e => pure (.error e)
        | .ok v => pure (.ok (v, index + 2 + len.toNat))

def parseSig (sigStr : Bytes) (der : Bool) : Go (Except SigError (Signature pkg)) := do
  let totalSigLen := sigStr.length
  if totalSigLen < minSigLen then pure (.error .tooShort)
  else if der ∧ maxSigLen < totalSigLen then pure (.error .tooLong)
  else
    let magic ← elemAt sigStr 0
    if magic ≠ 0x30 then pure (.error .noHeaderMagic)
    else
      let siglen ← elemAt sigStr 1
      -- the sum is a byte
      if sigStr.length < (siglen + 2).toNat ∨ (siglen + 2).toNat < minSigLen then pure (.error .badLength)
      else
        let sigStr ← slice sigStr 0 (siglen + 2).toNat
        match ← parseInteger pkg .r 3 der sigStr 2 with
        | .error e => pure (.error e)
        | .ok (r, index) =>
          match ← parseInteger pkg .s 0 der sigStr index with
          | .error e => pure (.error e)
          | .ok (s, index) =>
            if index ≠ sigStr.length then pure (.error (.badFinalLength index sigStr.length))
            else pure (.ok ⟨r, s⟩)

/-- `VerifyLowS`; `none` is the nil error. -/
def verifyLowS (sigStr : Bytes) : Go (Option SigError) := do
  match ← parseSig pkg sigStr true with
  | .error e => pure (some e)
  | .ok sig => pure (if pkg.scalarIsOverHalfOrder sig.s then some .highS else none)

/-! ## Strict DER -/

/-- The shortest form of a number that is not read as negative. -/
def derInteger (v : Nat) : Bytes :=
  match natBytes v with
  | [] => [0]
  | b :: bs => if 0x80 ≤ b then 0 :: b :: bs else b :: bs

def derSignature (r s : Nat) : Bytes :=
  let R := derInteger r
  let S := derInteger s
  0x30 :: UInt8.ofNat (4 + R.length + S.length) :: 2 :: UInt8.ofNat R.length ::
    (R ++ 2 :: UInt8.ofNat S.length :: S)

/-- The bytes are the signature of two numbers in their ranges, with the second in the lower half, and nothing else. -/
def StrictLowS (b : Bytes) : Prop :=
  ∃ r s, 1 ≤ r ∧ r < groupOrder ∧ 1 ≤ s ∧ s ≤ groupOrder / 2 ∧ b = derSignature r s

/-! ### Numbers -/

theorem signBit_iff (b : UInt8) : b &&& 0x80 = 0x80 ↔ 0x80 ≤ b := by
  apply forall_byte (p := fun b => b &&& 0x80 = 0x80 ↔ 0x80 ≤ b)
  decide +kernel

theorem beNat_derInteger (v : Nat) : beNat (derInteger v) = v := by
  have hv := beNat_natBytes v
  rw [derInteger]
  cases hb : natBytes v with
  | nil =>
    rw [hb] at hv
    rw [← hv]
    rfl
  | cons b bs =>
    rw [hb] at hv
    dsimp only
    split_ifs
    · rw [beNat_cons, hv]
      simp
    · exact hv

theorem canonicalPadding_cons (first : UInt8) (rest : Bytes) :
    canonicalPadding (first :: rest) = .ok (if 0x80 ≤ first then some .negativeValue
      else if first = 0 ∧ rest.head?.any (· < 0x80) then some .excessivelyPaddedValue else none) := by
  simp only [← signBit_iff]
  cases rest with
  | nil =>
    simp only [canonicalPadding, elemAt, getElem?_cons_zero, ok_bind, length_singleton, lt_irrefl, false_and,
      if_false, head?_nil, Option.any_none, Bool.false_eq_true, and_false]
    split_ifs <;> rfl
  | cons second rest =>
    have hlen : 1 < (first :: second :: rest).length := by simp
    have hsecond : second &&& 0x80 ≠ 0x80 ↔ second < 0x80 := by rw [Ne, signBit_iff, UInt8.not_le]
    simp only [canonicalPadding, elemAt, getElem?_cons_zero, getElem?_cons_succ, ok_bind, hlen, true_and,
      head?_cons, Option.any_some, decide_eq_true_eq, hsecond]
    split_ifs <;> first | rfl | tauto

theorem canonicalPadding_derInteger (v : Nat) : canonicalPadding (derInteger v) = .ok none := by
  have hhead := natBytes_head v
  rw [derInteger]
  cases hb : natBytes v with
  | nil => rfl
  | cons b bs =>
    rw [hb, head?_cons] at hhead
    have hne : b ≠ 0 := fun h => hhead (congrArg some h)
    dsimp only
    split_ifs with hsign
    · simp [canonicalPadding_cons, hsign]
    · simp [canonicalPadding_cons, hsign, hne]

variable {b : Bytes} {part : Part}

/-- **The padding is right in the shortest form only.** -/
theorem eq_derInteger (h : canonicalPadding b = .ok none) : b = derInteger (beNat b) := by
  cases b with
  | nil => cases h
  | cons first rest =>
    rw [canonicalPadding_cons, Except.ok.injEq] at h
    split_ifs at h with hsign hzero
    by_cases hfirst : first = 0
    · have hval : beNat (first :: rest) = beNat rest := by rw [hfirst, beNat_cons]; simp
      rw [hval, derInteger]
      cases rest with
      | nil => rw [hfirst, beNat_nil, natBytes_zero]
      | cons second rest =>
        have hsecond : 0x80 ≤ second := by
          by_contra hlt
          exact hzero ⟨hfirst, by simpa using hlt⟩
        have hne : second ≠ 0 := fun hz => by rw [hz] at hsecond; cases hsecond
        rw [natBytes_beNat (by simpa using hne)]
        dsimp only
        rw [if_pos hsecond, hfirst]
    · rw [derInteger, natBytes_beNat (by simpa using hfirst)]
      dsimp only
      rw [if_neg hsign]

theorem derInteger_length_le {v : Nat} (h : v < groupOrder) : 0 < (derInteger v).length ∧ (derInteger v).length ≤ 33 := by
  have hlen : (natBytes v).length ≤ 32 := natBytes_length_le (h.trans (by decide))
  rw [derInteger]
  cases hb : natBytes v with
  | nil => decide
  | cons b bs =>
    rw [hb, length_cons] at hlen
    dsimp only
    split_ifs <;> simp only [length_cons] <;> omega

variable {pkg}

theorem parseScalar_eq_ok (doc : pkg.Scalars) {v : pkg.ModNScalar} : parseScalar pkg part b = .ok v ↔
      1 ≤ beNat b ∧ beNat b < groupOrder ∧ v = (pkg.scalarSetByteSlice (natBytes (beNat b))).1 := by
  rw [parseScalar, ← natBytes_beNat_eq_dropWhile]
  by_cases hlen : (natBytes (beNat b)).length ≤ 32
  · have hover := doc.setByteSlice_overflow _ hlen
    have hvalue := doc.setByteSlice_value _ hlen
    have hzero := doc.isZero_iff (pkg.scalarSetByteSlice (natBytes (beNat b))).1
    rw [beNat_natBytes] at hover hvalue
    rw [hvalue] at hzero
    rw [if_neg (by omega)]
    by_cases hlt : beNat b < groupOrder
    · rw [Nat.mod_eq_of_lt hlt] at hzero
      rw [if_neg (by rw [hover]; omega)]
      split_ifs with hz
      · rw [hzero] at hz
        simp [hz]
      · rw [hzero] at hz
        rw [Except.ok.injEq]
        constructor
        · intro h
          exact ⟨by omega, hlt, h.symm⟩
        · rintro ⟨-, -, h⟩
          exact h.symm
    · rw [if_pos (hover.mpr (by omega))]
      simp [hlt]
  · have hnot : ¬ beNat b < groupOrder := fun hlt => hlen (natBytes_length_le (hlt.trans (by decide)))
    rw [if_pos (by omega)]
    simp [hnot]

/-! ### No index leaves the input -/

theorem slice_bind {α : Type} {data : Bytes} {lo hi : Nat} {f : Bytes → Go α} (h : lo ≤ hi) (h' : hi ≤ data.length) :
    (slice data lo hi >>= f) = f ((data.drop lo).take (hi - lo)) := by
  rw [slice_ok h h', ok_bind]

theorem paddingError_ok (part : Part) (der : Bool) (h : b ≠ []) : ∃ e, paddingError part der b = .ok e := by
  obtain ⟨first, rest, rfl⟩ := exists_cons_of_ne_nil h
  cases der with
  | false => exact ⟨_, rfl⟩
  | true =>
    rw [paddingError, if_pos rfl, canonicalPadding_cons, ok_bind]
    split <;> exact ⟨_, rfl⟩

variable (pkg) in
theorem parseInteger_ok (part : Part) (spare : Nat) (der : Bool) {sigStr : Bytes} {index : Nat}
    (h : index + 1 < sigStr.length) :
    ∃ res, parseInteger pkg part spare der sigStr index = .ok res ∧
      ∀ v next, res = .ok (v, next) → next + spare ≤ sigStr.length := by
  obtain ⟨marker, hmarker⟩ : ∃ c, elemAt sigStr index = .ok c := ⟨_, elemAt_of_lt (by omega)⟩
  obtain ⟨len, hlen⟩ : ∃ c, elemAt sigStr (index + 1) = .ok c := ⟨_, elemAt_of_lt h⟩
  rw [parseInteger, hmarker, ok_bind]
  split_ifs with hm
  · exact ⟨_, rfl, fun _ _ h => by cases h⟩
  rw [hlen, ok_bind]
  split_ifs with hl
  · exact ⟨_, rfl, fun _ _ h => by cases h⟩
  rw [not_or] at hl
  rw [slice_bind (by omega) (by omega)]
  obtain ⟨e, he⟩ := paddingError_ok part der (b := (sigStr.drop (index + 2)).take (index + 2 + len.toNat - (index + 2)))
    (by rw [← length_pos_iff, length_take, length_drop]; omega)
  rw [he, ok_bind]
  cases e with
  | some e => exact ⟨_, rfl, fun _ _ h => by cases h⟩
  | none =>
    dsimp only
    split
    · exact ⟨_, rfl, fun _ _ h => by cases h⟩
    · refine ⟨_, rfl, fun v next h => ?_⟩
      cases h
      omega

theorem parseSig_ok (b : Bytes) (der : Bool) : ∃ res, parseSig pkg b der = .ok res := by
  rw [parseSig]
  split_ifs with hshort hlong
  · exact ⟨_, rfl⟩
  · exact ⟨_, rfl⟩
  have hmin : 8 ≤ b.length := not_lt.mp hshort
  obtain ⟨magic, hmagic⟩ : ∃ c, elemAt b 0 = .ok c := ⟨_, elemAt_of_lt (by omega)⟩
  obtain ⟨siglen, hsiglen⟩ : ∃ c, elemAt b 1 = .ok c := ⟨_, elemAt_of_lt (by omega)⟩
  rw [hmagic, ok_bind]
  split_ifs with hm
  · exact ⟨_, rfl⟩
  rw [hsiglen, ok_bind]
  split_ifs with hl
  · exact ⟨_, rfl⟩
  rw [not_or] at hl
  have hl2 : 8 ≤ (siglen + 2).toNat := not_lt.mp hl.2
  rw [slice_bind (by omega) (by omega), drop_zero, Nat.sub_zero]
  have htake : (b.take (siglen + 2).toNat).length = (siglen + 2).toNat := length_take_of_le (by omega)
  obtain ⟨res, hres, hnext⟩ := parseInteger_ok pkg .r 3 der (show 2 + 1 < (b.take (siglen + 2).toNat).length by omega)
  rw [hres, ok_bind]
  rcases res with e | ⟨r, index⟩
  · exact ⟨_, rfl⟩
  have hindex := hnext r index rfl
  obtain ⟨res', hres', -⟩ := parseInteger_ok pkg .s 0 der
    (show index + 1 < (b.take (siglen + 2).toNat).length by omega)
  dsimp only
  rw [hres', ok_bind]
  rcases res' with e | ⟨s, index'⟩
  · exact ⟨_, rfl⟩
  · dsimp only
    split_ifs <;> exact ⟨_, rfl⟩

/-! ### What is accepted -/

theorem paddingError_eq_none : paddingError part true b = .ok none ↔ canonicalPadding b = .ok none := by
  rw [paddingError, if_pos rfl, bind_eq_ok]
  constructor
  · rintro ⟨e, he, h⟩
    rcases e with - | - | -
    · exact he
    · cases h
    · cases h
  · intro h
    exact ⟨none, h, rfl⟩

/-- **A number is accepted in its shortest form and no other.** -/
theorem parseInteger_eq_ok (doc : pkg.Scalars) {spare : Nat} {sigStr : Bytes} {index : Nat} {v : pkg.ModNScalar}
    {next : Nat} :
    parseInteger pkg part spare true sigStr index = .ok (.ok (v, next)) ↔
      ∃ m tail, 1 ≤ m ∧ m < groupOrder ∧
        sigStr.drop index = 2 :: UInt8.ofNat (derInteger m).length :: (derInteger m ++ tail) ∧ spare ≤ tail.length ∧
        v = (pkg.scalarSetByteSlice (natBytes m)).1 ∧ next = index + 2 + (derInteger m).length := by
  have hdrop1 : sigStr.drop (index + 1) = (sigStr.drop index).drop 1 := by rw [drop_drop]
  have hdrop2 : sigStr.drop (index + 2) = (sigStr.drop index).drop 2 := by rw [drop_drop]
  have hlength : (sigStr.drop index).length = sigStr.length - index := length_drop
  rw [parseInteger]
  constructor
  · intro h
    obtain ⟨marker, hmarker, h⟩ := bind_eq_ok.mp h
    obtain ⟨rest, hrest⟩ := elemAt_eq_ok.mp hmarker
    split_ifs at h with hm
    · cases h
    rw [not_not] at hm
    obtain ⟨len, hlen, h⟩ := bind_eq_ok.mp h
    obtain ⟨rest', hrest'⟩ := elemAt_eq_ok.mp hlen
    rw [hdrop1, hrest] at hrest'
    have hrest' : rest = len :: rest' := hrest'
    rw [hrest, hrest', length_cons, length_cons] at hlength
    split_ifs at h with hl
    · cases h
    rw [not_or] at hl
    rw [slice_bind (by omega) (by omega), hdrop2, hrest, hrest', Nat.add_sub_cancel_left] at h
    change (paddingError part true (rest'.take len.toNat) >>= _) = _ at h
    obtain ⟨e, he, h⟩ := bind_eq_ok.mp h
    cases e with
    | some e => cases h
    | none =>
      have hder := eq_derInteger (paddingError_eq_none.mp he)
      have hnum : (rest'.take len.toNat).length = len.toNat := length_take_of_le (by omega)
      dsimp only at h
      split at h
      · cases h
      · rename_i v' hv
        cases h
        obtain ⟨hpos, hlt, hv⟩ := (parseScalar_eq_ok doc).mp hv
        refine ⟨beNat (rest'.take len.toNat), rest'.drop len.toNat, hpos, hlt, ?_, ?_, hv, ?_⟩
        · rw [← hder, take_append_drop, hnum, UInt8.ofNat_toNat, hrest, hrest', hm]
        · rw [length_drop]
          omega
        · rw [← hder, hnum]
  · rintro ⟨m, tail, hpos, hlt, hrest, hspare, rfl, rfl⟩
    obtain ⟨hlen1, hlen⟩ := derInteger_length_le hlt
    have hbyte : (UInt8.ofNat (derInteger m).length).toNat = (derInteger m).length := by
      rw [UInt8.toNat_ofNat']
      omega
    rw [hrest, length_cons, length_cons, length_append] at hlength
    have hnumber : (sigStr.drop (index + 2)).take (derInteger m).length = derInteger m := by
      rw [hdrop2, hrest]
      exact take_left
    rw [hrest] at hdrop1
    rw [elemAt_eq_ok.mpr ⟨_, hrest⟩, ok_bind, if_neg (by decide), elemAt_eq_ok.mpr ⟨_, hdrop1⟩, ok_bind, hbyte,
      if_neg (by omega), slice_bind (by omega) (by omega), Nat.add_sub_cancel_left, hnumber,
      paddingError_eq_none.mpr (canonicalPadding_derInteger m), ok_bind]
    have hscalar : parseScalar pkg part (derInteger m) = .ok (pkg.scalarSetByteSlice (natBytes m)).1 := by
      rw [parseScalar_eq_ok doc, beNat_derInteger]
      exact ⟨hpos, hlt, rfl⟩
    rw [hscalar]
    rfl

theorem length_derSignature (r s : Nat) :
    (derSignature r s).length = 6 + (derInteger r).length + (derInteger s).length := by
  simp only [derSignature, length_cons, length_append]
  omega

/-- The two bytes in front of the numbers are right for their lengths. -/
theorem header_length {k : Nat} (h : k ≤ 70) : (UInt8.ofNat k + 2).toNat = k + 2 := by
  rw [UInt8.toNat_add, UInt8.toNat_ofNat']
  simp only [UInt8.reduceToNat]
  omega

theorem parseSig_eq_ok (doc : pkg.Scalars) {sig : Signature pkg} : parseSig pkg b true = .ok (.ok sig) ↔
      ∃ r s tail, 1 ≤ r ∧ r < groupOrder ∧ 1 ≤ s ∧ s < groupOrder ∧ b = derSignature r s ++ tail ∧ b.length ≤ maxSigLen ∧
        sig = ⟨(pkg.scalarSetByteSlice (natBytes r)).1, (pkg.scalarSetByteSlice (natBytes s)).1⟩ := by
  rw [parseSig]
  constructor
  · intro h
    split_ifs at h with hshort hlong
    · cases h
    · cases h
    have hmax : b.length ≤ maxSigLen := by simpa using hlong
    have hmax' : b.length ≤ 72 := hmax
    obtain ⟨magic, hmagic, h⟩ := bind_eq_ok.mp h
    obtain ⟨rest, hb⟩ := elemAt_eq_ok.mp hmagic
    split_ifs at h with hm
    · cases h
    rw [not_not] at hm
    obtain ⟨siglen, hsiglen, h⟩ := bind_eq_ok.mp h
    obtain ⟨rest', hrest⟩ := elemAt_eq_ok.mp hsiglen
    split_ifs at h with hl
    · cases h
    rw [not_or] at hl
    have hl2 : 8 ≤ (siglen + 2).toNat := not_lt.mp hl.2
    have hsum : (siglen + 2).toNat = siglen.toNat + 2 := by
      have := siglen.toNat_lt
      rw [UInt8.toNat_add] at hl2 ⊢
      simp only [UInt8.reduceToNat] at hl2 ⊢
      omega
    rw [slice_bind (by omega) (by omega), drop_zero, Nat.sub_zero] at h
    have htake : (b.take (siglen + 2).toNat).length = (siglen + 2).toNat := length_take_of_le (by omega)
    -- what is left of the input after the trim
    obtain ⟨res, hres, h⟩ := bind_eq_ok.mp h
    rcases res with e | ⟨vr, index⟩
    · cases h
    obtain ⟨r, tail, hr, hrn, hdrop, hspare, rfl, rfl⟩ := (parseInteger_eq_ok doc).mp hres
    dsimp only at h
    obtain ⟨res', hres', h⟩ := bind_eq_ok.mp h
    rcases res' with e | ⟨vs, index⟩
    · cases h
    obtain ⟨s, tail', hs, hsn, hdrop', -, rfl, rfl⟩ := (parseInteger_eq_ok doc).mp hres'
    dsimp only at h
    split_ifs at h with hend
    · cases h
    cases h
    rw [not_not, htake] at hend
    have htail : tail = 2 :: UInt8.ofNat (derInteger s).length :: (derInteger s ++ tail') := by
      rw [← hdrop', Nat.add_assoc, ← drop_drop, hdrop, ← drop_drop]
      exact drop_left.symm
    have hlength : (siglen + 2).toNat = 2 + (2 + (derInteger r).length + tail.length) := by
      have hlen := congrArg length hdrop
      rw [length_drop, htake, length_cons, length_cons, length_append] at hlen
      omega
    have htail' : tail' = [] := by
      rw [htail, length_cons, length_cons, length_append] at hlength
      exact eq_nil_of_length_eq_zero (by omega)
    have hlen : siglen = UInt8.ofNat (4 + (derInteger r).length + (derInteger s).length) := by
      rw [← UInt8.toNat_inj, UInt8.toNat_ofNat']
      have := siglen.toNat_lt
      omega
    have htrim : b.take (siglen + 2).toNat = derSignature r s := by
      have hsplit : b.take (siglen + 2).toNat = magic :: siglen :: (b.take (siglen + 2).toNat).drop 2 := by
        rw [drop_zero] at hb
        rw [hb, drop_one, tail_cons] at hrest
        obtain ⟨k, hk⟩ := Nat.exists_eq_add_of_le (show 2 ≤ (siglen + 2).toNat by omega)
        rw [hb, hrest, hk, Nat.add_comm]
        rfl
      rw [hsplit, hdrop, htail, htail', append_nil, hm, hlen]
      rfl
    refine ⟨r, s, b.drop (siglen + 2).toNat, hr, hrn, hs, hsn, ?_, hmax, rfl⟩
    rw [← htrim, take_append_drop]
  · rintro ⟨r, s, tail, hr, hrn, hs, hsn, rfl, hmax, rfl⟩
    obtain ⟨hR1, hR⟩ := derInteger_length_le hrn
    obtain ⟨hS1, hS⟩ := derInteger_length_le hsn
    have hsum := header_length (k := 4 + (derInteger r).length + (derInteger s).length) (by omega)
    have hlen := length_derSignature r s
    have hlong : ¬ (true = true ∧ maxSigLen < (derSignature r s ++ tail).length) := by simpa using hmax
    have htotal : (derSignature r s ++ tail).length = 6 + (derInteger r).length + (derInteger s).length + tail.length := by
      rw [length_append, hlen]
    have hmin : minSigLen = 8 := rfl
    rw [if_neg (by omega), if_neg hlong, elemAt_eq_ok.mpr ⟨_, rfl⟩, ok_bind, if_neg (by decide),
      elemAt_eq_ok.mpr ⟨_, rfl⟩, ok_bind, hsum, if_neg (by omega), slice_bind (by omega) (by omega), drop_zero,
      Nat.sub_zero, take_left' (by omega)]
    rw [(parseInteger_eq_ok doc).mpr ⟨r, _, hr, hrn, rfl, ?_, rfl, rfl⟩, ok_bind]
    · dsimp only
      rw [(parseInteger_eq_ok doc).mpr ⟨s, [], hs, hsn, ?_, Nat.zero_le _, rfl, rfl⟩, ok_bind]
      · dsimp only
        rw [if_neg (by omega)]
        rfl
      · rw [append_nil, Nat.add_assoc, ← drop_drop, ← drop_drop]
        exact drop_left
    · simp only [length_cons]
      omega

theorem value_setByteSlice (doc : pkg.Scalars) {v : Nat} (h : v < groupOrder) :
    doc.value (pkg.scalarSetByteSlice (natBytes v)).1 = v := by
  rw [doc.setByteSlice_value _ (natBytes_length_le (h.trans (by decide))), beNat_natBytes, Nat.mod_eq_of_lt h]

theorem verifyLowS_eq_nil (doc : pkg.Scalars) : verifyLowS pkg b = .ok none ↔
      ∃ sig, parseSig pkg b true = .ok (.ok sig) ∧ doc.value sig.s ≤ groupOrder / 2 := by
  rw [verifyLowS, bind_eq_ok]
  constructor
  · rintro ⟨res, hres, h⟩
    rcases res with e | sig
    · cases h
    · refine ⟨sig, hres, ?_⟩
      by_contra hhigh
      rw [not_le, ← doc.isOverHalfOrder_iff] at hhigh
      dsimp only at h
      rw [hhigh] at h
      cases h
  · rintro ⟨sig, hres, hlow⟩
    refine ⟨_, hres, ?_⟩
    rw [← not_lt, ← doc.isOverHalfOrder_iff] at hlow
    dsimp only
    rw [if_neg hlow]
    rfl

/-- **A signature is read without an index outside of it, and one with a low `S` is accepted in its strict form, with
whatever follows.** -/
theorem verifyLowS_strict (doc : pkg.Scalars) : (∀ (b : Bytes) (der : Bool), ∃ res, parseSig pkg b der = .ok res) ∧
    (∀ b : Bytes, verifyLowS pkg b = .ok none ↔ ∃ d tail : Bytes, StrictLowS d ∧ b = d ++ tail ∧ b.length ≤ maxSigLen) ∧
    ∀ (b : Bytes) (sig : Signature pkg), verifyLowS pkg b = .ok none → parseSig pkg b true = .ok (.ok sig) →
      ∃ tail : Bytes, b = derSignature (doc.value sig.r) (doc.value sig.s) ++ tail := by
  refine ⟨parseSig_ok, fun b => ?_, fun b sig _ hsig => ?_⟩
  · rw [verifyLowS_eq_nil doc]
    constructor
    · rintro ⟨sig, hsig, hlow⟩
      obtain ⟨r, s, tail, hr, hrn, hs, hsn, hb, hmax, rfl⟩ := (parseSig_eq_ok doc).mp hsig
      rw [value_setByteSlice doc hsn] at hlow
      exact ⟨_, tail, ⟨r, s, hr, hrn, hs, hlow, rfl⟩, hb, hmax⟩
    · rintro ⟨d, tail, ⟨r, s, hr, hrn, hs, hlow, rfl⟩, hb, hmax⟩
      have hsn : s < groupOrder := hlow.trans_lt (by decide)
      refine ⟨_, (parseSig_eq_ok doc).mpr ⟨r, s, tail, hr, hrn, hs, hsn, hb, hmax, rfl⟩, ?_⟩
      rwa [value_setByteSlice doc hsn]
  · obtain ⟨r, s, tail, -, hrn, -, hsn, hb, -, rfl⟩ := (parseSig_eq_ok doc).mp hsig
    refine ⟨tail, ?_⟩
    rwa [value_setByteSlice doc hrn, value_setByteSlice doc hsn]

/-- The shortest signature, with a byte after it. -/
theorem trailingByte_accepted : verifyLowS logCurve [0x30, 6, 2, 1, 1, 2, 1, 1] = .ok none ∧
    verifyLowS logCurve [0x30, 6, 2, 1, 1, 2, 1, 1, 0] = .ok none ∧
    parseSig logCurve [0x30, 6, 2, 1, 1, 2, 1, 1] true = parseSig logCurve [0x30, 6, 2, 1, 1, 2, 1, 1, 0] true ∧
    ¬ StrictLowS [0x30, 6, 2, 1, 1, 2, 1, 1, 0] := by
  refine ⟨rfl, rfl, rfl, ?_⟩
  rintro ⟨r, s, -, -, -, -, h⟩
  have hlen := congrArg length h
  rw [length_derSignature] at hlen
  have hsum : 4 + (derInteger r).length + (derInteger s).length = 7 := by
    simp only [length_cons, length_nil] at hlen
    omega
  have hsecond := congrArg (·[1]?) h
  rw [derSignature, hsum] at hsecond
  rw [getElem?_cons_succ, getElem?_cons_zero, getElem?_cons_succ, getElem?_cons_zero] at hsecond
  cases hsecond

theorem verifyLowS_strict_shortest : verifyLowS logCurve [0x30, 6, 2, 1, 1, 2, 1, 1] = .ok none ∧
    ∃ d tail : Bytes, StrictLowS d ∧ [0x30, 6, 2, 1, 1, 2, 1, 1] = d ++ tail ∧
      [0x30, 6, 2, 1, 1, 2, 1, 1].length ≤ maxSigLen :=
  ⟨rfl, ((verifyLowS_strict logCurve.scalars).2.1 [0x30, 6, 2, 1, 1, 2, 1, 1]).mp rfl⟩

end NogoCommons.Nogoec.Ecdsa
