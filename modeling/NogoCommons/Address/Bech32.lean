import NogoCommons.Lib.Strings
import NogoCommons.Lib.Positional

/-!
# `address/bech32` — strings with a checksum

The checksum is a remainder, computed five bits at a time. Six zero digits are taken in before the remainder is written
down, and what is written is the difference to a constant. The decoder takes in the six digits instead of the zeros and
looks for the constant. That the two agree needs only that a digit is not fed back before six more have been taken in
(`absorb_eq_xor`); that six digits are right just if they are the ones that would be written follows from the same
equation, read the other way (`absorb_eq_const_iff`).

So a string is decoded just if it is the one spelling of what it is decoded as, in one case (`decode_eq_ok`).
-/

namespace NogoCommons.Bech32
open Lib List

def charset : Bytes := ascii "qpzry9x8gf2tvdw0s3jn54khce6mua7l"

/-- The separator, `'1'`. -/
def separator : UInt8 := 49
def gen : List Nat := [0x3b6a57b2, 0x26508e6d, 0x1ea119fa, 0x3d4233dd, 0x2a1462b3]

inductive Version
  | version0
  | versionM
deriving DecidableEq, Repr

/-- `VersionToConsts`. -/
def Version.const : Version → Nat
  | .version0 => 1
  | .versionM => 0x2bc830a3

def constsToVersion (polymod : Nat) : Option Version :=
  if polymod = Version.version0.const then some .version0
  else if polymod = Version.versionM.const then some .versionM
  else none

inductive Bech32Error
  | mixedCase
  | invalidBitGroups
  | invalidIncompleteGroup
  | invalidLength (len : Nat)
  | invalidCharacter (c : UInt8)
  | invalidSeparatorIndex (one : Int)
  | nonCharsetChar (c : UInt8)
  | invalidChecksum (expected expectedM actual : Bytes)
  | invalidDataByte (b : UInt8)
deriving DecidableEq, Repr

/-! ## Characters -/

/-- `charset[b]`. -/
def charAt (b : Nat) : UInt8 := charset.getD b 0
def charOf (b : UInt8) : UInt8 := charAt b.toNat

def toBytes : Bytes → Except Bech32Error Bytes
  | [] => .ok []
  | c :: chars =>
    match charset.idxOf? c with
    | none => .error (.nonCharsetChar c)
    | some index =>
      match toBytes chars with
      | .error e => .error e
      | .ok decoded => .ok (UInt8.ofNat index :: decoded)

/-- Digits of five bits. -/
def Digits (data : Bytes) : Prop := ∀ b ∈ data, b < 32

/-! ## The checksum -/

/-- The inner loop: what was shifted out is fed back. -/
def feedBack (b chk : Nat) : Nat :=
  gen.zipIdx.foldl (fun chk g => if (b >>> g.2) &&& 1 = 1 then chk ^^^ g.1 else chk) chk

/-- Take in a value. The source leaves out the `xor` where the value is zero. -/
def round (chk v : Nat) : Nat := feedBack (chk >>> 25) ((chk &&& 0x1ffffff) <<< 5 ^^^ v)
def absorb (chk : Nat) (values : List Nat) : Nat := values.foldl round chk

/-- `bech32Polymod`; `none` is a nil checksum. -/
def bech32Polymod (hrp values : Bytes) (checksum : Option Bytes) : Nat :=
  let chk := absorb 1 (hrp.map fun c => c.toNat >>> 5)
  let chk := round chk 0
  let chk := absorb chk (hrp.map fun c => c.toNat &&& 31)
  let chk := absorb chk (values.map UInt8.toNat)
  match checksum with
  | none => absorb chk (replicate 6 0)
  | some checksum => absorb chk (checksum.map UInt8.toNat)

/-- What `writeBech32Checksum` writes. -/
def writeBech32Checksum (hrp data : Bytes) (version : Version) : Bytes :=
  let polymod := bech32Polymod hrp data none ^^^ version.const
  (range 6).map fun i => charAt ((polymod >>> (5 * (5 - i))) &&& 31)

def bech32VerifyChecksum (hrp data : Bytes) : Option Version :=
  let checksum := data.drop (data.length - 6)
  let values := data.take (data.length - 6)
  constsToVersion (bech32Polymod hrp values (some checksum))

/-! ## Decoding -/

/-- The loop over the characters; the result is `hasUpper`. -/
def scanCase : Bytes → Bool → Bool → Except Bech32Error Bool
  | [], _, hasUpper => .ok hasUpper
  | c :: bech, hasLower, hasUpper =>
    if c < 33 ∨ 126 < c then .error (.invalidCharacter c)
    else
      let hasLower := hasLower || isLower c
      let hasUpper := hasUpper || isUpper c
      if hasLower && hasUpper then .error .mixedCase else scanCase bech hasLower hasUpper

/-- The part after the characters have been looked at. -/
def decodeLower (bech : Bytes) : Except Bech32Error (Bytes × Bytes × Version) :=
  match lastIndexByte bech separator with
  | none => .error (.invalidSeparatorIndex (-1))
  | some one =>
    if one < 1 ∨ bech.length < one + 7 then .error (.invalidSeparatorIndex one)
    else
      let hrp := bech.take one
      match toBytes (bech.drop (one + 1)) with
      | .error e => .error e
      | .ok decoded =>
        let payload := decoded.take (decoded.length - 6)
        match bech32VerifyChecksum hrp decoded with
        | some version => .ok (hrp, payload, version)
        | none =>
          -- the second checksum is written behind the first
          let expectedVersion0 := writeBech32Checksum hrp payload .version0
          let expectedVersionM := expectedVersion0 ++ writeBech32Checksum hrp payload .versionM
          .error (.invalidChecksum expectedVersion0 expectedVersionM (bech.drop (bech.length - 6)))

def decodeNoLimitWithVersion (bech : Bytes) : Except Bech32Error (Bytes × Bytes × Version) :=
  if bech.length < 8 then .error (.invalidLength bech.length)
  else
    match scanCase bech false false with
    | .error e => .error e
    | .ok hasUpper => decodeLower (if hasUpper then toLower bech else bech)

def decodeGeneric (bech : Bytes) : Except Bech32Error (Bytes × Bytes × Version) :=
  if 90 < bech.length then .error (.invalidLength bech.length) else decodeNoLimitWithVersion bech

/-! ## Encoding -/

def writeData : Bytes → Except Bech32Error Bytes
  | [] => .ok []
  | b :: data =>
    if charset.length ≤ b.toNat then .error (.invalidDataByte b)
    else
      match writeData data with
      | .error e => .error e
      | .ok chars => .ok (charOf b :: chars)

def encodeGeneric (hrp data : Bytes) (version : Version) : Except Bech32Error Bytes :=
  let hrp := toLower hrp
  match writeData data with
  | .error e => .error e
  | .ok chars => .ok (hrp ++ separator :: (chars ++ writeBech32Checksum hrp data version))

def encode (hrp data : Bytes) : Except Bech32Error Bytes := encodeGeneric hrp data .version0
def encodeM (hrp data : Bytes) : Except Bech32Error Bytes := encodeGeneric hrp data .versionM

/-! ## Characters and digits -/

theorem idxOf_charAt : ∀ n < 32, charset.idxOf? (charAt n) = some n := by decide
theorem idxOf_charOf {b : UInt8} (h : b < 32) : charset.idxOf? (charOf b) = some b.toNat := idxOf_charAt _ h

theorem exists_charOf (c : UInt8) : c ∈ charset → ∃ d < 32, charOf d = c := by
  intro h
  obtain ⟨n, hn, rfl⟩ := getElem_of_mem h
  have hnat : (UInt8.ofNat n).toNat = n := UInt8.toNat_ofNat_of_lt' (hn.trans (by decide))
  refine ⟨UInt8.ofNat n, UInt8.lt_iff_toNat_lt.mpr (by rw [hnat]; exact hn), ?_⟩
  rw [charOf, hnat, charAt, getD_eq_getElem?_getD, getElem?_eq_getElem hn]
  rfl

/-- A character of a string, in lower case. -/
def Plain (c : UInt8) : Prop := 33 ≤ c ∧ c ≤ 126 ∧ isUpper c = false

instance decidablePlain (c : UInt8) : Decidable (Plain c) := inferInstanceAs (Decidable (_ ∧ _ ∧ _))

theorem charAt_plain : ∀ n < 32, charAt n ≠ separator ∧ Plain (charAt n) := by decide

variable {data : Bytes} {version : Version}

theorem charOf_plain (h : Digits data) : ∀ c ∈ data.map charOf, c ≠ separator ∧ Plain c := by
  intro c hc
  obtain ⟨b, hb, rfl⟩ := mem_map.mp hc
  exact charAt_plain _ (h b hb)

theorem toBytes_eq (h : Digits data) : toBytes (data.map charOf) = .ok data := by
  induction data with
  | nil => rfl
  | cons d data ih =>
    obtain ⟨hd, hdata⟩ := forall_mem_cons.mp h
    rw [map_cons, toBytes, idxOf_charOf hd]
    rw [ih hdata]
    dsimp only
    rw [UInt8.ofNat_toNat]

/-- Characters are those of digits, or one of them is refused. -/
theorem toBytes_cases (chars : Bytes) :
    (∃ ds, Digits ds ∧ chars = ds.map charOf) ∨ ∃ c, toBytes chars = .error (.nonCharsetChar c) := by
  induction chars with
  | nil => exact .inl ⟨[], forall_mem_nil _, rfl⟩
  | cons c chars ih =>
    rw [toBytes]
    cases hc : charset.idxOf? c with
    | none => exact .inr ⟨c, rfl⟩
    | some index =>
      have hmem : c ∈ charset := by
        by_contra hnot
        rw [idxOf?_eq_none_iff.mpr hnot] at hc
        cases hc
      obtain ⟨d, hd, rfl⟩ := exists_charOf c hmem
      rcases ih with ⟨ds, hds, rfl⟩ | ⟨c', hc'⟩
      · exact .inl ⟨d :: ds, forall_mem_cons.mpr ⟨hd, hds⟩, rfl⟩
      · rw [hc']
        exact .inr ⟨c', rfl⟩

theorem writeData_eq (h : Digits data) : writeData data = .ok (data.map charOf) := by
  induction data with
  | nil => rfl
  | cons b data ih =>
    obtain ⟨hb, hdata⟩ := forall_mem_cons.mp h
    have hlt : ¬ charset.length ≤ b.toNat := Nat.not_le.mpr (UInt8.lt_iff_toNat_lt.mp hb)
    rw [writeData, if_neg hlt, ih hdata]
    rfl

/-! ## Six digits -/

theorem shift_and_one (b k : Nat) : (b >>> k) &&& 1 = 1 ↔ b.testBit k = true := by
  rw [Nat.testBit_eq_decide_div_mod_eq, decide_eq_true_iff, Nat.shiftRight_eq_div_pow, Nat.and_one_is_mod]

theorem feedBack_xor (b b' x y : Nat) : feedBack (b ^^^ b') (x ^^^ y) = feedBack b x ^^^ feedBack b' y := by
  simp only [feedBack, shift_and_one, Nat.testBit_xor]
  induction gen.zipIdx generalizing x y with
  | nil => rfl
  | cons g gs ih =>
    simp only [foldl_cons]
    cases b.testBit g.2 <;> cases b'.testBit g.2
    · exact ih x y
    · show foldl _ (x ^^^ y ^^^ g.1) gs = foldl _ x gs ^^^ foldl _ (y ^^^ g.1) gs
      rw [← ih, Nat.xor_assoc]
    · show foldl _ (x ^^^ y ^^^ g.1) gs = foldl _ (x ^^^ g.1) gs ^^^ foldl _ y gs
      rw [← ih, Nat.xor_assoc, Nat.xor_comm y, ← Nat.xor_assoc]
    · show foldl _ (x ^^^ y) gs = foldl _ (x ^^^ g.1) gs ^^^ foldl _ (y ^^^ g.1) gs
      rw [← ih, Nat.xor_assoc, Nat.xor_comm y, ← Nat.xor_assoc g.1, Nat.xor_self, Nat.zero_xor]

theorem feedBack_zero (x : Nat) : feedBack 0 x = x := by simp [feedBack, gen]

theorem feedBack_lt {b x : Nat} (h : x < 2 ^ 30) : feedBack b x < 2 ^ 30 := by
  have hgen : ∀ g ∈ gen.zipIdx, g.1 < 2 ^ 30 := by decide
  rw [feedBack]
  generalize gen.zipIdx = gs at hgen
  induction gs generalizing x with
  | nil => exact h
  | cons g gs ih =>
    obtain ⟨hg, hgs⟩ := forall_mem_cons.mp hgen
    rw [foldl_cons]
    split_ifs
    · exact ih (Nat.xor_lt_two_pow h hg) hgs
    · exact ih h hgs

variable {a v c : Nat} {vs : List Nat}

theorem shiftLeft_xor_of_lt (hv : v < 32) : a <<< 5 ^^^ v = a * 32 + v := by
  have hsum := Nat.shiftLeft_add_eq_or_of_lt (i := 5) hv a
  have hor : a <<< 5 ^^^ v = a <<< 5 ||| v := by
    apply Nat.eq_of_testBit_eq
    intro i
    rw [Nat.testBit_xor, Nat.testBit_or, Nat.testBit_shiftLeft]
    by_cases hi : 5 ≤ i
    · have hhigh : v.testBit i = false :=
        Nat.testBit_lt_two_pow ((show v < 2 ^ 5 from hv).trans_le (Nat.pow_le_pow_right Nat.two_pos hi))
      rw [hhigh, Bool.xor_false, Bool.or_false]
    · simp [hi]
  rw [hor, ← hsum, Nat.shiftLeft_eq]

/-- The checksum is linear. -/
theorem round_xor (c d v w : Nat) : round (c ^^^ d) (v ^^^ w) = round c v ^^^ round d w := by
  have hswap : ∀ x y : Nat, x ^^^ y ^^^ (v ^^^ w) = x ^^^ v ^^^ (y ^^^ w) := fun x y => by ac_rfl
  rw [round, Nat.shiftRight_xor_distrib, Nat.and_xor_distrib_right, Nat.shiftLeft_xor_distrib, hswap, feedBack_xor,
    round, round]

/-- What is below the bits that are fed back moves up five places. -/
theorem round_of_lt (ha : a < 2 ^ 25) (hv : v < 32) : round a v = a * 32 + v := by
  have hlow : a &&& 0x1ffffff = a := Nat.and_two_pow_sub_one_of_lt_two_pow (n := 25) ha
  rw [round, Nat.shiftRight_eq_div_pow, Nat.div_eq_of_lt ha, feedBack_zero, hlow, shiftLeft_xor_of_lt hv]

theorem round_lt (hv : v < 32) : round c v < 2 ^ 30 := by
  apply feedBack_lt
  apply Nat.xor_lt_two_pow
  · rw [Nat.shiftLeft_eq]
    have hlow : c &&& 0x1ffffff < 2 ^ 25 := Nat.and_lt_two_pow c (by decide)
    omega
  · exact hv.trans (by decide)

theorem absorb_xor (c d : Nat) (vs : List Nat) :
    absorb (c ^^^ d) vs = absorb c vs ^^^ absorb d (replicate vs.length 0) := by
  induction vs generalizing c d with
  | nil => rfl
  | cons v vs ih =>
    have hround := round_xor c d v 0
    rw [Nat.xor_zero] at hround
    show absorb (round (c ^^^ d) v) vs = _
    rw [hround, ih]
    rfl

/-- Nothing that is taken in is fed back before six digits have been. -/
theorem absorb_of_lt {k : Nat} (ha : a < 32 ^ k) (hvs : ∀ v ∈ vs, v < 32) (hk : k + vs.length ≤ 6) :
    absorb a vs = a * 32 ^ vs.length + horner 32 vs := by
  induction vs generalizing a k with
  | nil => simp [absorb]
  | cons v vs ih =>
    obtain ⟨hv, hvs⟩ := forall_mem_cons.mp hvs
    rw [length_cons] at hk
    have hlow : a < 2 ^ 25 := by
      apply Nat.lt_of_lt_of_le ha
      calc 32 ^ k ≤ 32 ^ 5 := Nat.pow_le_pow_right (by decide) (by omega)
        _ = 2 ^ 25 := by decide
    have hnext : a * 32 + v < 32 ^ (k + 1) := by
      rw [pow_succ]
      omega
    show absorb (round a v) vs = _
    rw [round_of_lt hlow hv, ih hnext hvs (by omega), horner_cons, length_cons, pow_succ]
    ring

theorem absorb_eq_xor (hvs : ∀ v ∈ vs, v < 32) (hlen : vs.length = 6) (c : Nat) :
    absorb c vs = absorb c (replicate 6 0) ^^^ horner 32 vs := by
  have h := absorb_xor 0 c vs
  rwa [Nat.zero_xor, absorb_of_lt (k := 0) Nat.one_pos hvs (by omega), Nat.zero_mul, Nat.zero_add, hlen,
    Nat.xor_comm] at h

theorem absorb_zeros_lt (c : Nat) : absorb c (replicate 6 0) < 2 ^ 30 := round_lt (by decide)

/-- Six digits make up for the difference to a constant just if they are its digits. -/
theorem absorb_eq_const_iff (hvs : ∀ v ∈ vs, v < 32) (hlen : vs.length = 6) {const : Nat} (hconst : const < 2 ^ 30) :
    absorb c vs = const ↔ vs = places 32 6 (absorb c (replicate 6 0) ^^^ const) := by
  have hlt : absorb c (replicate 6 0) ^^^ const < 32 ^ 6 := Nat.xor_lt_two_pow (absorb_zeros_lt c) hconst
  rw [absorb_eq_xor hvs hlen]
  constructor
  · intro h
    have hhorner : horner 32 vs = absorb c (replicate 6 0) ^^^ const := by
      rw [← h, ← Nat.xor_assoc, Nat.xor_self, Nat.zero_xor]
    rw [← hhorner, ← hlen, places_horner hvs]
  · intro h
    rw [h, horner_places, Nat.mod_eq_of_lt hlt, ← Nat.xor_assoc, Nat.xor_self, Nat.zero_xor]

/-- The digits of the checksum. -/
def checksumDigits (hrp data : Bytes) (version : Version) : List Nat :=
  places 32 6 (bech32Polymod hrp data none ^^^ version.const)

theorem writeBech32Checksum_eq (hrp data : Bytes) (version : Version) :
    writeBech32Checksum hrp data version = (checksumDigits hrp data version).map charAt := by
  rw [writeBech32Checksum, checksumDigits]
  generalize bech32Polymod hrp data none ^^^ version.const = n
  have hdigit : ∀ k, (n >>> (5 * k)) &&& 31 = n / 32 ^ k % 32 := by
    intro k
    rw [Nat.shiftRight_eq_div_pow, Nat.pow_mul]
    exact Nat.and_two_pow_sub_one_eq_mod _ 5
  show [charAt ((n >>> (5 * 5)) &&& 31), charAt ((n >>> (5 * 4)) &&& 31), charAt ((n >>> (5 * 3)) &&& 31),
    charAt ((n >>> (5 * 2)) &&& 31), charAt ((n >>> (5 * 1)) &&& 31), charAt ((n >>> (5 * 0)) &&& 31)] = _
  simp only [hdigit, places_succ, places_width_zero, map_cons, map_nil, nil_append, cons_append, Nat.div_div_eq_div_mul]
  norm_num

theorem const_lt (version : Version) : version.const < 2 ^ 30 := by
  cases version <;> decide

theorem constsToVersion_eq_some {polymod : Nat} : constsToVersion polymod = some version ↔ polymod = version.const := by
  rw [constsToVersion]
  constructor
  · intro h
    split_ifs at h with h0 hM
    · rw [← Option.some.inj h, h0]
    · rw [← Option.some.inj h, hM]
  · rintro rfl
    cases version <;> rfl

/-- The checksum is right just if it is the one that is written. -/
theorem bech32VerifyChecksum_eq_some {hrp values checksum : Bytes} (hdigits : Digits checksum)
    (hlen : checksum.length = 6) :
    bech32VerifyChecksum hrp (values ++ checksum) = some version ↔
      checksum.map UInt8.toNat = checksumDigits hrp values version := by
  have hcut : (values ++ checksum).length - 6 = values.length := by rw [length_append, hlen]; omega
  have hvs : ∀ v ∈ checksum.map UInt8.toNat, v < 32 := by
    intro v hv
    obtain ⟨b, hb, rfl⟩ := mem_map.mp hv
    exact UInt8.lt_iff_toNat_lt.mp (hdigits b hb)
  rw [bech32VerifyChecksum, hcut, drop_left, take_left, constsToVersion_eq_some]
  exact absorb_eq_const_iff hvs (by rw [length_map, hlen]) (const_lt version)

/-! ## The two directions -/

/-- The one spelling. -/
def written (hrp data : Bytes) (version : Version) : Bytes :=
  hrp ++ separator :: (data.map charOf ++ writeBech32Checksum hrp data version)

variable {bech hrp s : Bytes} {hasUpper : Bool}

theorem encodeGeneric_eq (h : Digits data) :
    encodeGeneric hrp data version = .ok (written (toLower hrp) data version) := by
  rw [encodeGeneric, writeData_eq h]
  rfl

theorem exists_checksum (hrp data : Bytes) (version : Version) :
    ∃ checksum : Bytes, Digits checksum ∧ checksum.length = 6 ∧
      checksum.map UInt8.toNat = checksumDigits hrp data version ∧
      writeBech32Checksum hrp data version = checksum.map charOf := by
  have hlt : ∀ n ∈ checksumDigits hrp data version, n < 32 := places_lt (by decide) _ _
  have hnat : ∀ n ∈ checksumDigits hrp data version, (UInt8.ofNat n).toNat = n := fun n hn =>
    UInt8.toNat_ofNat_of_lt' ((hlt n hn).trans (by decide))
  refine ⟨(checksumDigits hrp data version).map UInt8.ofNat, ?_, by simp [checksumDigits], ?_, ?_⟩
  · intro b hb
    obtain ⟨n, hn, rfl⟩ := mem_map.mp hb
    rw [UInt8.lt_iff_toNat_lt, hnat n hn]
    exact hlt n hn
  · rw [map_map]
    exact (map_congr_left hnat).trans (map_id _)
  · rw [writeBech32Checksum_eq, map_map]
    apply map_congr_left
    intro n hn
    rw [Function.comp_apply, charOf, hnat n hn]

theorem length_checksum (hrp data : Bytes) (version : Version) : (writeBech32Checksum hrp data version).length = 6 := by
  rw [writeBech32Checksum, length_map, length_range]

theorem length_written (hrp data : Bytes) (version : Version) :
    (written hrp data version).length = hrp.length + (data.length + 7) := by
  rw [written, length_append, length_cons, length_append, length_map, length_checksum]

/-- The part before the last separator is the one that was written there. -/
theorem lastIndexByte_written (hdata : Digits data) :
    lastIndexByte (written hrp data version) separator = some hrp.length := by
  obtain ⟨checksum, hsum, -, -, hwrite⟩ := exists_checksum hrp data version
  rw [written, hwrite, ← map_append]
  exact lastIndexByte_append fun hmem => (charOf_plain (forall_mem_append.mpr ⟨hdata, hsum⟩) _ hmem).1 rfl

/-- Characters of a string, all of one case. -/
def OneCase (bech : Bytes) : Prop :=
  (∀ c ∈ bech, 33 ≤ c ∧ c ≤ 126) ∧ ((∀ c ∈ bech, isUpper c = false) ∨ ∀ c ∈ bech, isLower c = false)

theorem scanCase_from {hasLower r : Bool} (h : (hasLower && hasUpper) = false) :
    scanCase bech hasLower hasUpper = .ok r ↔
      (∀ c ∈ bech, 33 ≤ c ∧ c ≤ 126) ∧ ((hasLower || bech.any isLower) && (hasUpper || bech.any isUpper)) = false ∧
        r = (hasUpper || bech.any isUpper) := by
  induction bech generalizing hasLower hasUpper with
  | nil =>
    simp only [scanCase, any_nil, Bool.or_false, h, true_and, Except.ok.injEq]
    constructor
    · rintro rfl
      exact ⟨forall_mem_nil _, rfl⟩
    · rintro ⟨-, rfl⟩
      rfl
  | cons c bech ih =>
    rw [scanCase]
    by_cases hc : c < 33 ∨ 126 < c
    · rw [if_pos hc]
      constructor
      · intro hrun
        cases hrun
      · rintro ⟨hall, -⟩
        obtain ⟨hge, hle⟩ := hall c mem_cons_self
        rcases hc with hc | hc
        · exact absurd hge (UInt8.not_le.mpr hc)
        · exact absurd hle (UInt8.not_le.mpr hc)
    · obtain ⟨hge, hle⟩ := not_or.mp hc
      rw [if_neg hc, any_cons, any_cons, ← Bool.or_assoc, ← Bool.or_assoc]
      by_cases hmixed : ((hasLower || isLower c) && (hasUpper || isUpper c)) = true
      · rw [if_pos hmixed]
        constructor
        · intro hrun
          cases hrun
        · rintro ⟨-, hone, -⟩
          obtain ⟨hl, hu⟩ := Bool.and_eq_true_iff.mp hmixed
          rw [hl, hu] at hone
          cases hone
      · rw [if_neg hmixed, ih (Bool.eq_false_iff.mpr hmixed), forall_mem_cons]
        have hin : 33 ≤ c ∧ c ≤ 126 := ⟨UInt8.not_lt.mp hge, UInt8.not_lt.mp hle⟩
        simp only [hin, true_and, and_self]

theorem scanCase_eq_ok : scanCase bech false false = .ok hasUpper ↔ OneCase bech ∧ hasUpper = bech.any isUpper := by
  rw [scanCase_from rfl, OneCase, Bool.false_or, Bool.false_or, Bool.and_eq_false_iff, any_eq_false, any_eq_false,
    or_comm, and_assoc]
  simp only [Bool.not_eq_true]

/-- Without upper case there is nothing to do. -/
theorem lower_of_scanCase (h : scanCase bech false false = .ok hasUpper) :
    (if hasUpper then toLower bech else bech) = toLower bech := by
  obtain ⟨-, rfl⟩ := scanCase_eq_ok.mp h
  cases hany : bech.any isUpper with
  | true => rfl
  | false => exact (toLower_eq_self fun c hc => Bool.eq_false_iff.mpr (any_eq_false.mp hany c hc)).symm

/-- An error from before the checksum is looked at. -/
def Bech32Error.Early (e : Bech32Error) : Prop := ∀ expected expectedM actual, e ≠ .invalidChecksum expected expectedM actual

theorem early_of_scanCase {hasLower : Bool} {e : Bech32Error} (h : scanCase bech hasLower hasUpper = .error e) :
    e.Early := by
  induction bech generalizing hasLower hasUpper with
  | nil => cases h
  | cons c bech ih =>
    rw [scanCase] at h
    dsimp only at h
    split_ifs at h
    · cases h
      exact nofun
    · cases h
      exact nofun
    · exact ih h

/-- The parts of a string that gets as far as its checksum. -/
structure Parts (bech hrp values checksum : Bytes) : Prop where
  oneCase : OneCase bech
  part : hrp ≠ []
  data : Digits values
  sum : Digits checksum
  six : checksum.length = 6
  lower : toLower bech = hrp ++ separator :: (values ++ checksum).map charOf

variable {values checksum : Bytes}

/-- The checksum is the last six characters. -/
theorem Parts.split (h : Parts bech hrp values checksum) :
    toLower bech = (hrp ++ separator :: values.map charOf) ++ checksum.map charOf ∧
      (hrp ++ separator :: values.map charOf).length = bech.length - 6 := by
  have hsplit : toLower bech = (hrp ++ separator :: values.map charOf) ++ checksum.map charOf := by
    rw [h.lower, map_append, append_assoc, cons_append]
  have hlen := congrArg length hsplit
  rw [length_toLower, length_append, length_map, h.six] at hlen
  exact ⟨hsplit, by omega⟩

theorem decode_of_parts (h : Parts bech hrp values checksum) : decodeNoLimitWithVersion bech =
    match bech32VerifyChecksum hrp (values ++ checksum) with
    | some version => .ok (hrp, values, version)
    | none => .error (.invalidChecksum (writeBech32Checksum hrp values .version0)
        (writeBech32Checksum hrp values .version0 ++ writeBech32Checksum hrp values .versionM) (checksum.map charOf)) := by
  have hscan := scanCase_eq_ok.mpr ⟨h.oneCase, rfl⟩
  have hall : Digits (values ++ checksum) := forall_mem_append.mpr ⟨h.data, h.sum⟩
  have hone : lastIndexByte (toLower bech) separator = some hrp.length := by
    rw [h.lower]
    exact lastIndexByte_append fun hmem => (charOf_plain hall _ hmem).1 rfl
  have hlen := congrArg length h.lower
  rw [length_append, length_cons, length_map, length_append, h.six] at hlen
  have hpos := length_pos_iff.mpr h.part
  have hcut : (values ++ checksum).length - 6 = values.length := by rw [length_append, h.six]; omega
  have htake : (toLower bech).take hrp.length = hrp := by rw [h.lower, take_left]
  have hdrop : (toLower bech).drop (hrp.length + 1) = (values ++ checksum).map charOf := by
    rw [← drop_drop, h.lower, drop_left]
    rfl
  have hactual : (toLower bech).drop ((toLower bech).length - 6) = checksum.map charOf := by
    rw [length_toLower, ← h.split.2, h.split.1, drop_left]
  rw [decodeNoLimitWithVersion, if_neg (by rw [length_toLower] at hlen; omega), hscan]
  dsimp only
  rw [lower_of_scanCase hscan, decodeLower, hone]
  dsimp only
  rw [if_neg (by omega), hdrop, toBytes_eq hall, htake, hactual]
  dsimp only
  rw [hcut, take_left]

/-- The last six digits are the checksum. -/
theorem parts_of_digits {ds : Bytes} (hcase : OneCase bech) (hhrp : hrp ≠ []) (hds : Digits ds) (hlen : 6 ≤ ds.length)
    (hlower : toLower bech = hrp ++ separator :: ds.map charOf) :
    Parts bech hrp (ds.take (ds.length - 6)) (ds.drop (ds.length - 6)) := by
  refine ⟨hcase, hhrp, fun b hb => hds b (mem_of_mem_take hb), fun b hb => hds b (mem_of_mem_drop hb), ?_, ?_⟩
  · rw [length_drop]
    omega
  · rw [take_append_drop, hlower]

theorem parts_or_early (bech : Bytes) : (∃ hrp values checksum, Parts bech hrp values checksum) ∨
    ∃ e, decodeNoLimitWithVersion bech = .error e ∧ e.Early := by
  rw [decodeNoLimitWithVersion]
  split_ifs with hshort
  · exact .inr ⟨_, rfl, nofun⟩
  cases hscan : scanCase bech false false with
  | error e => exact .inr ⟨e, rfl, early_of_scanCase hscan⟩
  | ok hasUpper =>
    dsimp only
    rw [lower_of_scanCase hscan, decodeLower]
    cases hone : lastIndexByte (toLower bech) separator with
    | none => exact .inr ⟨_, rfl, nofun⟩
    | some one =>
      obtain ⟨v, hbech, hlt, -⟩ := lastIndexByte_eq_some.mp hone
      dsimp only
      split_ifs with hbad
      · exact .inr ⟨_, rfl, nofun⟩
      obtain ⟨hpos, hroom⟩ := not_or.mp hbad
      have hdrop : (toLower bech).drop (one + 1) = v := by
        rw [← drop_drop, hbech, drop_left' (length_take_of_le hlt.le)]
        rfl
      rw [hdrop]
      rcases toBytes_cases v with ⟨decoded, hdigits, rfl⟩ | ⟨c, hc⟩
      · have hlen := congrArg length hbech
        rw [length_append, length_take_of_le hlt.le, length_cons, length_map] at hlen
        refine .inl ⟨_, _, _, parts_of_digits (scanCase_eq_ok.mp hscan).1 ?_ hdigits (by omega) hbech⟩
        apply ne_nil_of_length_pos
        rw [length_take_of_le hlt.le]
        omega
      · rw [hc]
        exact .inr ⟨_, rfl, nofun⟩

/-- A string is decoded just if it is what its parts are written as, in one case. -/
theorem decode_eq_ok : decodeNoLimitWithVersion bech = .ok (hrp, data, version) ↔
      OneCase bech ∧ hrp ≠ [] ∧ Digits data ∧ toLower bech = written hrp data version := by
  constructor
  · intro h
    rcases parts_or_early bech with ⟨hrp', values, checksum, hp⟩ | ⟨e, he, -⟩
    · rw [decode_of_parts hp] at h
      cases hver : bech32VerifyChecksum hrp' (values ++ checksum) with
      | none =>
        rw [hver] at h
        cases h
      | some version' =>
        rw [hver] at h
        cases h
        have hnum := (bech32VerifyChecksum_eq_some hp.sum hp.six).mp hver
        refine ⟨hp.oneCase, hp.part, hp.data, ?_⟩
        rw [hp.lower, map_append, written, writeBech32Checksum_eq, ← hnum, map_map]
        rfl
    · rw [he] at h
      cases h
  · rintro ⟨hone, hhrp, hdata, hlower⟩
    obtain ⟨checksum, hsum, hsix, hnum, hwrite⟩ := exists_checksum hrp data version
    have hp : Parts bech hrp data checksum :=
      ⟨hone, hhrp, hdata, hsum, hsix, by rw [hlower, written, hwrite, map_append]⟩
    rw [decode_of_parts hp, (bech32VerifyChecksum_eq_some hsum hsix).mpr hnum]

theorem decodeGeneric_eq_ok : decodeGeneric bech = .ok (hrp, data, version) ↔
      bech.length ≤ 90 ∧ OneCase bech ∧ hrp ≠ [] ∧ Digits data ∧ toLower bech = written hrp data version := by
  rw [decodeGeneric, ← decode_eq_ok]
  split_ifs with hlen
  · constructor
    · intro h
      cases h
    · rintro ⟨hle, -⟩
      exact absurd hle (Nat.not_le.mpr hlen)
  · exact (and_iff_right (Nat.not_lt.mp hlen)).symm

theorem written_plain (hhrp : ∀ c ∈ hrp, Plain c) (hdata : Digits data) : ∀ c ∈ written hrp data version, Plain c := by
  obtain ⟨checksum, hsum, -, -, hwrite⟩ := exists_checksum hrp data version
  intro c hc
  rw [written, hwrite, ← map_append] at hc
  rcases mem_append.mp hc with hc | hc
  · exact hhrp c hc
  · rcases mem_cons.mp hc with rfl | hc
    · decide
    · exact (charOf_plain (forall_mem_append.mpr ⟨hdata, hsum⟩) c hc).2

theorem oneCase_of_plain (h : ∀ c ∈ s, Plain c) : OneCase s :=
  ⟨fun c hc => ⟨(h c hc).1, (h c hc).2.1⟩, .inl fun c hc => (h c hc).2.2⟩

theorem toLower_of_plain (h : ∀ c ∈ s, Plain c) : toLower s = s :=
  toLower_eq_self fun c hc => (h c hc).2.2

theorem plain_lowerByte (b : UInt8) : 33 ≤ b ∧ b ≤ 126 → Plain (lowerByte b) := by
  grind [Plain, lowerByte, isUpper]

theorem plain_toLower (h : OneCase bech) : ∀ c ∈ toLower bech, Plain c := by
  intro c hc
  obtain ⟨b, hb, rfl⟩ := mem_map.mp hc
  exact plain_lowerByte b (h.1 b hb)

theorem decode_written (hne : hrp ≠ []) (hhrp : ∀ c ∈ hrp, Plain c) (hdata : Digits data) :
    decodeNoLimitWithVersion (written hrp data version) = .ok (hrp, data, version) := by
  have hplain : ∀ c ∈ written hrp data version, Plain c := written_plain hhrp hdata
  exact decode_eq_ok.mpr ⟨oneCase_of_plain hplain, hne, hdata, toLower_of_plain hplain⟩

/-- **Bech32 and bech32m are exact codecs.** -/
theorem codec_exact : (∀ (hrp data : Bytes) (version : Version), hrp ≠ [] → (∀ c ∈ hrp, Plain c) → Digits data →
      ∃ s, encodeGeneric hrp data version = .ok s ∧ decodeNoLimitWithVersion s = .ok (hrp, data, version)) ∧
    ∀ (s hrp data : Bytes) (version : Version), decodeNoLimitWithVersion s = .ok (hrp, data, version) →
      encodeGeneric hrp data version = .ok (toLower s) := by
  constructor
  · intro hrp data version hne hhrp hdata
    refine ⟨written hrp data version, ?_, decode_written hne hhrp hdata⟩
    rw [encodeGeneric_eq hdata, toLower_of_plain hhrp]
  · intro s hrp data version h
    obtain ⟨hone, -, hdata, hlower⟩ := decode_eq_ok.mp h
    have hhrp : toLower hrp = hrp :=
      toLower_of_plain fun c hc => plain_toLower hone c (hlower ▸ mem_append_left _ hc)
    rw [encodeGeneric_eq hdata, hhrp, hlower]

end NogoCommons.Bech32
