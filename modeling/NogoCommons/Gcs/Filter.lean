import Mathlib.Data.List.TakeWhile
import NogoCommons.Lib.BitStream
import NogoCommons.Wire.Common

/-!
# `nogoutil/gcs` — Golomb-coded filters

A filter holds the hashes of its items, reduced to a range and sorted, as a stream of differences. `Match` decodes until it
has found the hash or has come past it, which is right because the decoded values never decrease (`build_matches`).

`ZipMatchAny` goes through the sorted hashes of the query beside the stream. `HashMatchAny` puts what it decodes into a set,
of which the keys have 32 bits, and asks for the lower halves of the hashes of the query: it is right as long as no two
different hashes have the same lower half (`bulk_agree_iff`). It reads to the end of the stream and past the last value,
where the padding decodes to that value again.
-/

namespace NogoCommons.Gcs
open Lib List
open Wire

def keySize : Nat := 16

inductive GcsError
  | nTooBig | pTooBig
  | wire (err : WireError)
deriving DecidableEq, Repr

structure Filter where
  n : UInt32
  p : UInt8
  modulusNP : UInt64
  filterData : Bytes

def fastReduction (v nHi nLo : UInt64) : UInt64 :=
  let vhi := v >>> 32
  let vlo := v.toUInt32.toUInt64
  let vnphi := vhi * nHi
  let vnpmid := vhi * nLo
  let npvmid := nHi * vlo
  let vnplo := vlo * nLo
  let carry := (vnpmid.toUInt32.toUInt64 + npvmid.toUInt32.toUInt64 + (vnplo >>> 32)) >>> 32
  vnphi + (vnpmid >>> 32) + (npvmid >>> 32) + carry

/-! ## The reduction -/

theorem toNat_high (x : UInt64) : (x >>> 32).toNat = x.toNat / 2 ^ 32 := by
  simp [UInt64.toNat_shiftRight, Nat.shiftRight_eq_div_pow]

theorem toNat_low (x : UInt64) : x.toUInt32.toUInt64.toNat = x.toNat % 2 ^ 32 := by
  simp

/-- The product of two words, from their halves. -/
theorem high_mul (a b c d : Nat) : a * c + a * d / 2 ^ 32 + c * b / 2 ^ 32
    + (a * d % 2 ^ 32 + c * b % 2 ^ 32 + b * d / 2 ^ 32) / 2 ^ 32 = (2 ^ 32 * a + b) * (2 ^ 32 * c + d) / 2 ^ 64 := by
  have hproduct : (2 ^ 32 * a + b) * (2 ^ 32 * c + d) = 2 ^ 64 * (a * c) + 2 ^ 32 * (a * d + c * b) + b * d := by ring
  rw [hproduct]
  omega

theorem toNat_fastReduction (v n : UInt64) :
    (fastReduction v (n >>> 32) (n &&& 0xffffffff)).toNat = v.toNat * n.toNat / 2 ^ 64 := by
  have hlow : (n &&& 0xffffffff).toNat = n.toNat % 2 ^ 32 := Nat.and_two_pow_sub_one_eq_mod n.toNat 32
  have hv := Nat.div_add_mod v.toNat (2 ^ 32)
  have hn := Nat.div_add_mod n.toNat (2 ^ 32)
  have ha : v.toNat / 2 ^ 32 < 2 ^ 32 := by have := v.toNat_lt; omega
  have hc : n.toNat / 2 ^ 32 < 2 ^ 32 := by have := n.toNat_lt; omega
  have hb : v.toNat % 2 ^ 32 < 2 ^ 32 := Nat.mod_lt _ (by decide)
  have hd : n.toNat % 2 ^ 32 < 2 ^ 32 := Nat.mod_lt _ (by decide)
  have hprod := high_mul (v.toNat / 2 ^ 32) (v.toNat % 2 ^ 32) (n.toNat / 2 ^ 32) (n.toNat % 2 ^ 32)
  rw [hv, hn] at hprod
  -- no partial product and no sum of them is cut off
  have hmul : ∀ {x y}, x < 2 ^ 32 → y < 2 ^ 32 → x * y < 2 ^ 64 := by
    intro x y hx hy
    have hlt := Nat.mul_lt_mul'' hx hy
    omega
  have hac := hmul ha hc
  have had := hmul ha hd
  have hcb := hmul hc hb
  have hbd := hmul hb hd
  have htotal : v.toNat * n.toNat / 2 ^ 64 < 2 ^ 64 := by
    have := Nat.mul_lt_mul'' v.toNat_lt n.toNat_lt
    omega
  simp only [fastReduction, UInt64.toNat_add, UInt64.toNat_mul, toNat_high, toNat_low, hlow]
  rw [Nat.mod_eq_of_lt hac, Nat.mod_eq_of_lt had, Nat.mod_eq_of_lt hcb, Nat.mod_eq_of_lt hbd]
  omega

/-- **The reduction is the upper half of the product**, and so it is below the range and keeps the order. -/
theorem fastReduction_exact (v n : UInt64) :
    (fastReduction v (n >>> 32) (n &&& 0xffffffff)).toNat = v.toNat * n.toNat / 2 ^ 64 ∧
    (0 < n → fastReduction v (n >>> 32) (n &&& 0xffffffff) < n) ∧
    ∀ w, v ≤ w → fastReduction v (n >>> 32) (n &&& 0xffffffff) ≤ fastReduction w (n >>> 32) (n &&& 0xffffffff) := by
  refine ⟨toNat_fastReduction v n, fun hn => ?_, fun w hw => ?_⟩
  · rw [UInt64.lt_iff_toNat_lt, toNat_fastReduction]
    exact Nat.div_lt_of_lt_mul (Nat.mul_lt_mul_of_pos_right v.toNat_lt hn)
  · rw [UInt64.le_iff_toNat_le, toNat_fastReduction, toNat_fastReduction]
    exact Nat.div_le_div_right (Nat.mul_le_mul_right _ hw)

/-! ## Building -/

/-- The bits for a value after the one before it. -/
def writeValue (p : UInt8) (lastValue v : UInt64) : List Bool :=
  let remainder := (v - lastValue) &&& (((1 : UInt64) <<< p.toUInt64) - 1)
  let value := (v - lastValue - remainder) >>> p.toUInt64
  replicate value.toNat true ++ false :: lowBits p.toNat remainder.toNat

def writeValues (p : UInt8) : UInt64 → List UInt64 → List Bool
  | _, [] => []
  | lastValue, v :: values => writeValue p lastValue v ++ writeValues p v values

section Model
variable (siphash : FixedBytes keySize → Bytes → UInt64)

/-- The hash of an item, reduced to the range of a filter. -/
def term (modulusNP : UInt64) (key : FixedBytes keySize) (d : Bytes) : UInt64 :=
  fastReduction (siphash key d) (modulusNP >>> 32) modulusNP.toUInt32.toUInt64

/-- The hashes of a list of items in increasing order. -/
def sortedTerms (modulusNP : UInt64) (key : FixedBytes keySize) (data : List Bytes) : List UInt64 :=
  (data.map (term siphash modulusNP key)).mergeSort fun a b => decide (a ≤ b)

def buildGCSFilter (P : UInt8) (M : UInt64) (key : FixedBytes keySize) (data : List Bytes) : Except GcsError Filter :=
  if 2 ^ 32 ≤ data.length then .error .nTooBig
  else if P > 32 then .error .pTooBig
  else
    let n := UInt32.ofNat data.length
    let modulusNP := n.toUInt64 * M
    if n = 0 then .ok ⟨n, P, modulusNP, []⟩
    else .ok ⟨n, P, modulusNP, packBits (writeValues P 0 (sortedTerms siphash modulusNP key data))⟩

def fromBytes (N : UInt32) (P : UInt8) (M : UInt64) (d : Bytes) : Except GcsError Filter :=
  if P > 32 then .error .pTooBig
  else .ok ⟨N, P, N.toUInt64 * M, d⟩

def fromNBytes (P : UInt8) (M : UInt64) (d : Bytes) : Except GcsError Filter :=
  match readVarInt.run d with
  | .error err => .error (.wire err)
  | .ok (N, rest) =>
    if 2 ^ 32 ≤ N.toNat then .error .nTooBig
    else fromBytes N.toUInt32 P M rest

def Filter.nBytes (f : Filter) : Bytes := writeVarInt f.n.toUInt64 ++ f.filterData

/-! ## Queries -/

/-- The loop of `readFullUint64` over the ones. -/
def readOnes : UInt64 → List Bool → Option (UInt64 × List Bool)
  | _, [] => none
  | quotient, false :: rest => some (quotient, rest)
  | quotient, true :: rest => readOnes (quotient + 1) rest

/-- `readFullUint64`; the only error of the stream is `io.EOF`. -/
def readFullUint64 (p : UInt8) (bits : List Bool) : Option (UInt64 × List Bool) :=
  match readOnes 0 bits with
  | none => none
  | some (quotient, rest) =>
    match readBits p.toNat rest with
    | none => none
    | some (remainder, rest) => some ((quotient <<< p.toUInt64) + UInt64.ofNat remainder, rest)

/-- The loop of `Match`, for the number of turns that are left. -/
def matchLoop (p : UInt8) (term : UInt64) : Nat → UInt64 → List Bool → Bool
  | 0, _, _ => false
  | i + 1, value, bits =>
    match readFullUint64 p bits with
    | none => false
    | some (delta, rest) =>
      let value := value + delta
      if value = term then true
      else if term < value then false
      else matchLoop p term i value rest

/-- `Match`, which returns no error: at `io.EOF` it returns false. -/
def Filter.matchData (f : Filter) (key : FixedBytes keySize) (data : Bytes) : Bool :=
  matchLoop f.p (term siphash f.modulusNP key data) f.n.toNat 0 (unpackBits f.filterData)

/-- How the inner loop of `ZipMatchAny` ends. -/
inductive ZipStep
  | exhausted | found
  | next (values : List UInt64)

/-- The inner loop of `ZipMatchAny`, over what is left of the query. -/
def zipStep (value : UInt64) : List UInt64 → ZipStep
  | [] => .exhausted
  | q :: values =>
    if q = value then .found
    else if value < q then .next (q :: values)
    else zipStep value values

def zipLoop (p : UInt8) : Nat → UInt64 → List UInt64 → List Bool → Bool
  | 0, _, _, _ => false
  | i + 1, value, values, bits =>
    match readFullUint64 p bits with
    | none => false
    | some (delta, rest) =>
      match zipStep (value + delta) values with
      | .exhausted => false
      | .found => true
      | .next values => zipLoop p i (value + delta) values rest

def Filter.zipMatchAny (f : Filter) (key : FixedBytes keySize) (data : List Bytes) : Bool :=
  if data.length = 0 then false
  else zipLoop f.p f.n.toNat 0 (sortedTerms siphash f.modulusNP key data) (unpackBits f.filterData)

end Model

/-! ## The stream -/

variable {p : UInt8}

theorem readOnes_eq (bits : List Bool) : ∀ quotient, readOnes quotient bits =
    match readUnary bits with
    | none => none
    | some (q, rest) => some (quotient + UInt64.ofNat q, rest) := by
  induction bits with
  | nil =>
    intro quotient
    rfl
  | cons b bits ih =>
    intro quotient
    cases b with
    | false => simp [readOnes, readUnary]
    | true =>
      rw [readOnes, ih, readUnary]
      cases readUnary bits with
      | none => rfl
      | some qr =>
        simp only [UInt64.ofNat_add, Option.some.injEq, Prod.mk.injEq, and_true]
        rw [UInt64.add_assoc, UInt64.add_comm 1]
        rfl

theorem readFullUint64_eq (hp : p ≤ 32) (bits : List Bool) : readFullUint64 p bits =
    match readGolomb p.toNat bits with
    | none => none
    | some (d, rest) => some (UInt64.ofNat d, rest) := by
  rw [readFullUint64, readGolomb, readOnes_eq]
  cases readUnary bits with
  | none => rfl
  | some qr =>
    dsimp only
    cases readBits p.toNat qr.2 with
    | none => rfl
    | some rr =>
      dsimp only
      rw [UInt64.zero_add, UInt64.ofNat_add]
      congr 3
      apply UInt64.toNat_inj.mp
      have hp' : p.toNat ≤ 32 := UInt8.le_iff_toNat_le.mp hp
      rw [UInt64.toNat_shiftLeft, UInt8.toNat_toUInt64, Nat.mod_eq_of_lt (by omega : p.toNat < 64), Nat.shiftLeft_eq,
        UInt64.toNat_ofNat', UInt64.toNat_ofNat', Nat.mod_mul_mod]

variable {bits : List Bool} {P : UInt8}

theorem length_readFullUint64 {rest : List Bool} {v : UInt64} (h : readFullUint64 p bits = some (v, rest)) :
    rest.length < bits.length := by
  rw [readFullUint64, readOnes_eq] at h
  cases hunary : readUnary bits with
  | none =>
    rw [hunary] at h
    cases h
  | some qr =>
    have hlt := length_readUnary hunary
    rw [hunary] at h
    dsimp only at h
    rw [readBits] at h
    split_ifs at h
    cases h
    rw [length_drop]
    omega

/-- A value is written as the code of its difference from the last one. -/
theorem writeValue_eq (hp : p ≤ 32) (lastValue v : UInt64) :
    writeValue p lastValue v = golomb p.toNat (v - lastValue).toNat := by
  have hp' : p.toNat ≤ 32 := UInt8.le_iff_toNat_le.mp hp
  rw [writeValue]
  generalize v - lastValue = d
  have hpow : ((1 : UInt64) <<< p.toUInt64).toNat = 2 ^ p.toNat := by
    have hlt : 2 ^ p.toNat < 2 ^ 64 := Nat.pow_lt_pow_right (by decide) (by omega)
    rw [UInt64.toNat_shiftLeft, UInt8.toNat_toUInt64, Nat.mod_eq_of_lt (by omega : p.toNat < 64), Nat.shiftLeft_eq,
      UInt64.toNat_one, Nat.one_mul, Nat.mod_eq_of_lt hlt]
  have hmask : ((1 : UInt64) <<< p.toUInt64 - 1).toNat = 2 ^ p.toNat - 1 := by
    rw [UInt64.toNat_sub_of_le _ _ (UInt64.le_iff_toNat_le.mpr (by rw [hpow]; exact Nat.two_pow_pos _)), hpow]
    rfl
  have hrem : (d &&& ((1 : UInt64) <<< p.toUInt64 - 1)).toNat = d.toNat % 2 ^ p.toNat := by
    rw [UInt64.toNat_and, hmask, Nat.and_two_pow_sub_one_eq_mod]
  have hquot : ((d - (d &&& ((1 : UInt64) <<< p.toUInt64 - 1))) >>> p.toUInt64).toNat = d.toNat / 2 ^ p.toNat := by
    rw [UInt64.toNat_shiftRight, UInt8.toNat_toUInt64, Nat.mod_eq_of_lt (by omega : p.toNat < 64), Nat.shiftRight_eq_div_pow,
      UInt64.toNat_sub_of_le _ _ (UInt64.le_iff_toNat_le.mpr (by rw [hrem]; exact Nat.mod_le ..)), hrem]
    exact Nat.div_eq_sub_mod_div.symm
  rw [hrem, hquot, lowBits_mod, golomb]

/-- The next value, whatever follows. -/
theorem readFullUint64_writeValue (hp : p ≤ 32) (lastValue v : UInt64) (rest : List Bool) :
    readFullUint64 p (writeValue p lastValue v ++ rest) = some (v - lastValue, rest) := by
  rw [readFullUint64_eq hp, writeValue_eq hp, readGolomb_append]
  dsimp only
  rw [UInt64.ofNat_toNat]

/-! ## The whole stream -/

/-- The loop that decodes the stream to its end into a set with keys of 32 bits. -/
def indexValues (p : UInt8) (lastValue : UInt64) (bits : List Bool) : List UInt32 :=
  match h : readFullUint64 p bits with
  | none => []
  | some (value, rest) =>
    have : rest.length < bits.length := length_readFullUint64 h
    (lastValue + value).toUInt32 :: indexValues p (lastValue + value) rest
termination_by bits.length

theorem indexValues_of_some {lastValue value : UInt64} {rest : List Bool}
    (h : readFullUint64 p bits = some (value, rest)) :
    indexValues p lastValue bits = (lastValue + value).toUInt32 :: indexValues p (lastValue + value) rest := by
  rw [indexValues]
  split
  · next h' =>
    rw [h] at h'
    cases h'
  · next h' =>
    rw [h] at h'
    cases h'
    rfl

theorem indexValues_of_none {lastValue : UInt64} (h : readFullUint64 p bits = none) :
    indexValues p lastValue bits = [] := by
  rw [indexValues]
  split
  · rfl
  · next h' =>
    rw [h] at h'
    cases h'

theorem add_sub_self (a b : UInt64) : a + (b - a) = b := by rw [UInt64.add_comm, UInt64.sub_add_cancel]

/-- The padding repeats the last value. -/
theorem mem_indexValues_zeros (hp : p ≤ 32) (lastValue : UInt64) (k : Nat) :
    ∀ x ∈ indexValues p lastValue (replicate k false), x = lastValue.toUInt32 := by
  induction k using Nat.strong_induction_on with
  | _ k ih =>
    intro x hx
    have hread := readFullUint64_eq hp (replicate k false)
    rcases readGolomb_zeros p.toNat k with hnone | ⟨j, hj, hsome⟩
    · rw [hnone] at hread
      rw [indexValues_of_none hread] at hx
      cases hx
    · rw [hsome] at hread
      rw [indexValues_of_some hread] at hx
      have hzero : lastValue + UInt64.ofNat 0 = lastValue := UInt64.add_zero _
      rw [hzero] at hx
      rcases mem_cons.mp hx with rfl | hx
      · rfl
      · exact ih j hj x hx

/-- The set is that of the values, if there are any. -/
theorem mem_indexValues (hp : p ≤ 32) (k : Nat) (x : UInt32) (values : List UInt64) (hne : values ≠ []) :
    ∀ lastValue, x ∈ indexValues p lastValue (writeValues p lastValue values ++ replicate k false) ↔
      x ∈ values.map UInt64.toUInt32 := by
  induction values with
  | nil => exact absurd rfl hne
  | cons v values ih =>
    intro lastValue
    rw [writeValues, append_assoc, indexValues_of_some (readFullUint64_writeValue hp lastValue v _), add_sub_self,
      map_cons, mem_cons, mem_cons]
    cases values with
    | nil =>
      rw [writeValues, nil_append, map_nil]
      constructor
      · rintro (rfl | hx)
        · exact .inl rfl
        · exact .inl (mem_indexValues_zeros hp v k x hx)
      · rintro (rfl | hx)
        · exact .inl rfl
        · cases hx
    | cons w values => rw [ih (cons_ne_nil _ _)]

/-- Decoding stops at the value or past it. -/
theorem matchLoop_eq (hp : p ≤ 32) (t : UInt64) (pad : List Bool) (values : List UInt64) :
    ∀ lastValue, values.Pairwise (· ≤ ·) →
      matchLoop p t values.length lastValue (writeValues p lastValue values ++ pad) = decide (t ∈ values) := by
  induction values with
  | nil =>
    intro lastValue _
    rfl
  | cons v values ih =>
    intro lastValue hsorted
    obtain ⟨hle, hsorted⟩ := pairwise_cons.mp hsorted
    rw [length_cons, matchLoop, writeValues, append_assoc, readFullUint64_writeValue hp]
    dsimp only
    rw [add_sub_self]
    split_ifs with heq hlt
    · rw [← heq]
      exact (decide_eq_true mem_cons_self).symm
    · refine (decide_eq_false fun hmem => ?_).symm
      rcases mem_cons.mp hmem with rfl | hmem
      · exact UInt64.lt_irrefl _ hlt
      · exact absurd (hle t hmem) (UInt64.not_le.mpr hlt)
    · rw [ih v hsorted]
      have hne : ¬ t = v := fun h => heq h.symm
      simp [hne]

/-- Everything below the value is given up. -/
theorem zipStep_eq (value : UInt64) (qs : List UInt64) : zipStep value qs =
    match qs.dropWhile (· < value) with
    | [] => .exhausted
    | q :: rest => if q = value then .found else .next (q :: rest) := by
  induction qs with
  | nil => rfl
  | cons q qs ih =>
    rw [zipStep, ih]
    by_cases hlt : q < value
    · rw [if_neg (UInt64.ne_of_lt hlt), if_neg (UInt64.lt_asymm hlt), dropWhile_cons, if_pos (decide_eq_true hlt)]
    · rw [dropWhile_cons_of_neg (by simpa using hlt)]
      dsimp only
      split_ifs with heq hgt
      · rfl
      · rfl
      · exact absurd (UInt64.le_antisymm (UInt64.not_lt.mp hgt) (UInt64.not_lt.mp hlt)) heq

theorem zipLoop_eq (hp : p ≤ 32) (pad : List Bool) (values : List UInt64) :
    ∀ lastValue qs, values.Pairwise (· ≤ ·) → qs.Pairwise (· ≤ ·) →
      zipLoop p values.length lastValue qs (writeValues p lastValue values ++ pad) = decide (∃ q ∈ qs, q ∈ values) := by
  induction values with
  | nil =>
    intro lastValue qs _ _
    simp [zipLoop]
  | cons v values ih =>
    intro lastValue qs hsorted hqs
    obtain ⟨hle, hsorted'⟩ := pairwise_cons.mp hsorted
    -- what is given up is below every value
    have hkept : (∃ q ∈ qs, q ∈ v :: values) ↔ ∃ q ∈ qs.dropWhile (· < v), q ∈ v :: values := by
      refine exists_congr fun q => and_congr_left fun hmem => ⟨fun hq => ?_, (dropWhile_sublist _).mem⟩
      rw [← takeWhile_append_dropWhile (p := (· < v)) (l := qs), mem_append] at hq
      refine hq.resolve_left fun hlow => ?_
      have hlt : q < v := by simpa using mem_takeWhile_imp hlow
      rcases mem_cons.mp hmem with rfl | hmem
      · exact UInt64.lt_irrefl _ hlt
      · exact absurd (hle q hmem) (UInt64.not_le.mpr hlt)
    have hpair := hqs.sublist (dropWhile_sublist (decide <| · < v))
    have hhead := head?_dropWhile_not (decide <| · < v) qs
    rw [length_cons, zipLoop, writeValues, append_assoc, readFullUint64_writeValue hp]
    dsimp only
    rw [add_sub_self, zipStep_eq]
    cases hrest : qs.dropWhile (· < v) with
    | nil =>
      rw [hrest] at hkept
      exact (decide_eq_false (by rw [hkept]; simp)).symm
    | cons q rest =>
      rw [hrest] at hpair hhead hkept
      dsimp only
      split_ifs with heq
      · exact (decide_eq_true (hkept.mpr ⟨q, mem_cons_self, heq ▸ mem_cons_self⟩)).symm
      · dsimp only
        rw [ih v (q :: rest) hsorted' hpair, decide_eq_decide, hkept]
        refine exists_congr fun x => and_congr_right fun hx => ⟨mem_cons_of_mem v, fun hmem => ?_⟩
        refine (mem_cons.mp hmem).resolve_left ?_
        rintro rfl
        have hq : q ≤ x := (mem_cons.mp hx).elim (fun h => h ▸ UInt64.le_refl _) ((pairwise_cons.mp hpair).1 x)
        exact heq (UInt64.le_antisymm hq (UInt64.not_lt.mp (by simpa using hhead)))

/-! ## Filters -/

section Filters
variable (siphash : FixedBytes keySize → Bytes → UInt64)

def Filter.hashMatchAny (f : Filter) (key : FixedBytes keySize) (data : List Bytes) : Bool :=
  if data.length = 0 then false
  else
    let values := indexValues f.p 0 (unpackBits f.filterData)
    data.any fun d => values.contains (term siphash f.modulusNP key d).toUInt32

def Filter.matchAny (f : Filter) (key : FixedBytes keySize) (data : List Bytes) : Bool :=
  if f.n.toNat / 2 ≤ data.length then f.hashMatchAny siphash key data
  else f.zipMatchAny siphash key data

theorem pairwise_sortedTerms (modulusNP : UInt64) (key : FixedBytes keySize) (data : List Bytes) :
    (sortedTerms siphash modulusNP key data).Pairwise (· ≤ ·) := by
  refine (pairwise_mergeSort ?_ ?_ _).imp fun h => of_decide_eq_true h
  · intro a b c hab hbc
    exact decide_eq_true (UInt64.le_trans (of_decide_eq_true hab) (of_decide_eq_true hbc))
  · intro a b
    rw [Bool.or_eq_true, decide_eq_true_iff, decide_eq_true_iff]
    exact UInt64.le_total a b

theorem mem_sortedTerms {modulusNP : UInt64} {key : FixedBytes keySize} {data : List Bytes} {t : UInt64} :
    t ∈ sortedTerms siphash modulusNP key data ↔ ∃ d ∈ data, term siphash modulusNP key d = t := by
  rw [sortedTerms, mem_mergeSort, mem_map]

/-- A filter over a list of items. -/
structure BuiltFrom (key : FixedBytes keySize) (data : List Bytes) (f : Filter) : Prop where
  p_le : f.p ≤ 32
  n_eq : f.n.toNat = data.length
  /-- The stream is the sorted hashes and less than a byte of zeros, or nothing. -/
  bits : ∃ k, unpackBits f.filterData =
    writeValues f.p 0 (sortedTerms siphash f.modulusNP key data) ++ replicate k false ∧ (data = [] → k = 0)

variable {siphash} {key : FixedBytes keySize} {data : List Bytes} {f : Filter}

theorem builtFrom_of_build {M : UInt64} (h : buildGCSFilter siphash P M key data = .ok f) :
    BuiltFrom siphash key data f ∧ f.p = P ∧ f.modulusNP = f.n.toUInt64 * M := by
  rw [buildGCSFilter] at h
  dsimp only at h
  split_ifs at h with hn hP hzero
  · cases h
    have hnat := UInt32.toNat_ofNat_of_lt' (not_le.mp hn)
    have hnil : data = [] := by
      rw [← length_eq_zero_iff, ← hnat, hzero]
      rfl
    subst hnil
    refine ⟨⟨UInt8.not_lt.mp hP, rfl, 0, ?_, fun _ => rfl⟩, rfl, rfl⟩
    simp [sortedTerms, unpackBits, writeValues]
  · cases h
    have hnat := UInt32.toNat_ofNat_of_lt' (not_le.mp hn)
    obtain ⟨k, hbits⟩ := unpackBits_packBits (writeValues P 0
      (sortedTerms siphash ((UInt32.ofNat data.length).toUInt64 * M) key data))
    refine ⟨⟨UInt8.not_lt.mp hP, hnat, k, hbits, fun hnil => absurd ?_ hzero⟩, rfl, rfl⟩
    rw [hnil]
    rfl

variable (siphash key data) in
theorem length_sortedTerms (modulusNP : UInt64) : (sortedTerms siphash modulusNP key data).length = data.length := by
  rw [sortedTerms, length_mergeSort, length_map]

section
variable (h : BuiltFrom siphash key data f)
include h

variable (key' : FixedBytes keySize)

/-- `Match` says whether the hash is among those of the items. -/
theorem BuiltFrom.matchData_iff (d : Bytes) :
    f.matchData siphash key' d = true ↔ ∃ x ∈ data, term siphash f.modulusNP key x = term siphash f.modulusNP key' d := by
  obtain ⟨k, hbits, -⟩ := h.bits
  rw [Filter.matchData, hbits, h.n_eq, ← length_sortedTerms siphash key data f.modulusNP,
    matchLoop_eq h.p_le _ _ _ _ (pairwise_sortedTerms siphash ..), decide_eq_true_iff, mem_sortedTerms]

theorem BuiltFrom.zipMatchAny_iff (qs : List Bytes) : f.zipMatchAny siphash key' qs = true ↔
      ∃ d ∈ qs, ∃ x ∈ data, term siphash f.modulusNP key x = term siphash f.modulusNP key' d := by
  obtain ⟨k, hbits, -⟩ := h.bits
  rw [Filter.zipMatchAny]
  split_ifs with hnil
  · rw [length_eq_zero_iff.mp hnil]
    simp
  · rw [hbits, h.n_eq, ← length_sortedTerms siphash key data f.modulusNP,
      zipLoop_eq h.p_le _ _ _ _ (pairwise_sortedTerms siphash ..) (pairwise_sortedTerms siphash ..),
      decide_eq_true_iff]
    constructor
    · rintro ⟨q, hq, hmem⟩
      obtain ⟨d, hd, rfl⟩ := (mem_sortedTerms siphash).mp hq
      exact ⟨d, hd, (mem_sortedTerms siphash).mp hmem⟩
    · rintro ⟨d, hd, hx⟩
      exact ⟨_, (mem_sortedTerms siphash).mpr ⟨d, hd, rfl⟩, (mem_sortedTerms siphash).mpr hx⟩

/-- `HashMatchAny` compares the lower halves of the hashes. -/
theorem BuiltFrom.hashMatchAny_iff (qs : List Bytes) : f.hashMatchAny siphash key' qs = true ↔
      ∃ d ∈ qs, ∃ x ∈ data, (term siphash f.modulusNP key x).toUInt32 = (term siphash f.modulusNP key' d).toUInt32 := by
  obtain ⟨k, hbits, hk⟩ := h.bits
  have hmem : ∀ y, y ∈ indexValues f.p 0 (unpackBits f.filterData) ↔
      ∃ x ∈ data, (term siphash f.modulusNP key x).toUInt32 = y := by
    intro y
    rw [hbits]
    by_cases hnil : data = []
    · have hread : readFullUint64 f.p [] = none := rfl
      rw [hk hnil, hnil, sortedTerms, map_nil, mergeSort_nil, writeValues, replicate_zero, append_nil,
        indexValues_of_none hread]
      simp
    · have hne : sortedTerms siphash f.modulusNP key data ≠ [] := by
        rw [← length_pos_iff, length_sortedTerms]
        exact length_pos_iff.mpr hnil
      rw [mem_indexValues h.p_le k y _ hne, mem_map]
      constructor
      · rintro ⟨t, ht, rfl⟩
        obtain ⟨x, hx, rfl⟩ := (mem_sortedTerms siphash).mp ht
        exact ⟨x, hx, rfl⟩
      · rintro ⟨x, hx, rfl⟩
        exact ⟨_, (mem_sortedTerms siphash).mpr ⟨x, hx, rfl⟩, rfl⟩
  rw [Filter.hashMatchAny]
  split_ifs with hnil
  · rw [length_eq_zero_iff.mp hnil]
    simp
  · dsimp only
    rw [any_eq_true]
    simp only [contains_iff_mem, hmem]

end

/-! ## No false negatives -/

theorem fromNBytes_nBytes {M : UInt64} (hp : f.p = P) (hle : P ≤ 32) (hmod : f.modulusNP = f.n.toUInt64 * M) :
    fromNBytes P M f.nBytes = .ok f := by
  have hlt : ¬ 2 ^ 32 ≤ f.n.toUInt64.toNat := by
    rw [UInt32.toNat_toUInt64]
    have := f.n.toNat_lt
    omega
  rw [fromNBytes, Filter.nBytes, format_readVarInt.reads trivial]
  dsimp only
  rw [if_neg hlt, fromBytes, if_neg (UInt8.not_lt.mpr hle), UInt32.toUInt32_toUInt64, ← hmod, ← hp]

variable (siphash key) in
theorem exists_build (hP : P ≤ 32) (M : UInt64) (hne : data ≠ []) (hlen : data.length < 2 ^ 32) :
    ∃ f, buildGCSFilter siphash P M key data = .ok f := by
  have hzero : UInt32.ofNat data.length ≠ 0 := by
    intro h
    refine hne (length_eq_zero_iff.mp ?_)
    rw [← UInt32.toNat_ofNat_of_lt' hlen, h]
    rfl
  rw [buildGCSFilter, if_neg (by omega), if_neg (UInt8.not_lt.mpr hP)]
  rw [if_neg hzero]
  exact ⟨_, rfl⟩

/-- A filter has every item that it was built from, and so has the filter read back from its bytes. -/
theorem build_matches (siphash : FixedBytes keySize → Bytes → UInt64) {P : UInt8} (hP : P ≤ 32) (M : UInt64)
    (key : FixedBytes keySize) {data : List Bytes} (hne : data ≠ []) (hlen : data.length < 2 ^ 32) :
    ∃ f f', buildGCSFilter siphash P M key data = .ok f ∧ fromNBytes P M f.nBytes = .ok f' ∧
      ∀ d ∈ data, f.matchData siphash key d = true ∧ f'.matchData siphash key d = true := by
  obtain ⟨f, hf⟩ := exists_build siphash key hP M hne hlen
  obtain ⟨hbuilt, hp, hmod⟩ := builtFrom_of_build hf
  refine ⟨f, f, hf, fromNBytes_nBytes hp hP hmod, fun d hd => ?_⟩
  have hmatch := (hbuilt.matchData_iff key d).mpr ⟨d, hd, rfl⟩
  exact ⟨hmatch, hmatch⟩

/-- One item, with a hash that is always zero. -/
theorem build_matches_one : ∃ f f', buildGCSFilter (fun _ _ => 0) 19 784931 (FixedBytes.zero keySize) [[1]] = .ok f ∧
    fromNBytes 19 784931 f.nBytes = .ok f' ∧ ∀ d ∈ [[1]], f.matchData (fun _ _ => 0) (FixedBytes.zero keySize) d = true ∧
      f'.matchData (fun _ _ => 0) (FixedBytes.zero keySize) d = true :=
  build_matches (fun _ _ => 0) (by decide) 784931 (FixedBytes.zero keySize) (cons_ne_nil _ _) (by decide)

/-! ## The three bulk queries -/

variable (siphash) in
/-- The bulk queries say whether `Match` finds one of the items. -/
def Agree (f : Filter) (key : FixedBytes keySize) (qs : List Bytes) : Prop :=
  f.matchAny siphash key qs = qs.any (fun d => f.matchData siphash key d) ∧
  f.zipMatchAny siphash key qs = qs.any (fun d => f.matchData siphash key d) ∧
  f.hashMatchAny siphash key qs = qs.any (fun d => f.matchData siphash key d)

variable (siphash) in
/-- Where a lower half of a hash is found, a hash is. -/
def HalvesTell (modulusNP : UInt64) (key : FixedBytes keySize) (data : List Bytes) (key' : FixedBytes keySize)
    (qs : List Bytes) : Prop :=
  (∃ d ∈ qs, ∃ x ∈ data, (term siphash modulusNP key x).toUInt32 = (term siphash modulusNP key' d).toUInt32) →
    ∃ d ∈ qs, ∃ x ∈ data, term siphash modulusNP key x = term siphash modulusNP key' d

/-- The bulk queries agree with `Match` exactly where the lower halves of the hashes tell. -/
theorem bulk_agree_iff {P : UInt8} {M : UInt64} (h : buildGCSFilter siphash P M key data = .ok f) (key' : FixedBytes keySize)
    (qs : List Bytes) : Agree siphash f key' qs ↔ HalvesTell siphash (UInt64.ofNat data.length * M) key data key' qs := by
  obtain ⟨hbuilt, -, hmod⟩ := builtFrom_of_build h
  have hn : f.n.toUInt64 = UInt64.ofNat data.length := by
    apply UInt64.toNat_inj.mp
    have := f.n.toNat_lt
    rw [UInt32.toNat_toUInt64, UInt64.toNat_ofNat', ← hbuilt.n_eq, Nat.mod_eq_of_lt (by omega)]
  rw [hn] at hmod
  rw [← hmod]
  have hany : (qs.any fun d => f.matchData siphash key' d) = true ↔
      ∃ d ∈ qs, ∃ x ∈ data, term siphash f.modulusNP key x = term siphash f.modulusNP key' d := by
    rw [any_eq_true]
    simp only [hbuilt.matchData_iff]
  have hzip : f.zipMatchAny siphash key' qs = qs.any (fun d => f.matchData siphash key' d) := by
    rw [Bool.eq_iff_iff, hbuilt.zipMatchAny_iff, hany]
  have hhash : f.hashMatchAny siphash key' qs = qs.any (fun d => f.matchData siphash key' d) ↔
      HalvesTell siphash f.modulusNP key data key' qs := by
    rw [Bool.eq_iff_iff, hbuilt.hashMatchAny_iff, hany, HalvesTell]
    refine ⟨fun hiff => hiff.mp, fun htell => ⟨htell, ?_⟩⟩
    rintro ⟨d, hd, x, hx, heq⟩
    exact ⟨d, hd, x, hx, by rw [heq]⟩
  rw [← hhash, Agree, Filter.matchAny]
  constructor
  · exact fun hagree => hagree.2.2
  · intro heq
    refine ⟨?_, hzip, heq⟩
    split_ifs
    · exact heq
    · exact hzip

theorem bulk_agree_one : ∃ f, buildGCSFilter (fun _ _ => 0) 19 784931 (FixedBytes.zero keySize) [[1]] = .ok f ∧
    Agree (fun _ _ => 0) f (FixedBytes.zero keySize) [[2]] := by
  obtain ⟨f, hf⟩ := exists_build (fun _ _ => 0) (FixedBytes.zero keySize) (by decide : (19 : UInt8) ≤ 32) 784931
    (cons_ne_nil [1] []) (by decide)
  refine ⟨f, hf, (bulk_agree_iff hf (FixedBytes.zero keySize) [[2]]).mpr fun _ => ?_⟩
  exact ⟨[2], mem_cons_self, [1], mem_cons_self, rfl⟩

/-- A hash that is `2 ^ 63` but for one item. -/
def farHash (_ : FixedBytes keySize) (d : Bytes) : UInt64 := if d = [1] then 0 else 0x8000000000000000

/-- In a range of 33 bits the hashes `0` and `2 ^ 32` have the same lower half. -/
theorem hash_finds_other : ∃ f, buildGCSFilter farHash 19 0x200000000 (FixedBytes.zero keySize) [[1]] = .ok f ∧
    f.hashMatchAny farHash (FixedBytes.zero keySize) [[2]] = true ∧ f.zipMatchAny farHash (FixedBytes.zero keySize) [[2]] = false ∧
    f.matchData farHash (FixedBytes.zero keySize) [2] = false := by
  obtain ⟨f, hf⟩ := exists_build farHash (FixedBytes.zero keySize) (by decide : (19 : UInt8) ≤ 32) 0x200000000
    (cons_ne_nil [1] []) (by decide)
  obtain ⟨hbuilt, -, hmod⟩ := builtFrom_of_build hf
  have hn : f.n = 1 := UInt32.toNat_inj.mp hbuilt.n_eq
  rw [hn] at hmod
  have hne : ¬ ∃ x ∈ [[1]], term farHash f.modulusNP (FixedBytes.zero keySize) x =
      term farHash f.modulusNP (FixedBytes.zero keySize) [2] := by
    rw [hmod]
    decide
  refine ⟨f, hf, (hbuilt.hashMatchAny_iff ..).mpr ⟨[2], mem_cons_self, [1], mem_cons_self, ?_⟩, ?_, ?_⟩
  · rw [hmod]
    decide
  · rw [Bool.eq_false_iff, ne_eq, hbuilt.zipMatchAny_iff]
    rintro ⟨d, hd, hx⟩
    obtain rfl := mem_singleton.mp hd
    exact hne hx
  · rwa [Bool.eq_false_iff, ne_eq, hbuilt.matchData_iff]

end Filters
end NogoCommons.Gcs
