import NogoCommons.Address.Bech32

/-!
# `ConvertBits` — bits in groups of another size

The loops move bits from the front of one byte to the end of another, and it is the list of all bits that does not change:
the bits of the groups that are finished, then those of the one that is being filled, then those not yet taken
(`Holds.extract`). What is left at the end decides. With padding the last group is filled up with zeros; without, a last
group of at most four zeros is dropped. In both cases the result is the only one with its bits (`convertBits_pad`,
`convertBits_exact`), and bytes that are put into groups of five are the only ones that come out again
(`convertBits_five_eight`).
-/

namespace NogoCommons.Bech32
open Lib List

/-- `b << n` on bytes. -/
def shl (b : UInt8) (n : Nat) : UInt8 := UInt8.ofNat (b.toNat <<< n)

/-- `b >> n` on bytes. -/
def shr (b : UInt8) (n : Nat) : UInt8 := UInt8.ofNat (b.toNat >>> n)

/-- The groups that are finished, and the next one. -/
structure Regrouping where
  regrouped : Bytes
  nextByte : UInt8
  filledBits : Nat
deriving DecidableEq, Repr

/-- The inner loop: the first `remFromBits` bits of a byte. Every pass takes a bit at least, so there are never more
passes than bits. -/
def extract (toBits : Nat) : Nat → UInt8 → Nat → Regrouping → Regrouping
  | 0, _, _, s => s
  | passes + 1, b, remFromBits, s =>
    if 0 < remFromBits then
      let remToBits := toBits - s.filledBits
      let toExtract := if remToBits < remFromBits then remToBits else remFromBits
      let nextByte := shl s.nextByte toExtract ||| shr b (8 - toExtract)
      let filledBits := s.filledBits + toExtract
      extract toBits passes (shl b toExtract) (remFromBits - toExtract)
        (if filledBits = toBits then ⟨s.regrouped ++ [nextByte], 0, 0⟩ else ⟨s.regrouped, nextByte, filledBits⟩)
    else s

def regroup (fromBits toBits : Nat) (data : Bytes) : Regrouping :=
  data.foldl (fun s b => extract toBits fromBits (shl b (8 - fromBits)) fromBits s) ⟨[], 0, 0⟩

/-- An unfinished group is filled up. -/
def padLast (toBits : Nat) (s : Regrouping) : Regrouping :=
  if 0 < s.filledBits then ⟨s.regrouped ++ [shl s.nextByte (toBits - s.filledBits)], 0, 0⟩ else s

def convertBits (data : Bytes) (fromBits toBits : Nat) (pad : Bool) : Except Bech32Error Bytes :=
  if fromBits < 1 ∨ 8 < fromBits ∨ toBits < 1 ∨ 8 < toBits then .error .invalidBitGroups
  else
    let s := regroup fromBits toBits data
    let s := if pad then padLast toBits s else s
    if 0 < s.filledBits ∧ (4 < s.filledBits ∨ s.nextByte ≠ 0) then .error .invalidIncompleteGroup
    else .ok s.regrouped

/-! ## Bits -/

/-- The bits of bytes, in groups. -/
def bitsOf (w : Nat) (bs : Bytes) : List Nat := groups 2 w (bs.map UInt8.toNat)

/-- Bytes that are groups of so many bits. -/
def Fits (w : Nat) (bs : Bytes) : Prop := ∀ b ∈ bs, b.toNat < 2 ^ w

/-- The first bits of a byte. -/
def front (n : Nat) (b : UInt8) : List Nat := places 2 n (b.toNat / 2 ^ (8 - n))

@[simp] theorem bitsOf_append (w : Nat) (as bs : Bytes) : bitsOf w (as ++ bs) = bitsOf w as ++ bitsOf w bs := by
  rw [bitsOf, map_append, groups_append]
  rfl

@[simp] theorem bitsOf_singleton (w : Nat) (b : UInt8) : bitsOf w [b] = places 2 w b.toNat := by
  simp [bitsOf]

@[simp] theorem length_bitsOf (w : Nat) (bs : Bytes) : (bitsOf w bs).length = w * bs.length := by
  rw [bitsOf, length_groups, length_map]

theorem toNat_shl (b : UInt8) (n : Nat) : (shl b n).toNat = b.toNat * 2 ^ n % 256 := by
  rw [shl, UInt8.toNat_ofNat', Nat.shiftLeft_eq]

theorem toNat_shr (b : UInt8) (n : Nat) : (shr b n).toNat = b.toNat / 2 ^ n := by
  rw [shr, UInt8.toNat_ofNat', Nat.shiftRight_eq_div_pow]
  exact Nat.mod_eq_of_lt ((Nat.div_le_self _ _).trans_lt b.toNat_lt)

/-- A byte that is shifted to the front. -/
theorem front_shl {n : Nat} (h : n ≤ 8) (b : UInt8) : front n (shl b (8 - n)) = places 2 n b.toNat := by
  have hsplit : 256 = 2 ^ n * 2 ^ (8 - n) := by
    rw [← pow_add, Nat.add_sub_cancel' h]
    rfl
  rw [front, toNat_shl, hsplit, Nat.mul_mod_mul_right, Nat.mul_div_cancel _ (Nat.two_pow_pos _), places_mod]

/-- The first bits, and then those of what is left. -/
theorem front_split {e n : Nat} (he : e ≤ n) (hn : n ≤ 8) (b : UInt8) :
    front n b = places 2 e (shr b (8 - e)).toNat ++ front (n - e) (shl b e) := by
  generalize hx : b.toNat = x
  have hcut : 8 - e = (n - e) + (8 - n) := by omega
  have hback : 8 - (n - e) = (8 - n) + e := by omega
  have hsplit : 256 = 2 ^ (8 - e) * 2 ^ e := by
    rw [← pow_add, Nat.sub_add_cancel (he.trans hn)]
    rfl
  have hlow : x % 2 ^ (8 - e) / 2 ^ (8 - n) < 2 ^ (n - e) := by
    apply Nat.div_lt_of_lt_mul
    rw [← pow_add, Nat.add_comm, ← hcut]
    exact Nat.mod_lt _ (Nat.two_pow_pos _)
  have hnum : x / 2 ^ (8 - n) = x / 2 ^ (8 - e) * 2 ^ (n - e) + x % 2 ^ (8 - e) / 2 ^ (8 - n) := by
    conv_lhs => rw [← Nat.div_add_mod x (2 ^ (8 - e))]
    rw [hcut, pow_add, Nat.mul_comm (2 ^ (n - e)), Nat.mul_assoc, Nat.mul_add_div (Nat.two_pow_pos _), ← pow_add,
      Nat.mul_comm (2 ^ (n - e))]
  have hfront : front (n - e) (shl b e) = places 2 (n - e) (x % 2 ^ (8 - e) / 2 ^ (8 - n)) := by
    rw [front, toNat_shl, hx, hsplit, Nat.mul_mod_mul_right, hback, pow_add,
      Nat.mul_div_mul_right _ _ (Nat.two_pow_pos _)]
  have happend := places_append Nat.two_pos e (n - e) (x / 2 ^ (8 - e)) hlow
  rw [Nat.add_sub_cancel' he] at happend
  rw [front, hx, hnum, happend, toNat_shr, hx, hfront]

/-! ## The loops -/

/-- All bits so far. -/
def Regrouping.bits (toBits : Nat) (s : Regrouping) : List Nat :=
  bitsOf toBits s.regrouped ++ places 2 s.filledBits s.nextByte.toNat

structure Regrouping.Valid (toBits : Nat) (s : Regrouping) : Prop where
  filledBits_lt : s.filledBits < toBits
  nextByte_lt : s.nextByte.toNat < 2 ^ s.filledBits
  fits : Fits toBits s.regrouped

/-- One pass: bits go from the front of the byte to the end of the next group. -/
theorem toNat_nextByte {nextByte b : UInt8} {filled e : Nat} (hnext : nextByte.toNat < 2 ^ filled) (h : filled + e ≤ 8) :
    (shl nextByte e ||| shr b (8 - e)).toNat = nextByte.toNat * 2 ^ e + (shr b (8 - e)).toNat ∧
      (shr b (8 - e)).toNat < 2 ^ e := by
  have hb : (shr b (8 - e)).toNat < 2 ^ e := by
    rw [toNat_shr]
    apply Nat.div_lt_of_lt_mul
    rw [← pow_add, Nat.sub_add_cancel (by omega)]
    exact b.toNat_lt
  have hshl : (shl nextByte e).toNat = nextByte.toNat * 2 ^ e := by
    rw [toNat_shl]
    apply Nat.mod_eq_of_lt
    calc nextByte.toNat * 2 ^ e < 2 ^ filled * 2 ^ e := Nat.mul_lt_mul_of_pos_right hnext (Nat.two_pow_pos _)
      _ = 2 ^ (filled + e) := (pow_add ..).symm
      _ ≤ 2 ^ 8 := Nat.pow_le_pow_right (by decide) h
  refine ⟨?_, hb⟩
  rw [UInt8.toNat_or, hshl, ← Nat.shiftLeft_eq, Nat.shiftLeft_add_eq_or_of_lt hb]

theorem extract_spec {toBits passes rem : Nat} {b : UInt8} {s : Regrouping} (hto : toBits ≤ 8) (hs : s.Valid toBits)
    (hpasses : rem ≤ passes) (hrem : rem ≤ 8) :
    (extract toBits passes b rem s).Valid toBits ∧
      (extract toBits passes b rem s).bits toBits = s.bits toBits ++ front rem b := by
  induction passes generalizing b rem s with
  | zero =>
    obtain rfl : rem = 0 := by omega
    exact ⟨hs, (append_nil _).symm⟩
  | succ passes ih =>
    rw [extract]
    split_ifs with hpos
    · dsimp only
      have hfilled := hs.filledBits_lt
      generalize he : (if toBits - s.filledBits < rem then toBits - s.filledBits else rem) = e
      have hle : 0 < e ∧ e ≤ rem ∧ s.filledBits + e ≤ toBits := by
        rw [← he]
        split_ifs <;> omega
      obtain ⟨hnext, hb⟩ := toNat_nextByte (b := b) hs.nextByte_lt (e := e) (by omega)
      generalize shl s.nextByte e ||| shr b (8 - e) = nextByte at hnext
      have hplaces : places 2 (s.filledBits + e) nextByte.toNat =
          places 2 s.filledBits s.nextByte.toNat ++ places 2 e (shr b (8 - e)).toNat := by
        rw [hnext, places_append (by decide) _ _ _ hb]
      have hlt : nextByte.toNat < 2 ^ (s.filledBits + e) := by
        rw [hnext, pow_add]
        calc s.nextByte.toNat * 2 ^ e + (shr b (8 - e)).toNat < s.nextByte.toNat * 2 ^ e + 2 ^ e :=
              Nat.add_lt_add_left hb _
          _ = (s.nextByte.toNat + 1) * 2 ^ e := (Nat.succ_mul ..).symm
          _ ≤ 2 ^ s.filledBits * 2 ^ e := Nat.mul_le_mul_right _ hs.nextByte_lt
      -- the group is finished, or it is not
      have hstep : ∀ s' : Regrouping, s'.Valid toBits → s'.bits toBits = s.bits toBits ++
          places 2 e (shr b (8 - e)).toNat →
          (extract toBits passes (shl b e) (rem - e) s').Valid toBits ∧
            (extract toBits passes (shl b e) (rem - e) s').bits toBits = s.bits toBits ++ front rem b := by
        intro s' hs' hbits
        obtain ⟨hvalid, hall⟩ := ih (b := shl b e) hs' (show rem - e ≤ passes by omega) (by omega)
        refine ⟨hvalid, ?_⟩
        rw [hall, hbits, front_split hle.2.1 hrem, append_assoc]
      split_ifs with hfull
      · apply hstep
        · refine ⟨(Nat.zero_le _).trans_lt hfilled, Nat.one_pos, ?_⟩
          rw [hfull] at hlt
          exact forall_mem_append.mpr ⟨hs.fits, forall_mem_singleton.mpr hlt⟩
        · rw [hfull] at hplaces
          simp only [Regrouping.bits, bitsOf_append, bitsOf_singleton, hplaces, append_assoc]
          rw [places_width_zero, append_nil]
      · apply hstep
        · exact ⟨by dsimp only; omega, hlt, hs.fits⟩
        · simp only [Regrouping.bits, hplaces, append_assoc]
    · obtain rfl : rem = 0 := by omega
      exact ⟨hs, (append_nil _).symm⟩

theorem regroup_spec {fromBits toBits : Nat} (hfrom : fromBits ≤ 8) (hpos : 0 < toBits) (hto : toBits ≤ 8) (data : Bytes) :
    (regroup fromBits toBits data).Valid toBits ∧ (regroup fromBits toBits data).bits toBits = bitsOf fromBits data := by
  have hloop : ∀ s : Regrouping, s.Valid toBits →
      (data.foldl (fun s b => extract toBits fromBits (shl b (8 - fromBits)) fromBits s) s).Valid toBits ∧
        (data.foldl (fun s b => extract toBits fromBits (shl b (8 - fromBits)) fromBits s) s).bits toBits =
          s.bits toBits ++ bitsOf fromBits data := by
    induction data with
    | nil =>
      intro s hs
      exact ⟨hs, (append_nil _).symm⟩
    | cons b data ih =>
      intro s hs
      obtain ⟨hvalid, hbits⟩ := extract_spec (b := shl b (8 - fromBits)) hto hs (Nat.le_refl _) hfrom
      obtain ⟨hvalid', hbits'⟩ := ih _ hvalid
      refine ⟨hvalid', hbits'.trans ?_⟩
      rw [hbits, front_shl hfrom, append_assoc]
      rfl
  exact hloop ⟨[], 0, 0⟩ ⟨hpos, Nat.one_pos, forall_mem_nil _⟩

/-! ## The result -/

variable {bs data : Bytes} {w : Nat}

theorem toNat_map_injective {as : Bytes} (h : as.map UInt8.toNat = bs.map UInt8.toNat) : as = bs :=
  map_injective_iff.mpr (fun _ _ hab => UInt8.toNat_inj.mp hab) h

theorem Fits.map (h : Fits w bs) : ∀ n ∈ bs.map UInt8.toNat, n < 2 ^ w := by
  intro n hn
  obtain ⟨b, hb, rfl⟩ := mem_map.mp hn
  exact h b hb

theorem eq_of_mul_add_eq {a b u v : Nat} (hu : u < w) (hv : v < w) (h : w * a + u = w * b + v) : a = b := by
  have hdiv := congrArg (· / w) h
  have hpos := Nat.zero_lt_of_lt hu
  simp only [Nat.mul_add_div hpos, Nat.div_eq_of_lt hu, Nat.div_eq_of_lt hv, Nat.add_zero] at hdiv
  exact hdiv

/-- Groups, and fewer bits than one has. -/
theorem bitsOf_injective {as : Bytes} {u v : List Nat} (has : Fits w as) (hbs : Fits w bs) (hu : u.length < w)
    (hv : v.length < w) (h : bitsOf w as ++ u = bitsOf w bs ++ v) : as = bs ∧ u = v := by
  have hlen := congrArg length h
  rw [length_append, length_append, length_bitsOf, length_bitsOf] at hlen
  have hsame := eq_of_mul_add_eq hu hv hlen
  obtain ⟨hmap, huv⟩ := groups_injective has.map hbs.map (by rw [length_map, length_map, hsame]) h
  exact ⟨toNat_map_injective hmap, huv⟩

section
variable {fromBits toBits : Nat} (hfrom : 1 ≤ fromBits ∧ fromBits ≤ 8) (hto : 1 ≤ toBits ∧ toBits ≤ 8)
include hfrom hto

/-- Without padding, at most four bits are left over, all of them zero. -/
theorem convertBits_exact {out : Bytes} : convertBits data fromBits toBits false = .ok out ↔
    Fits toBits out ∧ ∃ k ≤ 4, k < toBits ∧ bitsOf fromBits data = bitsOf toBits out ++ replicate k 0 := by
  obtain ⟨hvalid, hbits⟩ := regroup_spec hfrom.2 hto.1 hto.2 data
  rw [convertBits, if_neg (by omega), ← hbits, Regrouping.bits]
  generalize regroup fromBits toBits data = s at hvalid
  dsimp only
  rw [if_neg Bool.false_ne_true]
  constructor
  · intro h
    split_ifs at h with hbad
    cases h
    have hzero : s.nextByte.toNat = 0 := by
      by_cases hpos : 0 < s.filledBits
      · have hnext : s.nextByte = 0 := by
          by_contra hne
          exact hbad ⟨hpos, .inr hne⟩
        rw [hnext]
        rfl
      · have hlt := hvalid.nextByte_lt
        rw [Nat.eq_zero_of_not_pos hpos] at hlt
        omega
    refine ⟨hvalid.fits, s.filledBits, ?_, hvalid.filledBits_lt, by rw [hzero, places_zero]⟩
    by_contra hmany
    exact hbad ⟨by omega, .inl (by omega)⟩
  · rintro ⟨hfits, k, hk, hlt, heq⟩
    obtain ⟨rfl, hrest⟩ := bitsOf_injective hvalid.fits hfits (by rw [length_places]; exact hvalid.filledBits_lt)
      (by rw [length_replicate]; exact hlt) heq
    have hlen := congrArg length hrest
    rw [length_places, length_replicate] at hlen
    have hnext : s.nextByte.toNat = 0 := by
      rw [← hlen, ← places_zero] at hrest
      exact places_injective hvalid.nextByte_lt (Nat.two_pow_pos _) hrest
    rw [if_neg]
    rintro ⟨-, hmany | hne⟩
    · omega
    · exact hne (UInt8.toNat_inj.mp hnext)

/-- With padding there is a result, and the last group is filled up. -/
theorem exists_convertBits_pad (data : Bytes) : ∃ out, convertBits data fromBits toBits true = .ok out ∧
    Fits toBits out ∧ ∃ r < toBits, bitsOf fromBits data ++ replicate r 0 = bitsOf toBits out := by
  obtain ⟨hvalid, hbits⟩ := regroup_spec hfrom.2 hto.1 hto.2 data
  rw [convertBits, if_neg (by omega), ← hbits, Regrouping.bits]
  generalize regroup fromBits toBits data = s at hvalid
  have hfilled := hvalid.filledBits_lt
  dsimp only
  rw [if_pos rfl, padLast]
  by_cases hpos : 0 < s.filledBits
  · rw [if_pos hpos, if_neg (fun h => absurd h.1 (Nat.lt_irrefl 0))]
    have hlt : s.nextByte.toNat * 2 ^ (toBits - s.filledBits) < 2 ^ toBits := by
      calc s.nextByte.toNat * 2 ^ (toBits - s.filledBits) < 2 ^ s.filledBits * 2 ^ (toBits - s.filledBits) :=
            Nat.mul_lt_mul_of_pos_right hvalid.nextByte_lt (Nat.two_pow_pos _)
        _ = 2 ^ toBits := by rw [← pow_add, Nat.add_sub_cancel' hfilled.le]
    have hshl : (shl s.nextByte (toBits - s.filledBits)).toNat = s.nextByte.toNat * 2 ^ (toBits - s.filledBits) := by
      rw [toNat_shl]
      apply Nat.mod_eq_of_lt
      exact hlt.trans_le (Nat.pow_le_pow_right (by decide) hto.2)
    have hplaces := places_append Nat.two_pos s.filledBits (toBits - s.filledBits) s.nextByte.toNat
      (Nat.two_pow_pos _)
    rw [Nat.add_sub_cancel' hfilled.le, Nat.add_zero, places_zero] at hplaces
    refine ⟨_, rfl, forall_mem_append.mpr ⟨hvalid.fits, forall_mem_singleton.mpr (by rw [hshl]; exact hlt)⟩,
      toBits - s.filledBits, by omega, ?_⟩
    rw [bitsOf_append, bitsOf_singleton, hshl, hplaces, append_assoc]
  · have hzero := Nat.eq_zero_of_not_pos hpos
    rw [if_neg hpos, if_neg (fun h => hpos h.1)]
    exact ⟨_, rfl, hvalid.fits, 0, by omega, by rw [hzero]; simp⟩

theorem convertBits_pad {out : Bytes} : convertBits data fromBits toBits true = .ok out ↔
    Fits toBits out ∧ ∃ r < toBits, bitsOf fromBits data ++ replicate r 0 = bitsOf toBits out := by
  obtain ⟨out', hrun, hfits', r', hr', heq'⟩ := exists_convertBits_pad hfrom hto data
  constructor
  · intro h
    cases hrun.symm.trans h
    exact ⟨hfits', r', hr', heq'⟩
  · rintro ⟨hfits, r, hr, heq⟩
    have hlen := congrArg length heq
    have hlen' := congrArg length heq'
    simp only [length_append, length_bitsOf, length_replicate] at hlen hlen'
    have hcount := eq_of_mul_add_eq (a := out.length) (b := out'.length) hr' hr (by omega)
    obtain rfl : r = r' := by
      rw [hcount] at hlen
      omega
    have hsame : bitsOf toBits out' ++ [] = bitsOf toBits out ++ [] := by rw [← heq, ← heq']
    obtain ⟨rfl, -⟩ := bitsOf_injective (u := []) (v := []) hfits' hfits hto.1 hto.1 hsame
    exact hrun

end

/-- Bytes in groups of five, and back. -/
theorem convertBits_five_eight {program : Bytes} : convertBits program 8 5 true = .ok data ↔
    Fits 5 data ∧ convertBits data 5 8 false = .ok program := by
  rw [convertBits_pad (by decide) (by decide), convertBits_exact (by decide) (by decide)]
  constructor
  · rintro ⟨hfits, r, hr, heq⟩
    exact ⟨hfits, fun b _ => b.toNat_lt, r, Nat.le_of_lt_succ hr, by omega, heq.symm⟩
  · rintro ⟨hfits, -, k, hk, -, heq⟩
    exact ⟨hfits, k, Nat.lt_succ_of_le hk, heq.symm⟩

end NogoCommons.Bech32
