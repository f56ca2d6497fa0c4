import NogoCommons.Nogopow.DifficultyLaws

/-!
# `nogopow/compatibility.go` — three ways to ask for the next difficulty

`DifficultyAdjuster.CalcDifficulty` is the computation. `NogopowEngine.CalcDifficulty` and
`DifficultyCalculator.CalcNextDifficulty` are wrapped around it, and each repeats what the
adjuster already does: the answer for a missing parent, and the parameters to use where none are
given. The repetitions differ from the original. The adjuster reads a minimum difficulty of zero
or below as "one", the wrappers hand it out as it is, the calculator after cutting it to 32 bits;
and without parameters the calculator aims at 30 seconds where the adjuster aims at 60. Where
neither is asked for, the three agree: `entryPoints_agree_iff`.
-/

namespace NogoCommons.Nogopow
open Lib BigFloat

/-! ## The engine -/

/-- `NogopowEngine`: what `CalcDifficulty` reads of it. -/
structure EngineDifficulty where
  consensusParams : Option ConsensusParams
  diffAdjuster : DifficultyAdjuster

namespace EngineDifficulty

/-- `New`, with a configuration that has a logger. -/
def new (consensusParams : Option ConsensusParams) : EngineDifficulty where
  consensusParams := consensusParams
  diffAdjuster := newDifficultyAdjuster consensusParams

/-- `uint64(MinDifficulty)`, or one without parameters. -/
def minDifficulty (e : EngineDifficulty) : UInt64 :=
  match e.consensusParams with
  | none => 1
  | some params => params.minDifficulty.toUInt64

/-- `NogopowEngine.CalcDifficulty`. (The chain it is given is not read.) -/
def calcDifficulty (e : EngineDifficulty) (time : UInt64) (parent : Option Header) : Go Int :=
  match parent with
  | none => .ok e.minDifficulty.toInt64.toInt
  | some h =>
    match h.difficulty with
    | none => .ok e.minDifficulty.toInt64.toInt
    | some _ => do
      let newDifficulty := e.diffAdjuster.calcDifficulty time (some h)
      -- The arguments of the log line read the parent's number.
      let _ ← deref h.number
      .ok newDifficulty

end EngineDifficulty

/-! ## The calculator -/

/-- `BlockHeader`: the fields the calculator reads. -/
structure BlockHeader where
  height : UInt64
  timestampUnix : Int64
  difficultyBits : UInt32

structure DifficultyCalculator where
  adjuster : DifficultyAdjuster
  consensusParams : ConsensusParams

def newDifficultyCalculator (consensusParams : Option ConsensusParams) : DifficultyCalculator :=
  let consensusParams :=
    consensusParams.getD { blockTimeTargetSeconds := 30, minDifficulty := 0 }
  { adjuster := newDifficultyAdjuster (some consensusParams), consensusParams }

def maxUint32 : UInt64 := 0xffffffff

/-- The guards between `CalcDifficulty` and `CalcNextDifficulty`'s 32 bits. -/
def difficultyBits (newDifficulty : Int) : UInt32 :=
  let bits :=
    if newDifficulty.natAbs.size > 32 then maxUint32
    else
      let bits := bigUint64 newDifficulty
      if bits > maxUint32 then maxUint32 else bits
  let bits := if bits < 1 then 1 else bits
  bits.toUInt32

/-- The `Header` the calculator makes of its parent. -/
def BlockHeader.toHeader (b : BlockHeader) : Header :=
  { Header.zero with
    number := some b.height.toInt64.toInt
    time := b.timestampUnix.toUInt64
    difficulty := some b.difficultyBits.toNat }

def DifficultyCalculator.calcNextDifficulty (dc : DifficultyCalculator)
    (parent : Option BlockHeader) (currentTime : UInt64) : UInt32 :=
  match parent with
  | none => dc.consensusParams.minDifficulty.toUInt64.toUInt32
  | some parent => difficultyBits (dc.adjuster.calcDifficulty currentTime (some parent.toHeader))

/-! ## What the three agree on -/

/-- A parent is missing, or has a difficulty of 32 bits: what a `BlockHeader` can stand for. -/
def FitsUint32 (parent : Option Header) : Prop :=
  ∀ h ∈ parent, ∃ d : Nat, d < 2 ^ 32 ∧ h.difficulty = some (d : Int)

/-- The parent as the calculator is given it. -/
def Header.toBlockHeader (h : Header) : BlockHeader where
  height := bigUint64 (h.number.getD 0)
  timestampUnix := h.time.toInt64
  difficultyBits := UInt32.ofNat (h.difficulty.getD 0).natAbs

/-- The engine gives what the adjuster gives and the calculator gives it saturated; without a
parent all three are positive. -/
structure EntryPointsAgree (c : Option ConsensusParams) (parent : Option Header) (t : UInt64) :
    Prop where
  engine : (EngineDifficulty.new c).calcDifficulty t parent =
    .ok ((newDifficultyAdjuster c).calcDifficulty t parent)
  calculator : (((newDifficultyCalculator c).calcNextDifficulty (parent.map Header.toBlockHeader) t).toNat : Int) =
    min ((newDifficultyAdjuster c).calcDifficulty t parent) (2 ^ 32 - 1)
  positive : parent = none → 1 ≤ (newDifficultyAdjuster c).calcDifficulty t parent ∧
    (∀ d, (EngineDifficulty.new c).calcDifficulty t parent = .ok d → 1 ≤ d) ∧
    1 ≤ (newDifficultyCalculator c).calcNextDifficulty (parent.map Header.toBlockHeader) t

variable {h : Header} {d : Int}
namespace DifficultyAdjuster
variable (da : DifficultyAdjuster)

theorem one_le_enforceMin (hd : 1 ≤ d) : 1 ≤ da.enforceMin d := by
  obtain ⟨-, hlt, heq⟩ | ⟨-, heq⟩ := da.enforceMin_eq d
  · omega
  · omega

/-- Positive whatever the parent is. -/
theorem one_le_calcDifficulty (t : UInt64) (parent : Option Header) : 1 ≤ da.calcDifficulty t parent := by
  unfold calcDifficulty
  split
  · split_ifs <;> omega
  · rename_i time d hparent
    have hpos : 1 ≤ if d ≤ 0 then 1 else d := by split_ifs <;> omega
    simp only
    generalize (if d ≤ 0 then 1 else d) = p at hpos
    split
    · exact hpos
    · exact da.one_le_enforceMin (one_le_scaleDifficulty hpos (adjustment_ge _))

/-- The parent's time and difficulty are all that is read of it. -/
theorem calcDifficulty_congr (t : UInt64) {h' : Header} (htime : h.time = h'.time) (hd : h.difficulty = h'.difficulty) :
    da.calcDifficulty t (some h) = da.calcDifficulty t (some h') := by
  simp only [calcDifficulty, Option.bind_some, htime, hd]

end DifficultyAdjuster

/-- **The guards saturate**, and a positive difficulty stays positive. -/
theorem difficultyBits_toNat (hd : 1 ≤ d) : ((difficultyBits d).toNat : Int) = min d (2 ^ 32 - 1) := by
  obtain ⟨n, rfl⟩ : ∃ n : Nat, d = n := ⟨d.toNat, by omega⟩
  have hsize : (n : Int).natAbs.size > 32 ↔ 2 ^ 32 ≤ n := by
    rw [Int.natAbs_natCast, gt_iff_lt, Nat.lt_size]
  unfold difficultyBits
  simp only
  by_cases hbig : 2 ^ 32 ≤ n
  · rw [if_pos (hsize.mpr hbig)]
    have hmax : ((if maxUint32 < 1 then 1 else maxUint32).toUInt32.toNat : Int) = 2 ^ 32 - 1 := by
      decide
    rw [hmax, min_eq_right (by omega)]
  · have hn : (bigUint64 (n : Int)).toNat = n := by
      rw [bigUint64, Int.natAbs_natCast, UInt64.toNat_ofNat', Nat.mod_eq_of_lt (by omega)]
    have hle : ¬ bigUint64 (n : Int) > maxUint32 := by
      rw [gt_iff_lt, UInt64.lt_iff_toNat_lt, hn]
      show ¬ 4294967295 < n
      omega
    have hpos : ¬ bigUint64 (n : Int) < 1 := by
      rw [UInt64.lt_iff_toNat_lt, hn]
      show ¬ n < 1
      omega
    rw [if_neg fun h => hbig (hsize.mp h), if_neg hle, if_neg hpos, UInt64.toNat_toUInt32, hn]
    omega

/-- The calculator's header of a parent has the parent's time and difficulty. -/
theorem toHeader_toBlockHeader {d : Nat} (hd : h.difficulty = some (d : Int)) (hlt : d < 2 ^ 32) :
    h.toBlockHeader.toHeader.time = h.time ∧
      h.toBlockHeader.toHeader.difficulty = h.difficulty := by
  refine ⟨UInt64.toUInt64_toInt64 h.time, ?_⟩
  simp only [BlockHeader.toHeader, Header.toBlockHeader, hd, Option.getD_some,
    Int.natAbs_natCast, UInt32.toNat_ofNat', Nat.mod_eq_of_lt hlt]

/-! ## With parameters -/

variable {c : Option ConsensusParams} {params : ConsensusParams} {t : UInt64}

/-- **With a parent, the wrappers add nothing but the saturation** — and a panic, where the
parent has no number. -/
theorem entryPoints_agree_some (hfit : FitsUint32 (some h)) :
    EntryPointsAgree (some params) (some h) t ↔ h.number ≠ none := by
  obtain ⟨d, hlt, hd⟩ := hfit h rfl
  obtain ⟨htime, hdiff⟩ := toHeader_toBlockHeader hd hlt
  constructor
  · rintro ⟨hengine, -, -⟩ hnone
    simp [EngineDifficulty.calcDifficulty, hd, hnone, deref, bind, Except.bind] at hengine
  · intro hnumber
    obtain ⟨n, hn⟩ := Option.ne_none_iff_exists'.mp hnumber
    refine ⟨?_, ?_, fun hparent => absurd hparent (by simp)⟩
    · simp [EngineDifficulty.calcDifficulty, EngineDifficulty.new, hd, hn, bind, Except.bind]
    · rw [Option.map_some, ← DifficultyAdjuster.calcDifficulty_congr _ t htime hdiff]
      exact difficultyBits_toNat (DifficultyAdjuster.one_le_calcDifficulty ..)

/-- The conversion of an `int` to a `uint64` keeps it modulo `2 ^ 64`. -/
theorem toNat_toUInt64 (x : Int64) : (x.toUInt64.toNat : Int) = x.toInt % 2 ^ 64 := by
  have hlt := x.toUInt64.toNat_lt
  have hmod : x.toInt = (x.toUInt64.toNat : Int).bmod (2 ^ 64) := BitVec.toInt_eq_toNat_bmod _
  have hemod : x.toInt % ((2 ^ 64 : Nat) : Int) = x.toUInt64.toNat % ((2 ^ 64 : Nat) : Int) := by
    rw [hmod, Int.bmod_emod]
  omega

/-- A positive minimum difficulty of 32 bits, or a larger one whose low 32 bits are all set: what
cutting and saturating do alike. -/
def ConsensusParams.MinFits (params : ConsensusParams) : Prop :=
  1 ≤ params.minDifficulty.toInt ∧
    (params.minDifficulty.toInt < 2 ^ 32 ∨ params.minDifficulty.toInt % 2 ^ 32 = 2 ^ 32 - 1)

/-- **Without a parent, it is the minimum difficulty that has to fit.** -/
theorem entryPoints_agree_none : EntryPointsAgree (some params) none t ↔ params.MinFits := by
  have hlo := params.minDifficulty.le_toInt
  have hhi := params.minDifficulty.toInt_lt
  have hadj : (newDifficultyAdjuster (some params)).calcDifficulty t none =
      if 0 < params.minDifficulty.toInt then params.minDifficulty.toInt else 1 := rfl
  have heng : (EngineDifficulty.new (some params)).calcDifficulty t none =
      .ok params.minDifficulty.toInt := by
    simp [EngineDifficulty.calcDifficulty, EngineDifficulty.minDifficulty, EngineDifficulty.new]
  have hcalc : (((newDifficultyCalculator (some params)).calcNextDifficulty none t).toNat : Int) =
      params.minDifficulty.toInt % 2 ^ 32 := by
    show (params.minDifficulty.toUInt64.toUInt32.toNat : Int) = _
    rw [UInt64.toNat_toUInt32]
    have := toNat_toUInt64 params.minDifficulty
    omega
  constructor
  · rintro ⟨hengine, hcalculator, -⟩
    rw [heng, hadj] at hengine
    rw [Option.map_none, hcalc, hadj] at hcalculator
    have heq : params.minDifficulty.toInt =
        if 0 < params.minDifficulty.toInt then params.minDifficulty.toInt else 1 := by
      simpa using hengine
    unfold ConsensusParams.MinFits
    by_cases hpos : 0 < params.minDifficulty.toInt
    · rw [if_pos hpos] at hcalculator
      omega
    · rw [if_neg hpos] at heq
      omega
  · rintro ⟨h1, hfits⟩
    rw [if_pos (by omega)] at hadj
    have hcalc' : (((newDifficultyCalculator (some params)).calcNextDifficulty
        (Option.map Header.toBlockHeader none) t).toNat : Int) =
          min params.minDifficulty.toInt (2 ^ 32 - 1) := by
      rw [Option.map_none, hcalc]
      omega
    refine ⟨by rw [heng, hadj], by rw [hcalc', hadj], fun _ => ?_⟩
    refine ⟨by omega, ?_, ?_⟩
    · intro d hd
      rw [heng] at hd
      cases hd
      exact h1
    · rw [UInt32.le_iff_toNat_le]
      show 1 ≤ _
      omega

/-! ## Without parameters -/

section NoParams

/-- A block thirty seconds after its parent, or any other number of seconds: the subtraction
wraps, so that there is one for every parent. -/
theorem interval_add (time s : UInt64) (hs : 1 ≤ s.toInt64) :
    DifficultyAdjuster.interval (time + s) time = s.toInt64 := by
  unfold DifficultyAdjuster.interval
  have hsub : (time + s).toInt64 - time.toInt64 = s.toInt64 := by
    rw [UInt64.toInt64_add]
    rw [Int64.add_comm, Int64.add_sub_cancel]
  have hlt : ¬ s.toInt64 < 1 := Int64.not_lt.mpr hs
  simp only [hsub, if_neg hlt]

variable {da : DifficultyAdjuster}

/-- Exact where the quotient is a double. -/
theorem ratio_val {time s : UInt64} {r : ℚ} (hs : 1 ≤ s.toInt64)
    (htarget : 0 ≤ da.targetTime.toInt ∧ da.targetTime.toInt ≤ 2 ^ 53)
    (hinterval : 0 ≤ s.toInt64.toInt ∧ s.toInt64.toInt ≤ 2 ^ 53)
    (hr : (da.targetTime.toInt : ℚ) / s.toInt64.toInt = r) (hrep : Representable 53 r) :
    (da.ratio (time + s) time).val = r := by
  unfold DifficultyAdjuster.ratio
  rw [interval_add time s hs]
  show roundTo 53 ((Double.ofInt da.targetTime.toInt).val / (Double.ofInt s.toInt64.toInt).val) = r
  rw [DifficultyAdjuster.ofInt_val htarget.1 htarget.2, DifficultyAdjuster.ofInt_val hinterval.1 hinterval.2, hr]
  exact roundTo_of_representable (by norm_num) hrep

/-- The adjuster without parameters, and the calculator's. -/
def sixty : DifficultyAdjuster := newDifficultyAdjuster none
def thirty : DifficultyAdjuster := (newDifficultyCalculator none).adjuster

/-- Neither of the two has a minimum. -/
theorem enforceMin_of_zero (hmin : da.minDifficulty = 0) (x : Int) : da.enforceMin x = x := by
  rw [DifficultyAdjuster.enforceMin, hmin, if_neg (lt_irrefl 0)]

/-- A block in time keeps the difficulty. -/
theorem calcDifficulty_of_ratio_one (hd : h.difficulty = some d) (hpos : 0 < d) (hratio : (da.ratio t h.time).val = 1) :
    da.calcDifficulty t (some h) = d := by
  rw [DifficultyAdjuster.calcDifficulty_eq da t hd hpos, if_pos]
  have hzero : ((da.ratio t h.time).sub (.ofInt 1)).val = 0 := by
    rw [sub_one_val, hratio, sub_self]
    exact roundTo_of_representable (by norm_num) ⟨0, 0, by norm_num, by norm_num⟩
  have hdead := kpDeadband_ge
  rw [hzero, abs_zero]
  linarith

variable {ratio adj : Double}

/-- Twice the target speed is out of the deadband and multiplies by one and a half at least. -/
theorem le_adjustment_of_two (hratio : ratio.val = 2) :
    3 / 2 ≤ (adjustment ratio).val ∧ ¬ |(ratio.sub (.ofInt 1)).val| < kpDeadband.val := by
  have hsub : 1 ≤ (ratio.sub (.ofInt 1)).val := le_sub_one ⟨1, 0, by norm_num, by norm_num⟩ (by rw [hratio]; norm_num)
  have hle := le_adjustment ⟨1, -1, by norm_num, by norm_num⟩ ⟨3, -1, by norm_num, by norm_num⟩ hsub (by norm_num)
  refine ⟨by norm_num at hle ⊢; exact hle, ?_⟩
  have habs := le_abs_self (ratio.sub (.ofInt 1)).val
  have hdead := kpDeadband_le
  linarith

/-- Multiplied by one and a half, a difficulty grows. -/
theorem lt_scaleDifficulty (hd : 1 ≤ d) (hlt : d < 2 ^ 32) (hadj : 3 / 2 ≤ adj.val) : d < scaleDifficulty d adj := by
  have hdQ : (1 : ℚ) ≤ d := by exact_mod_cast hd
  have h64 := two_pow_64_le d
  have hprod : ((3 * d : Int) : ℚ) * 2 ^ (-1 : Int) ≤ roundTo (intPrec d) (d * adj.val) := by
    refine le_roundTo (one_le_intPrec d) (representable_of_le _ (by omega) (by omega)) ?_
    push_cast
    norm_num
    nlinarith
  have hsum : ((d + 1 : Int) : ℚ) * 2 ^ (0 : Int) ≤ scaled d adj := by
    refine le_roundTo (one_le_intPrec d) (representable_of_le _ (by omega) (by omega)) ?_
    have hc := almostOne_bounds.1
    push_cast at hprod ⊢
    norm_num at hprod hc ⊢
    linarith
  rw [scaleDifficulty_eq hd (by linarith)]
  have : d + 1 ≤ ⌊scaled d adj⌋ := Int.le_floor.mpr (by simpa using hsum)
  omega

/-- Half the target speed is out of the deadband and multiplies by less than one. -/
theorem adjustment_le_of_half (hratio : ratio.val = 1 / 2) :
    (adjustment ratio).val ≤ 3 / 4 ∧ ¬ |(ratio.sub (.ofInt 1)).val| < kpDeadband.val := by
  have hsub : (ratio.sub (.ofInt 1)).val ≤ -(1 / 2) := sub_one_le ⟨-1, -1, by norm_num, by norm_num⟩ (by rw [hratio]; norm_num)
  have hle := adjustment_le_of ⟨-1, -2, by norm_num, by norm_num⟩ ⟨3, -2, by norm_num, by norm_num⟩ hsub (by norm_num)
  refine ⟨by norm_num at hle ⊢; exact hle, ?_⟩
  have hdead : kpDeadband.val ≤ 1 / 16 := roundTo_le (by norm_num) ⟨1, -4, by norm_num, by norm_num⟩ (by norm_num)
  have habs := neg_le_abs (ratio.sub (.ofInt 1)).val
  linarith

/-- Multiplied by three quarters at most, the largest difficulty of 32 bits shrinks. -/
theorem scaleDifficulty_max_lt (hadj : 1 / 2 ≤ adj.val) (hadj' : adj.val ≤ 3 / 4) :
    scaleDifficulty (2 ^ 32 - 1) adj < 2 ^ 32 - 1 := by
  have h64 := two_pow_64_le (2 ^ 32 - 1)
  have hle : scaled (2 ^ 32 - 1) adj ≤ _ := scaled_le (u := 2 ^ 32 - 2 ^ 29)
    (v := 2 ^ 32 - 2 ^ 29 + 1) (e := 0) (by norm_num) (by norm_num) (le_trans (by norm_num) h64)
    (by norm_num; linarith) (by have := almostOne_bounds.2; norm_num at this ⊢; linarith)
  have hlt : scaled (2 ^ 32 - 1) adj < ((2 ^ 32 - 2 ^ 29 + 1 : Int) : ℚ) + 1 := by
    norm_num at hle ⊢
    linarith
  have := scaleDifficulty_le_of_lt (by norm_num) hadj hlt
  omega

/-- A difficulty that is not positive counts as one. -/
theorem calcDifficulty_raise (da : DifficultyAdjuster) (t : UInt64) (hd : h.difficulty = some d) :
    da.calcDifficulty t (some h) =
      da.calcDifficulty t (some { h with difficulty := some (max d 1) }) := by
  have hmax : (if d ≤ 0 then 1 else d) = max d 1 := by split_ifs <;> omega
  have hpos : ¬ max d 1 ≤ 0 := by omega
  simp only [DifficultyAdjuster.calcDifficulty, Option.bind_some, hd, Option.map_some, hmax, if_neg hpos]

/-- At thirty seconds the adjuster raises the difficulty and the calculator does not. -/
theorem differ_at_thirty (hd : h.difficulty = some d) (hpos : 1 ≤ d) (hlt : d < 2 ^ 32) :
    thirty.calcDifficulty (h.time + 30) (some h) = d ∧
      d < sixty.calcDifficulty (h.time + 30) (some h) := by
  constructor
  · refine calcDifficulty_of_ratio_one hd (by omega) ?_
    exact ratio_val (by decide) (by decide) (by decide) (by
      show ((30 : Int) : ℚ) / (30 : Int) = 1
      norm_num) ⟨1, 0, by norm_num, by norm_num⟩
  · have hratio : (sixty.ratio (h.time + 30) h.time).val = 2 :=
      ratio_val (by decide) (by decide) (by decide) (by
        show ((60 : Int) : ℚ) / (30 : Int) = 2
        norm_num) ⟨2, 0, by norm_num, by norm_num⟩
    obtain ⟨hadj, hdead⟩ := le_adjustment_of_two hratio
    rw [DifficultyAdjuster.calcDifficulty_eq sixty _ hd (by omega), if_neg hdead, enforceMin_of_zero (by decide)]
    exact lt_scaleDifficulty hpos hlt hadj

/-- At sixty seconds the calculator lowers the difficulty and the adjuster does not. -/
theorem differ_at_sixty (hd : h.difficulty = some (2 ^ 32 - 1)) :
    thirty.calcDifficulty (h.time + 60) (some h) < 2 ^ 32 - 1 ∧
      sixty.calcDifficulty (h.time + 60) (some h) = 2 ^ 32 - 1 := by
  constructor
  · have hratio : (thirty.ratio (h.time + 60) h.time).val = 1 / 2 :=
      ratio_val (by decide) (by decide) (by decide) (by
        show ((30 : Int) : ℚ) / (60 : Int) = 1 / 2
        norm_num) ⟨1, -1, by norm_num, by norm_num⟩
    obtain ⟨hadj, hdead⟩ := adjustment_le_of_half hratio
    rw [DifficultyAdjuster.calcDifficulty_eq thirty _ hd (by norm_num), if_neg hdead, enforceMin_of_zero (by decide)]
    exact scaleDifficulty_max_lt (adjustment_ge _) hadj
  · refine calcDifficulty_of_ratio_one hd (by norm_num) ?_
    exact ratio_val (by decide) (by decide) (by decide) (by
      show ((60 : Int) : ℚ) / (60 : Int) = 1
      norm_num) ⟨1, 0, by norm_num, by norm_num⟩

/-- **Without parameters no parent is safe**: there is a time at which the calculator and the
adjuster differ. -/
theorem exists_not_agree {parent : Option Header} (hfit : FitsUint32 parent) :
    ∃ t, ¬ EntryPointsAgree none parent t := by
  cases parent with
  | none => exact ⟨0, fun hagree => absurd hagree.calculator (by decide)⟩
  | some h =>
    obtain ⟨n, hlt, hd⟩ := hfit h rfl
    obtain ⟨htime, hdiff⟩ := toHeader_toBlockHeader hd hlt
    -- What agreement would say of the two adjusters, on the parent with its difficulty raised.
    let raised : Header := { h with difficulty := some (max (n : Int) 1) }
    have hagree : ∀ t, EntryPointsAgree none (some h) t →
        min (thirty.calcDifficulty t (some raised)) (2 ^ 32 - 1) =
          min (sixty.calcDifficulty t (some raised)) (2 ^ 32 - 1) := by
      intro t hagree
      have hcalc := hagree.calculator
      rw [Option.map_some] at hcalc
      change ((difficultyBits (thirty.calcDifficulty t
        (some h.toBlockHeader.toHeader))).toNat : Int) = min (sixty.calcDifficulty t _) _ at hcalc
      rwa [difficultyBits_toNat (DifficultyAdjuster.one_le_calcDifficulty ..),
        DifficultyAdjuster.calcDifficulty_congr _ t htime hdiff, calcDifficulty_raise thirty t hd,
        calcDifficulty_raise sixty t hd] at hcalc
    by_cases hmax : max (n : Int) 1 = 2 ^ 32 - 1
    · obtain ⟨hthirty, hsixty⟩ := differ_at_sixty (h := raised) (by rw [← hmax])
      exact ⟨h.time + 60, fun hc => absurd (hagree _ hc) (by
        change min (thirty.calcDifficulty (raised.time + 60) _) _ ≠
          min (sixty.calcDifficulty (raised.time + 60) _) _
        omega)⟩
    · obtain ⟨hthirty, hsixty⟩ := differ_at_thirty (h := raised) rfl (by omega) (by omega)
      exact ⟨h.time + 30, fun hc => absurd (hagree _ hc) (by
        change min (thirty.calcDifficulty (raised.time + 30) _) _ ≠
          min (sixty.calcDifficulty (raised.time + 30) _) _
        omega)⟩

end NoParams

/-! ## The three together -/

/-- **The three entry points agree at all times, exactly where parameters are given, the parent
has a number, and, where there is no parent, the minimum difficulty fits.** -/
theorem entryPoints_agree_iff (c : Option ConsensusParams) (parent : Option Header) (hfit : FitsUint32 parent) :
    (∀ t, EntryPointsAgree c parent t) ↔
      ∃ params, c = some params ∧ (parent = none → params.MinFits) ∧
        ∀ h ∈ parent, h.number ≠ none := by
  constructor
  · intro hall
    cases c with
    | none =>
      obtain ⟨t, hnot⟩ := exists_not_agree hfit
      exact absurd (hall t) hnot
    | some params =>
      refine ⟨params, rfl, ?_, ?_⟩
      · rintro rfl
        exact entryPoints_agree_none.mp (hall 0)
      · rintro h hh
        obtain rfl : parent = some h := hh
        exact (entryPoints_agree_some hfit).mp (hall 0)
  · rintro ⟨params, rfl, hmin, hnumber⟩ t
    cases parent with
    | none => exact entryPoints_agree_none.mpr (hmin rfl)
    | some h => exact (entryPoints_agree_some hfit).mpr (hnumber h rfl)

/-- The configured chain: a minute, a minimum of one, and a parent of difficulty 1000. -/
theorem entryPoints_agree_everyMinute :
    let params : ConsensusParams := { blockTimeTargetSeconds := 60, minDifficulty := 1 }
    let parent : Header := { Header.zero with number := some 7, difficulty := some 1000 }
    FitsUint32 (some parent) ∧ ∀ t, EntryPointsAgree (some params) (some parent) t := by
  intro params parent
  have hfit : FitsUint32 (some parent) := by
    rintro _ ⟨⟩
    exact ⟨1000, by norm_num, rfl⟩
  refine ⟨hfit, (entryPoints_agree_iff _ _ hfit).mpr ⟨params, rfl, by simp, ?_⟩⟩
  rintro _ ⟨⟩
  simp [parent]

/-- A minimum difficulty of zero and no parent: the adjuster says one, the engine and the
calculator say zero. -/
theorem entryPoints_disagree_zero :
    let params : ConsensusParams := { blockTimeTargetSeconds := 60, minDifficulty := 0 }
    (newDifficultyAdjuster (some params)).calcDifficulty 0 none = 1 ∧
      (EngineDifficulty.new (some params)).calcDifficulty 0 none = .ok 0 ∧
      (newDifficultyCalculator (some params)).calcNextDifficulty none 0 = 0 ∧
      ¬ EntryPointsAgree (some params) none 0 := by
  intro params
  refine ⟨by decide, rfl, by decide, fun hagree => ?_⟩
  exact absurd (entryPoints_agree_none.mp hagree).1 (by decide)

end NogoCommons.Nogopow
