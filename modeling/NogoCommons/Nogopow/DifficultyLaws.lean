import NogoCommons.Nogopow.DifficultyScale

/-!
# What the difficulty adjustment guarantees

Over one block: the four bounds of the clamp, and exactly when the upper one fails. Over a
chain: the producer's difficulty is always one the validator accepts. The deadband returns the
parent's difficulty without the minimum check, so the chain carries that no parent is below the
minimum; and where the upper bound fails it fails by one at a difficulty so large that the
validator's `2048 / 1000` does not notice.
-/

namespace NogoCommons.Nogopow
open Lib BigFloat
variable {p : Int}

/-! ## One block -/

namespace DifficultyAdjuster
variable {da : DifficultyAdjuster} {d : Int} {parent : Header}

/-- The difficulty of a block is positive, not below the minimum, and within a factor of two of
its parent's. -/
structure WithinFactorTwo (da : DifficultyAdjuster) (p d : Int) : Prop where
  one_le : 1 ≤ d
  min_le : da.minDifficulty ≤ d
  half : p ≤ 2 * d
  double : d ≤ 2 * p

/-- A block in the deadband keeps its parent's difficulty; any other has it scaled. -/
theorem calcDifficulty_eq (da : DifficultyAdjuster) (currentTime : UInt64)
    (hd : parent.difficulty = some p) (hp : 0 < p) :
    da.calcDifficulty currentTime (some parent) =
      if |((da.ratio currentTime parent.time).sub (.ofInt 1)).val| < kpDeadband.val then p
      else da.enforceMin (scaleDifficulty p (adjustment (da.ratio currentTime parent.time))) := by
  have hpos : ¬ p ≤ 0 := by omega
  simp [calcDifficulty, hd, hpos]

theorem enforceMin_eq (da : DifficultyAdjuster) (d : Int) :
    (0 < da.minDifficulty ∧ d < da.minDifficulty ∧ da.enforceMin d = da.minDifficulty) ∨
      (da.minDifficulty ≤ max d 0 ∧ da.enforceMin d = d) := by
  unfold enforceMin
  split_ifs <;> omega

/-- Raising a result to the minimum leaves only the upper bound to ask for. -/
theorem within_enforceMin_iff (hmin : 0 ≤ da.minDifficulty) (hpm : da.minDifficulty ≤ p)
    (hd : 1 ≤ d) (hhalf : p ≤ 2 * d) : WithinFactorTwo da p (da.enforceMin d) ↔ d ≤ 2 * p := by
  obtain ⟨-, hlt, heq⟩ | ⟨hle, heq⟩ := da.enforceMin_eq d
  · rw [heq]
    exact ⟨fun _ => by omega, fun _ => ⟨by omega, le_rfl, by omega, by omega⟩⟩
  · rw [heq]
    exact ⟨fun h => h.double, fun h => ⟨hd, by omega, hhalf, h⟩⟩

variable {ratio a b : Double} {s : UInt64}

/-- A ratio in the deadband is nowhere near three. -/
theorem ratio_lt_of_deadband (h : |(ratio.sub (.ofInt 1)).val| < kpDeadband.val) : ratio.val < 3 := by
  by_contra hge
  rw [not_lt] at hge
  have h2 : 2 ≤ (ratio.sub (.ofInt 1)).val := le_sub_one ⟨2, 0, by norm_num, by norm_num⟩ (by linarith)
  have := le_abs_self (ratio.sub (.ofInt 1)).val
  have := kpDeadband_le
  linarith

/-- **A block's difficulty is within a factor of two of its parent's, but for blocks at three
times the target speed and a difficulty from `2 ^ 44` and below `2 ^ 63`.** The second part
is the same for any double in `[0.5, 2]` as the multiplier. -/
theorem calcDifficulty_within_iff (da : DifficultyAdjuster) (currentTime : UInt64)
    (hmin : 0 ≤ da.minDifficulty) (hd : parent.difficulty = some p) (hp : 0 < p)
    (hpm : da.minDifficulty ≤ p) :
    (WithinFactorTwo da p (da.calcDifficulty currentTime (some parent)) ↔
      ¬ (3 ≤ (da.ratio currentTime parent.time).val ∧ 2 ^ 44 ≤ p ∧ p < 2 ^ 63)) ∧
    ∀ adj : Double, 1 / 2 ≤ adj.val → adj.val ≤ 2 →
      (WithinFactorTwo da p (da.enforceMin (scaleDifficulty p adj)) ↔ ¬ (adj.val = 2 ∧ 2 ^ 44 ≤ p ∧ p < 2 ^ 63)) := by
  have hscaled : ∀ adj : Double, 1 / 2 ≤ adj.val → adj.val ≤ 2 →
      (WithinFactorTwo da p (da.enforceMin (scaleDifficulty p adj)) ↔ ¬ (adj.val = 2 ∧ 2 ^ 44 ≤ p ∧ p < 2 ^ 63)) := by
    intro adj hlo hhi
    rw [within_enforceMin_iff hmin hpm (one_le_scaleDifficulty hp hlo)
      (le_two_mul_scaleDifficulty hp hlo), scaleDifficulty_le_iff hp hlo hhi]
  refine ⟨?_, hscaled⟩
  rw [calcDifficulty_eq da currentTime hd hp, ← adjustment_eq_two]
  split_ifs with hdead
  · refine ⟨fun _ h => ?_, fun _ => ⟨hp, hpm, by omega, by omega⟩⟩
    exact absurd ((adjustment_eq_two _).mp h.1) (not_le.mpr (ratio_lt_of_deadband hdead))
  · exact hscaled _ (adjustment_ge _) (adjustment_le _)

theorem one_le_targetTime (da : DifficultyAdjuster) : 1 ≤ da.targetTime.toInt := by
  unfold targetTime
  split_ifs with h
  · decide
  · rw [Int64.le_iff_toInt_le] at h
    have : (0 : Int64).toInt = 0 := rfl
    omega

theorem one_le_interval (currentTime parentTime : UInt64) : 1 ≤ (interval currentTime parentTime).toInt := by
  unfold interval
  simp only
  split_ifs with h
  · decide
  · rw [Int64.lt_iff_toInt_lt] at h
    have : (1 : Int64).toInt = 1 := rfl
    omega

theorem ofInt_val {n : Int} (h0 : 0 ≤ n) (h : n ≤ 2 ^ 53) : (Double.ofInt n).val = n :=
  Double.round_val_of_representable (representable_int (by rw [abs_of_nonneg h0]; exact h))

/-- Up to `2 ^ 52` seconds of target time the doubles say no more than the integers do. -/
theorem ratio_ge_three_iff (da : DifficultyAdjuster) (currentTime parentTime : UInt64)
    (hT : da.targetTime.toInt ≤ 2 ^ 52) :
    3 ≤ (da.ratio currentTime parentTime).val ↔
      3 * (interval currentTime parentTime).toInt ≤ da.targetTime.toInt := by
  have hT1 := da.one_le_targetTime
  have hI1 := one_le_interval currentTime parentTime
  show 3 ≤ roundTo 53 ((Double.ofInt da.targetTime.toInt).val /
    (Double.ofInt (interval currentTime parentTime).toInt).val) ↔ _
  generalize da.targetTime.toInt = T at *
  generalize (interval currentTime parentTime).toInt = I at *
  rw [ofInt_val (by omega) (by omega)]
  have hTQ : (1 : ℚ) ≤ T := by exact_mod_cast hT1
  have hIQ : (1 : ℚ) ≤ I := by exact_mod_cast hI1
  obtain hlt | hge := lt_or_ge T I
  · -- A longer interval than the target, also after its own rounding.
    have hI : (T : ℚ) ≤ (Double.ofInt I).val :=
      le_roundTo (by norm_num) (representable_int (by rw [abs_of_pos (by omega)]; omega)) (by exact_mod_cast hlt.le)
    have hle : roundTo 53 (T / (Double.ofInt I).val) ≤ 1 :=
      roundTo_le (by norm_num) ⟨1, 0, by norm_num, by norm_num⟩ (div_le_one_of_le₀ hI (by linarith))
    exact ⟨fun h => by linarith, fun h => by omega⟩
  rw [ofInt_val (by omega) (by omega)]
  constructor
  · intro h3
    by_contra hnot
    -- Short of three by `1 / I`, which is more than rounding can make up.
    have hshort : (T : ℚ) / I < 3 - 1 / 2 ^ 52 := by
      rw [div_lt_iff₀ (by linarith)]
      have hint : T * 2 ^ 52 < (3 * 2 ^ 52 - 1) * I := by omega
      have hintQ : (T : ℚ) * 2 ^ 52 < (3 * 2 ^ 52 - 1) * I := by exact_mod_cast hint
      norm_num at hintQ ⊢
      linarith
    have herr := abs_roundTo_sub_le_of_lt 53 (e := 1) (x := (T : ℚ) / I) (by positivity)
      (by norm_num at hshort ⊢; linarith)
    have := (abs_le.mp herr).2
    norm_num at this hshort
    linarith
  · intro h3
    refine le_roundTo (by norm_num) ⟨3, 0, by norm_num, by norm_num⟩ ?_
    rw [le_div_iff₀ (by linarith)]
    exact_mod_cast h3

/-- An adjuster with the default block time and a minimum difficulty of one. -/
def everyMinute : DifficultyAdjuster :=
  newDifficultyAdjuster (some { blockTimeTargetSeconds := 60, minDifficulty := 1 })

theorem calcDifficulty_within_thousand :
    let parent : Header := { Header.zero with difficulty := some 1000 }
    0 ≤ everyMinute.minDifficulty ∧ everyMinute.minDifficulty ≤ 1000 ∧
      WithinFactorTwo everyMinute 1000 (everyMinute.calcDifficulty 20 (some parent)) := by
  intro parent
  refine ⟨by decide, by decide, ?_⟩
  refine (calcDifficulty_within_iff everyMinute 20 (by decide) rfl (by decide) (by decide)).1.mpr ?_
  rintro ⟨-, hlarge, -⟩
  omega

/-- A block after twenty seconds, a third of the target, on a parent of difficulty `2 ^ 44`. -/
theorem calcDifficulty_overshoot :
    let parent : Header := { Header.zero with difficulty := some (2 ^ 44) }
    everyMinute.calcDifficulty 20 (some parent) = 2 * 2 ^ 44 + 1 ∧
      ¬ WithinFactorTwo everyMinute (2 ^ 44) (everyMinute.calcDifficulty 20 (some parent)) := by
  intro parent
  have hratio : 3 ≤ (everyMinute.ratio 20 parent.time).val :=
    (ratio_ge_three_iff everyMinute 20 parent.time (by decide)).mpr (by decide)
  have hdead : ¬ |((everyMinute.ratio 20 parent.time).sub (.ofInt 1)).val| < kpDeadband.val :=
    fun h => absurd (ratio_lt_of_deadband h) (not_lt.mpr hratio)
  have hval : everyMinute.calcDifficulty 20 (some parent) = 2 * 2 ^ 44 + 1 := by
    rw [calcDifficulty_eq everyMinute 20 (p := 2 ^ 44) rfl (by norm_num), if_neg hdead,
      scaleDifficulty_doubled le_rfl (by norm_num) ((adjustment_eq_two _).mpr hratio)]
    decide
  exact ⟨hval, fun h => absurd h.double (by rw [hval]; norm_num)⟩

end DifficultyAdjuster

theorem kpDeadband_ge : 1 / 32 ≤ kpDeadband.val :=
  le_roundTo (by norm_num) ⟨1, -5, by norm_num, by norm_num⟩ (by norm_num)

/-! ## Chains -/

namespace DifficultyAdjuster
variable {da : DifficultyAdjuster}

/-- A header with its difficulty filled in, as `Prepare` does. -/
def prepare (da : DifficultyAdjuster) (parent : Option Header) (h : Header) : Header :=
  { h with difficulty := some (da.calcDifficulty h.time parent) }

/-- A chain of headers, each prepared on the one before. -/
def prepareChain (da : DifficultyAdjuster) : Option Header → List Header → List Header
  | _, [] => []
  | parent, h :: hs => da.prepare parent h :: da.prepareChain (some (da.prepare parent h)) hs

/-- Every header's difficulty is accepted against its parent. -/
def ValidChain (da : DifficultyAdjuster) : Option Header → List Header → Prop
  | _, [] => True
  | parent, h :: hs =>
    da.validateDifficulty h.difficulty parent = true ∧ da.ValidChain (some h) hs

/-- What the headers of a chain keep: a positive difficulty, not below the minimum. -/
def AboveMin (da : DifficultyAdjuster) (d : Int) : Prop := 1 ≤ d ∧ da.minDifficulty ≤ d

theorem calcDifficulty_none (da : DifficultyAdjuster) (currentTime : UInt64) :
    da.AboveMin (da.calcDifficulty currentTime none) := by
  unfold AboveMin
  simp only [calcDifficulty, Option.bind_none]
  split_ifs <;> omega

/-- One block above the minimum, on a parent above it, and at most `2048 / 1000` times it. -/
theorem calcDifficulty_step (da : DifficultyAdjuster) (currentTime : UInt64) {parent : Header}
    (hd : parent.difficulty = some p) (hp : da.AboveMin p) :
    da.AboveMin (da.calcDifficulty currentTime (some parent)) ∧
      da.calcDifficulty currentTime (some parent) ≤ p * 2048 / 1000 := by
  obtain ⟨hp1, hpm⟩ := hp
  rw [calcDifficulty_eq da currentTime hd (by omega)]
  split_ifs with hdead
  · exact ⟨⟨hp1, hpm⟩, by omega⟩
  · have hadj := adjustment_ge (da.ratio currentTime parent.time)
    have hone := one_le_scaleDifficulty hp1 hadj
    have hle := scaleDifficulty_le_or hp1 hadj (adjustment_le (da.ratio currentTime parent.time))
    generalize scaleDifficulty p (adjustment (da.ratio currentTime parent.time)) = d at *
    unfold AboveMin
    obtain ⟨hm, hlt, heq⟩ | ⟨hmax, heq⟩ := da.enforceMin_eq d
    · rw [heq]
      exact ⟨⟨by omega, le_rfl⟩, by omega⟩
    · rw [heq]
      exact ⟨⟨hone, by omega⟩, by omega⟩

theorem validateDifficulty_of_aboveMin {d : Int} {parent : Option Header} (hd : da.AboveMin d)
    (hparent : ∀ h ∈ parent, ∀ p ∈ h.difficulty, 0 < p → d ≤ p * 2048 / 1000) :
    da.validateDifficulty (some d) parent = true := by
  obtain ⟨hd1, hdm⟩ := hd
  unfold validateDifficulty
  simp only
  rw [if_neg (by omega), if_neg (by omega)]
  split
  · rfl
  · rename_i p hp
    obtain ⟨h, hh, hhd⟩ := Option.bind_eq_some_iff.mp hp
    split_ifs with hpos hgt
    · exact absurd (hparent h hh p hhd hpos) (by omega)
    · rfl
    · rfl

/-- **Producer and validator agree along a chain**: whatever the timestamps, each header that
`CalcDifficulty` prepares on the one before is accepted by `ValidateDifficulty`. -/
theorem prepareChain_valid (da : DifficultyAdjuster) (hs : List Header) :
    da.ValidChain none (da.prepareChain none hs) := by
  -- The induction carries that the parent, where there is one, is above the minimum.
  suffices h : ∀ parent : Option Header,
      (∀ h ∈ parent, ∃ p, h.difficulty = some p ∧ da.AboveMin p) →
        da.ValidChain parent (da.prepareChain parent hs) from h none (by simp)
  induction hs with
  | nil => exact fun _ _ => trivial
  | cons h hs ih =>
    intro parent hparent
    have hstep : da.AboveMin (da.calcDifficulty h.time parent) ∧
        ∀ h' ∈ parent, ∀ p ∈ h'.difficulty, 0 < p →
          da.calcDifficulty h.time parent ≤ p * 2048 / 1000 := by
      cases parent with
      | none => exact ⟨da.calcDifficulty_none h.time, by simp⟩
      | some par =>
        obtain ⟨p, hpd, hp⟩ := hparent par rfl
        have := da.calcDifficulty_step h.time hpd hp
        refine ⟨this.1, ?_⟩
        rintro _ ⟨⟩ q hq -
        obtain rfl : p = q := by simpa [hpd] using hq
        exact this.2
    refine ⟨validateDifficulty_of_aboveMin hstep.1 hstep.2, ih _ ?_⟩
    rintro _ ⟨⟩
    exact ⟨_, rfl, hstep.1⟩

end DifficultyAdjuster
end NogoCommons.Nogopow
