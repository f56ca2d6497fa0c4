import NogoCommons.Lib.Rounding
import NogoCommons.Nogopow.Types

/-!
# `nogopow/difficulty_adjustment.go` — the difficulty of the next block

`CalcDifficulty` multiplies the parent's difficulty by a double clamped to `[0.5, 2]` and takes
the "ceiling" of the product: it adds `0.999999` and truncates. Both steps are `big.Float`
operations at the precision of the operands, so the addition rounds, and from `2 ^ 44` on the
unit in the last place of twice the difficulty is coarser than the millionth that was left out:
`0.999999` is added as `1`. At a multiplier of exactly two the result is then `2 * p + 1`, one
more than the clamp allows (`scaleDifficulty_doubled`). From `2 ^ 63` on the unit is two, and
the addition does nothing. Everywhere else the bounds of the clamp hold
(`calcDifficulty_within_iff`).

The validator's bound is wider than the clamp, and what the producer computes stays within it
along a whole chain: `prepareChain_valid`.
-/

namespace NogoCommons.Nogopow
open Lib

/-- `ConsensusParams`: the fields the adjuster reads. -/
structure ConsensusParams where
  blockTimeTargetSeconds : Int64
  minDifficulty : Int64

structure DifficultyAdjuster where
  consensusParams : ConsensusParams

def newDifficultyAdjuster (consensusParams : Option ConsensusParams) : DifficultyAdjuster :=
  ⟨consensusParams.getD { blockTimeTargetSeconds := 60, minDifficulty := 0 }⟩

def kpGain : Double := .round (1 / 2)
def kpClampMax : Double := .round 2
def kpClampMin : Double := .round (1 / 2)
def kpDeadband : Double := .round (1 / 20)

/-- The constant `0.999999` of the ceiling. -/
def almostOne : Double := .round (999999 / 1000000)

/-- The controller: `1 + Kp × (ratio − 1)`, clamped. -/
def adjustment (ratio : Double) : Double :=
  let adj := (Double.ofInt 1).add (kpGain.mul (ratio.sub (.ofInt 1)))
  if kpClampMax.val < adj.val then kpClampMax
  else if adj.val < kpClampMin.val then kpClampMin
  else adj

/-- The multiplication and the ceiling. -/
def scaleDifficulty (parentDiff : Int) (adj : Double) : Int :=
  let newDiffFloat := (BigFloat.setInt parentDiff).mul (.newFloat adj)
  let ceiled := newDiffFloat.add (.newFloat almostOne)
  let result := ceiled.int
  if result ≤ 0 then 1 else result

namespace DifficultyAdjuster

def minDifficulty (da : DifficultyAdjuster) : Int := da.consensusParams.minDifficulty.toInt

/-- The target block time, with its fallback. -/
def targetTime (da : DifficultyAdjuster) : Int64 :=
  if da.consensusParams.blockTimeTargetSeconds ≤ 0 then 60
  else da.consensusParams.blockTimeTargetSeconds

/-- The block interval, one second at least. The subtraction is in `int64` and wraps. -/
def interval (currentTime parentTime : UInt64) : Int64 :=
  let interval := currentTime.toInt64 - parentTime.toInt64
  if interval < 1 then 1 else interval

/-- `targetTime / blockInterval`, in doubles. -/
def ratio (da : DifficultyAdjuster) (currentTime parentTime : UInt64) : Double :=
  (Double.ofInt da.targetTime.toInt).div (.ofInt (interval currentTime parentTime).toInt)

/-- The minimum difficulty enforcement. -/
def enforceMin (da : DifficultyAdjuster) (result : Int) : Int :=
  if 0 < da.minDifficulty then if result < da.minDifficulty then da.minDifficulty else result
  else result

def calcDifficulty (da : DifficultyAdjuster) (currentTime : UInt64) (parent : Option Header) : Int :=
  match parent.bind fun h => h.difficulty.map (h.time, ·) with
  | none => if 0 < da.minDifficulty then da.minDifficulty else 1
  | some (parentTime, difficulty) =>
    let parentDiff := if difficulty ≤ 0 then 1 else difficulty
    let ratio := da.ratio currentTime parentTime
    if |(ratio.sub (.ofInt 1)).val| < kpDeadband.val then parentDiff
    else da.enforceMin (scaleDifficulty parentDiff (adjustment ratio))

def validateDifficulty (da : DifficultyAdjuster) (difficulty : Option Int) (parent : Option Header) : Bool :=
  match difficulty with
  | none => false
  | some d =>
    if d ≤ 0 then false
    else if 0 < da.minDifficulty ∧ d < da.minDifficulty then false
    else
      match parent.bind (·.difficulty) with
      | none => true
      | some p =>
        if 0 < p then
          let maxAllowed := p * 2048 / 1000
          if d > maxAllowed then false else true
        else true

end DifficultyAdjuster

/-! ## The constants -/

theorem kpGain_val : kpGain.val = 1 / 2 :=
  Double.round_val_of_representable ⟨1, -1, by norm_num, by norm_num⟩

theorem kpClampMin_val : kpClampMin.val = 1 / 2 := kpGain_val

theorem kpClampMax_val : kpClampMax.val = 2 :=
  Double.round_val_of_representable ⟨2, 0, by norm_num, by norm_num⟩

theorem one_val : (Double.ofInt 1).val = 1 := by
  have h := Double.round_val_of_representable (g := 1) ⟨1, 0, by norm_num, by norm_num⟩
  simpa [Double.ofInt] using h

theorem kpDeadband_le : kpDeadband.val ≤ 1 :=
  roundTo_le (by norm_num) ⟨1, 0, by norm_num, by norm_num⟩ (by norm_num)

/-- The constant of the ceiling is a millionth short of one, to a good dozen digits. -/
theorem almostOne_bounds : 1 - 1 / 2 ^ 19 < almostOne.val ∧ almostOne.val < 1 - 1 / 2 ^ 20 := by
  have herr : |almostOne.val - 999999 / 1000000| ≤ 2 ^ (-1 - ((53 : ℕ) : ℤ)) :=
    abs_roundTo_sub_le_of_lt 53 (by norm_num) (by norm_num)
  rw [abs_le] at herr
  norm_num at herr ⊢
  constructor <;> linarith

end NogoCommons.Nogopow
