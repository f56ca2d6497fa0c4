import NogoCommons.Nogopow.Matrix
import Mathlib.Data.Matrix.Mul

/-!
# `nogopow/matrix.go` — the fixed point is exact

Every number the code multiplies is `2 ^ 24` times an `int8`. A product of two is a multiple of
`2 ^ 48`, so that the rounding of a term rounds nothing; a sum of 256 of them stays far below
`2 ^ 63`; and saturating brings an entry back to `2 ^ 24` times an `int8`. So what is computed is
the product of integer matrices, each entry clamped to `int8` after each factor, and neither the
blocks, nor the skipped zeros, nor what the matrices held before can be seen in the result.
-/

namespace NogoCommons.Nogopow
open Lib List

/-- Clamping to the range of `int8`. -/
def sat8 (x : Int) : Int := max (-128) (min 127 x)

theorem abs_sat8_le (x : Int) : |sat8 x| ≤ 128 := by
  rw [abs_le, sat8]
  omega

/-! ## Numbers -/

theorem toFixed_ofInt {n : Int} (h : |n| ≤ 128) : toFixed (.ofInt n) = .ofInt (n * 2 ^ 24) := by
  have hn : (Double.ofInt n).val = n := Double.round_val_of_representable (representable_int (h.trans (by norm_num)))
  have hf : (Double.ofInt 16777216).val = 16777216 := by
    have : roundTo 53 ((16777216 : ℤ) : ℚ) = _ := roundTo_of_representable (by norm_num) (representable_int (by norm_num))
    exact_mod_cast this
  have hprod : (Double.mul (.ofInt n) (.ofInt 16777216)).val = ((n * 2 ^ 24 : Int) : ℚ) := by
    have hval : (Double.ofInt n).val * (Double.ofInt 16777216).val = ((n * 2 ^ 24 : Int) : ℚ) := by
      rw [hn, hf]
      push_cast
      norm_num
    rw [Double.mul, hval]
    refine Double.round_val_of_representable (representable_int ?_)
    rw [abs_mul]
    have : |(2 : Int) ^ 24| = 16777216 := by norm_num
    rw [this]
    norm_num
    omega
  unfold toFixed
  simp only [hprod, Int.floor_intCast, Int.ceil_intCast, ite_self]

/-- Rounding a multiple of `2 ^ 24` does nothing, and the rest is saturation. -/
theorem fromFixed_ofInt {v : Int} (h : |v| < 2 ^ 38) :
    fromFixed (.ofInt (v * 2 ^ 24)) = pure (Int8.ofInt (sat8 v)) := by
  obtain ⟨hlo, hhi⟩ := abs_lt.mp h
  have hhalf : fixedPointHalf = .ofInt 8388608 := by decide
  have hadd : Checked.add (.ofInt (v * 2 ^ 24)) fixedPointHalf = pure (.ofInt (v * 2 ^ 24 + 8388608)) := by
    rw [hhalf]
    apply Checked.add_ofInt <;> constructor <;> omega
  have hround : (v * 2 ^ 24 + 8388608) / 2 ^ 24 = v := by omega
  have hshr : Checked.shr (.ofInt (v * 2 ^ 24 + 8388608)) fixedPointShift = .ofInt v := by
    rw [Checked.shr_ofInt (by constructor <;> omega), fixedPointShift, hround]
  have hv : Checked.Fits v := by constructor <;> omega
  have hgt : Int64.ofInt v > 127 ↔ 127 < v := by
    rw [gt_iff_lt, Int64.lt_iff_toInt_lt, Checked.toInt_ofInt hv]
    rfl
  have hlt : Int64.ofInt v < -128 ↔ v < -128 := by
    rw [Int64.lt_iff_toInt_lt, Checked.toInt_ofInt hv]
    rfl
  unfold fromFixed
  simp only [hadd, pure_bind, hshr, hgt, hlt]
  unfold sat8
  split_ifs with h₁ h₂
  · rw [show max (-128) (min 127 v) = 127 by omega]
    rfl
  · rw [show max (-128) (min 127 v) = -128 by omega]
    rfl
  · rw [show max (-128) (min 127 v) = v by omega, Int64.toInt8_ofInt]

theorem toFixedShift_sat8 (v : Int) : toFixedShift (Int8.ofInt (sat8 v)) = pure (.ofInt (sat8 v * 2 ^ 24)) := by
  have hlo : -128 ≤ sat8 v := le_max_left ..
  have hhi : sat8 v ≤ 127 := by
    unfold sat8
    omega
  have hval : (Int8.ofInt (sat8 v)).toInt64.toInt = sat8 v := by
    rw [Int8.toInt_toInt64, Int8.toInt_ofInt_of_le (by omega) (by omega)]
  rw [toFixedShift, Checked.shl, hval, fixedPointShift]
  exact Checked.result_eq_pure (by constructor <;> omega)

variable {α : Type} {tmp : List Int64} {matrices : Nat → DenseMatrix × DenseMatrix}

/-- A term of a product, as the code computes it. -/
theorem term_eq {a b : Int} (ha : |a| ≤ 128) (hb : |b| ≤ 128) (f : Int64 → Checked α) :
    (do let prod ← Checked.mul (.ofInt (a * 2 ^ 24)) (.ofInt (b * 2 ^ 24))
        let rounded ← Checked.add prod fixedPointHalf
        f (Checked.shr rounded fixedPointShift)) = f (.ofInt (a * b * 2 ^ 24)) := by
  have hab : |a * b| ≤ 16384 := by
    rw [abs_mul]
    calc |a| * |b| ≤ 128 * 128 := mul_le_mul ha hb (abs_nonneg _) (by norm_num)
      _ = 16384 := by norm_num
  have ha' := abs_le.mp ha
  have hb' := abs_le.mp hb
  obtain ⟨hlo, hhi⟩ := abs_le.mp hab
  have hprod : a * 2 ^ 24 * (b * 2 ^ 24) = a * b * 2 ^ 48 := by ring
  have hhalf : fixedPointHalf = .ofInt 8388608 := by decide
  have hround : (a * b * 2 ^ 48 + 8388608) / 2 ^ 24 = a * b * 2 ^ 24 := by omega
  rw [Checked.mul_ofInt (by constructor <;> omega) (by constructor <;> omega)
    (by rw [hprod]; constructor <;> omega), pure_bind, hprod, hhalf,
    Checked.add_ofInt (by constructor <;> omega) (by constructor <;> omega)
      (by constructor <;> omega), pure_bind, Checked.shr_ofInt (by constructor <;> omega),
    fixedPointShift, hround]

theorem abs_term_le {a b : Int} (ha : |a| ≤ 128) (hb : |b| ≤ 128) : |a * b * 2 ^ 24| ≤ 2 ^ 38 := by
  rw [abs_mul, abs_mul]
  calc |a| * |b| * |(2 : Int) ^ 24| ≤ 128 * 128 * |(2 : Int) ^ 24| :=
        mul_le_mul_of_nonneg_right (mul_le_mul ha hb (abs_nonneg _) (by norm_num)) (abs_nonneg _)
    _ = 2 ^ 38 := by norm_num

/-! ## One product -/

/-- Two slices of `size * size` fixed-point numbers whose integers are `int8`. -/
structure Factor (data : List Int64) (size : Nat) (A : Nat → Int) : Prop where
  holds : Holds data (size * size) fun p => A p * 2 ^ 24
  small : ∀ p, |A p| ≤ 128

variable {size : Nat} {a b : List Int64} {A B : Nat → Int}

theorem index_lt {i k : Nat} (hi : i < size) (hk : k < size) : i * size + k < size * size := by
  calc i * size + k < i * size + size := by omega
    _ = (i + 1) * size := by ring
    _ ≤ size * size := Nat.mul_le_mul_right _ hi

/-- The innermost of the loops. -/
def addRow (a b : List Int64) (size i k : Nat) (js : List Nat) (dst : List Int64) : Checked (List Int64) :=
  js.foldlM (fun dst j => do
    let prod ← Checked.mul (a.getD (i * size + k) 0) (b.getD (k * size + j) 0)
    let rounded ← Checked.add prod fixedPointHalf
    let sum ← Checked.add (dst.getD (i * size + j) 0) (Checked.shr rounded fixedPointShift)
    pure (dst.set (i * size + j) sum)) dst

/-- What one `(i, k, j)` adds to entry `p`. -/
def contribution (size : Nat) (A B : Nat → Int) (p i k j : Nat) : Int :=
  if p = i * size + j then A (i * size + k) * B (k * size + j) * 2 ^ 24 else 0

/-- What one `(i, k)` of the loops adds: a row of `b`, or nothing where `a` is zero. -/
theorem adds_row (ha : Factor a size A) (hb : Factor b size B) {i k : Nat} (hi : i < size)
    (hk : k < size) {js : List Nat} (hjs : ∀ j ∈ js, j < size) :
    Adds (size * size) (fun dst => if a.getD (i * size + k) 0 = 0 then pure dst else addRow a b size i k js dst)
      (fun p => (js.map (contribution size A B p i k)).sum)
      (fun p => (js.map fun j =>
        if p = i * size + j then |A (i * size + k) * B (k * size + j) * 2 ^ 24| else 0).sum) := by
  have hval := ha.holds.entry _ (index_lt hi hk)
  have hloop : Adds (size * size) (addRow a b size i k js) _ _ := Adds.foldlM fun j hj => by
    have hsmall := abs_term_le (ha.small (i * size + k)) (hb.small (k * size + j))
    refine Adds.single (index_lt hi (hjs j hj)) (hsmall.trans_lt (by norm_num)) fun dst => ?_
    rw [hval, hb.holds.entry _ (index_lt hk (hjs j hj))]
    exact term_eq (ha.small _) (hb.small _) fun t =>
      Checked.add (dst.getD (i * size + j) 0) t >>= fun sum => pure (dst.set (i * size + j) sum)
  split_ifs with hzero
  · -- A skipped factor is zero, and so is what it would have added.
    have hA : A (i * size + k) = 0 := by
      have hsmall := abs_le.mp (ha.small (i * size + k))
      have htoInt := congrArg Int64.toInt (hval.symm.trans hzero)
      rw [Checked.toInt_ofInt (by constructor <;> omega)] at htoInt
      have : (0 : Int64).toInt = 0 := rfl
      omega
    have hnone : ∀ p, contribution size A B p i k = fun _ => 0 := fun p => by
      funext j
      simp [contribution, hA]
    simpa [hnone, hA] using Adds.skip (n := size * size)
  · exact hloop

theorem adds_blocked (ha : Factor a size A) (hb : Factor b size B) : Adds (size * size)
      (fun dst => (blocks 32 size).foldlM (fun dst i₀ =>
        (blocks 32 size).foldlM (fun dst k₀ =>
          (blocks 32 size).foldlM (fun dst j₀ =>
            (between i₀).foldlM (fun dst i =>
              (between k₀).foldlM (fun dst k =>
                if a.getD (i * size + k) 0 = 0 then pure dst
                else addRow a b size i k (between j₀) dst) dst) dst) dst) dst) dst)
      (fun p => ((blocks 32 size).map fun i₀ => ((blocks 32 size).map fun k₀ =>
        ((blocks 32 size).map fun j₀ => ((between i₀).map fun i => ((between k₀).map fun k =>
          ((between j₀).map (contribution size A B p i k)).sum).sum).sum).sum).sum).sum)
      (fun p => ((blocks 32 size).map fun i₀ => ((blocks 32 size).map fun k₀ =>
        ((blocks 32 size).map fun j₀ => ((between i₀).map fun i => ((between k₀).map fun k =>
          ((between j₀).map (fun j => if p = i * size + j then
            |A (i * size + k) * B (k * size + j) * 2 ^ 24| else 0)).sum).sum).sum).sum).sum).sum) :=
  Adds.foldlM fun _ hi₀ => Adds.foldlM fun _ hk₀ => Adds.foldlM fun _ hj₀ =>
    Adds.foldlM fun _ hi => Adds.foldlM fun _ hk =>
      adds_row ha hb (lt_of_mem_block hi₀ hi) (lt_of_mem_block hk₀ hk)
        fun _ hj => lt_of_mem_block hj₀ hj

/-- The order of the loops and their blocks does not matter. -/
theorem sum_loops (size : Nat) (f : Nat → Nat → Nat → Int) :
    ((blocks 32 size).map fun i₀ => ((blocks 32 size).map fun k₀ =>
      ((blocks 32 size).map fun j₀ => ((between i₀).map fun i => ((between k₀).map fun k =>
        ((between j₀).map (f i k)).sum).sum).sum).sum).sum).sum =
      ∑ i ∈ Finset.range size, ∑ k ∈ Finset.range size, ∑ j ∈ Finset.range size, f i k j := by
  simp only [sum_comm (blocks 32 size) (between _), sum_blocks (by norm_num : 0 < 32)]

/-- Of the sums over a whole matrix, entry `p` gets the one of its row and its column. -/
theorem sum_entry {p : Nat} (hp : p < size * size) (g : Nat → Nat → Nat → Int) :
    (∑ i ∈ Finset.range size, ∑ k ∈ Finset.range size, ∑ j ∈ Finset.range size,
      if p = i * size + j then g i k j else 0) =
      ∑ k ∈ Finset.range size, g (p / size) k (p % size) := by
  have hsize : 0 < size := Nat.pos_of_mul_pos_left (Nat.zero_lt_of_lt hp)
  have hsplit : p = p / size * size + p % size := (Nat.div_add_mod' p size).symm
  have hrow : p / size < size := Nat.div_lt_of_lt_mul hp
  rw [Finset.sum_eq_single (p / size)]
  · refine Finset.sum_congr rfl fun k _ => ?_
    rw [Finset.sum_eq_single (p % size), if_pos hsplit]
    · intro j _ hj
      rw [if_neg]
      intro hpj
      omega
    · intro hcol
      exact absurd (Finset.mem_range.mpr (Nat.mod_lt p hsize)) hcol
  · intro i _ hi
    refine Finset.sum_eq_zero fun k _ => Finset.sum_eq_zero fun j hj => if_neg fun hpj => hi ?_
    rw [hpj, Nat.mul_comm, Nat.mul_add_div hsize, Nat.div_eq_of_lt (Finset.mem_range.mp hj), Nat.add_zero]
  · intro hmem
    exact absurd (Finset.mem_range.mpr hrow) hmem

/-- **`mulMatrixBlocked` is the product of the integers**, and overflows nowhere. -/
theorem mulMatrixBlocked_eq (ha : Factor a size A) (hb : Factor b size B) (hsize : size ≤ 2 ^ 24)
    {dst : List Int64} (hdst : size * size ≤ dst.length) :
    ∃ dst', mulMatrixBlocked dst a b size = pure dst' ∧ dst'.length = dst.length ∧
      Holds dst' (size * size) fun p =>
        (∑ k ∈ Finset.range size, A (p / size * size + k) * B (k * size + p % size)) * 2 ^ 24 := by
  obtain ⟨hlen, hzero⟩ := holds_zeros dst (size * size) hdst
  obtain ⟨dst', hrun, hlen', hholds⟩ := (adds_blocked ha hb).run _ _ hzero fun p hp => by
    -- At most `size` terms of at most `2 ^ 38` go into one entry.
    rw [sum_loops, sum_entry hp]
    have hle : ∑ k ∈ Finset.range size,
        |A (p / size * size + k) * B (k * size + p % size) * 2 ^ 24| ≤ (size : Int) * 2 ^ 38 := by
      calc _ ≤ ∑ _k ∈ Finset.range size, (2 ^ 38 : Int) :=
            Finset.sum_le_sum fun k _ => abs_term_le (ha.small _) (hb.small _)
        _ = (size : Int) * 2 ^ 38 := by simp
    rw [abs_zero, zero_add]
    omega
  refine ⟨dst', hrun, hlen'.trans hlen, hholds.congr fun p hp => ?_⟩
  rw [sum_loops size (contribution size A B p)]
  simp only [contribution]
  rw [sum_entry hp, zero_add, Finset.sum_mul]

/-! ## One factor -/

/-- A matrix of the right width whose entries are these integers, in fixed point. -/
structure Represents (m : DenseMatrix) (V : Nat → Int) : Prop where
  cols : m.cols = matSize
  holds : Holds m.data (matSize * matSize) fun p => V p * 2 ^ 24

theorem rescale_eq {m : DenseMatrix} {V : Nat → Int} (hm : Represents m V) (hV : ∀ p, |V p| < 2 ^ 38) :
    ∃ m', rescale m = pure m' ∧ Represents m' fun p => sat8 (V p) := by
  -- After `t` entries, those are saturated and the others as they were.
  obtain ⟨m', hrun, hm'⟩ := Checked.foldlM_grid (n := matSize)
    (f := fun m row col => do
      let i8v ← fromFixed (m.entryAt row col)
      let v ← toFixedShift i8v
      pure (m.set row col v))
    (fun t m' => m'.cols = matSize ∧ Holds m'.data (matSize * matSize)
      fun p => if p < t then sat8 (V p) * 2 ^ 24 else V p * 2 ^ 24)
    (fun row hrow col hcol m' ⟨hcols, hholds⟩ => by
      have hidx := index_lt hrow hcol
      have hentry := hholds.entry _ hidx
      rw [if_neg (lt_irrefl _)] at hentry
      refine ⟨m'.set row col (.ofInt (sat8 (V (row * matSize + col)) * 2 ^ 24)), ?_, hcols, ?_⟩
      · rw [DenseMatrix.entryAt, hcols, hentry, fromFixed_ofInt (hV _), pure_bind, toFixedShift_sat8, pure_bind]
      · rw [DenseMatrix.set, hcols]
        exact hholds.set_next hidx)
    (s := m) ⟨hm.cols, by simpa using hm.holds⟩
  exact ⟨m', hrun, hm'.1, hm'.2.congr fun p hp => by rw [if_pos hp]⟩

instance : NeZero matSize := ⟨by decide⟩

/-- A matrix of integers, row after row. -/
def flat (M : Matrix (Fin matSize) (Fin matSize) ℤ) (p : Nat) : Int :=
  M (.ofNat matSize (p / matSize)) (.ofNat matSize (p % matSize))

theorem flat_index (M : Matrix (Fin matSize) (Fin matSize) ℤ) (i j : Fin matSize) :
    flat M (i * matSize + j) = M i j := by
  have hpos : 0 < matSize := by decide
  rw [flat, Nat.mul_comm, Nat.mul_add_div hpos, Nat.div_eq_of_lt j.isLt, Nat.mul_add_mod,
    Nat.mod_eq_of_lt j.isLt, Nat.add_zero]
  congr 1 <;> exact Fin.ext (by simp [Fin.ofNat, Nat.mod_eq_of_lt])

theorem flat_mul (A B : Matrix (Fin matSize) (Fin matSize) ℤ) (p : Nat) (hp : p < matSize * matSize) :
    (∑ k ∈ Finset.range matSize, flat A (p / matSize * matSize + k) *
      flat B (k * matSize + p % matSize)) = flat (A * B) p := by
  have hrow : p / matSize < matSize := Nat.div_lt_of_lt_mul hp
  have hcol : p % matSize < matSize := Nat.mod_lt p (by decide)
  have hsplit : p = p / matSize * matSize + p % matSize := (Nat.div_add_mod' p matSize).symm
  conv_rhs => rw [hsplit, flat_index (A * B) ⟨_, hrow⟩ ⟨_, hcol⟩, Matrix.mul_apply]
  rw [Finset.sum_range]
  refine Finset.sum_congr rfl fun k _ => ?_
  rw [flat_index A ⟨_, hrow⟩ k, flat_index B k ⟨_, hcol⟩]

theorem abs_mul_apply_lt {A B : Matrix (Fin matSize) (Fin matSize) ℤ} (hA : ∀ i j, |A i j| ≤ 128)
    (hB : ∀ i j, |B i j| ≤ 128) (i j : Fin matSize) : |(A * B) i j| < 2 ^ 38 := by
  rw [Matrix.mul_apply]
  calc |∑ k, A i k * B k j| ≤ ∑ k, |A i k * B k j| := Finset.abs_sum_le_sum_abs ..
    _ ≤ ∑ _k : Fin matSize, (128 * 128 : Int) := by
      refine Finset.sum_le_sum fun k _ => ?_
      rw [abs_mul]
      exact mul_le_mul (hA i k) (hB k j) (abs_nonneg _) (by norm_num)
    _ < 2 ^ 38 := by
      rw [Finset.sum_const, Finset.card_univ, Fintype.card_fin, matSize]
      norm_num

/-- The plain computation: one factor. -/
def clampedMul (A M : Matrix (Fin matSize) (Fin matSize) ℤ) : Matrix (Fin matSize) (Fin matSize) ℤ :=
  (A * M).map sat8

/-- The table of fixed-point numbers holds these 256 matrices. -/
def Table (fixedData : List Int64) (M : UInt8 → Matrix (Fin matSize) (Fin matSize) ℤ) : Prop :=
  ∀ b : UInt8, Factor ((fixedData.drop (b.toNat * matSize * matSize)).take (matSize * matSize))
    matSize (flat (M b))

/-- A goroutine's matrices between two turns: the product so far, and one to write into. -/
structure Working (pair : DenseMatrix × DenseMatrix) (A : Matrix (Fin matSize) (Fin matSize) ℤ) :
    Prop where
  product : Represents pair.1 (flat A)
  small : ∀ i j, |A i j| ≤ 128
  cols : pair.2.cols = matSize
  room : matSize * matSize ≤ pair.2.data.length

variable {table : List Int64} {M : UInt8 → Matrix (Fin matSize) (Fin matSize) ℤ} {pair : DenseMatrix × DenseMatrix}
  {S : Matrix (Fin matSize) (Fin matSize) ℤ}

theorem turn_eq (htable : Table table M) (b : UInt8) {A : Matrix (Fin matSize) (Fin matSize) ℤ} (h : Working pair A) :
    ∃ pair', turn table b.toNat pair.1 pair.2 = pure pair' ∧
      Working pair' (clampedMul A (M b)) := by
  obtain ⟨data, hmul, hlen, hdata⟩ := mulMatrixBlocked_eq
    ⟨h.product.holds, fun p => h.small ..⟩ (htable b) (by decide) h.room
  have hdata' : Holds data (matSize * matSize) fun p => flat (A * M b) p * 2 ^ 24 :=
    hdata.congr fun p hp => by rw [flat_mul A (M b) p hp]
  have hM : ∀ i j, |M b i j| ≤ 128 := fun i j => by
    rw [← flat_index (M b) i j]
    exact (htable b).small _
  have hbound : ∀ p, |flat (A * M b) p| < 2 ^ 38 := fun p => abs_mul_apply_lt h.small hM ..
  obtain ⟨m', hrescale, hm'⟩ := rescale_eq (m := { pair.2 with data := data }) ⟨h.cols, hdata'⟩ hbound
  refine ⟨(m', pair.1), ?_, ⟨hm', fun i j => abs_sat8_le _, h.product.cols, h.product.holds.length⟩⟩
  unfold turn
  simp only [hmul, pure_bind, hrescale]

theorem turns_eq (htable : Table table M) : ∀ (bs : List UInt8) {pair}
    {A : Matrix (Fin matSize) (Fin matSize) ℤ}, Working pair A →
    ∃ pair', bs.foldlM (fun pair b => turn table b.toNat pair.1 pair.2) pair = pure pair' ∧
      Working pair' (bs.foldl (fun A b => clampedMul A (M b)) A)
  | [], pair, _, h => ⟨pair, rfl, h⟩
  | b :: bs, _, _, h => by
    obtain ⟨pair₁, hturn, h₁⟩ := turn_eq htable b h
    obtain ⟨pair₂, hrest, h₂⟩ := turns_eq htable bs h₁
    exact ⟨pair₂, by rw [foldlM_cons, hturn, pure_bind, hrest], h₂⟩

/-- The plain computation: the product of the matrices a sequence selects, twice over. -/
def clampedProduct (M : UInt8 → Matrix (Fin matSize) (Fin matSize) ℤ) (sequence : FixedBytes 32) :
    Matrix (Fin matSize) (Fin matSize) ℤ :=
  (sequence.bytes ++ sequence.bytes).foldl (fun A b => clampedMul A (M b)) 1

theorem goroutine_eq (htable : Table table M) (sequence : FixedBytes 32) {ma mc : DenseMatrix}
    (h : Working (ma, mc) 1) :
    ∃ m, goroutine table sequence ma mc = pure m ∧
      Represents m (flat (clampedProduct M sequence)) ∧
      ∀ i j, |clampedProduct M sequence i j| ≤ 128 := by
  obtain ⟨pair₁, hfirst, h₁⟩ := turns_eq htable sequence.bytes h
  obtain ⟨pair₂, hsecond, h₂⟩ := turns_eq htable sequence.bytes h₁
  rw [← foldl_append] at h₂
  refine ⟨pair₂.1, ?_, h₂.product, h₂.small⟩
  have hrange : range 2 = [0, 1] := rfl
  unfold goroutine
  simp only [hrange, foldlM_cons, foldlM_nil, hfirst, hsecond, pure_bind, bind_pure]

/-! ## The sum of the four -/

theorem addPart_eq {S V : Nat → Int} {m : DenseMatrix} (htmp : Holds tmp (matSize * matSize) fun p => S p * 2 ^ 24)
    (hm : Represents m V) (hS : ∀ p, |S p| ≤ 2 ^ 16) (hV : ∀ p, |V p| ≤ 128) :
    ∃ tmp', (range matSize).foldlM (fun tmp row =>
      (range matSize).foldlM (fun tmp col => do
        let sum ← Checked.add (tmp.getD (row * matSize + col) 0) (m.entryAt row col)
        pure (tmp.set (row * matSize + col) sum)) tmp) tmp = pure tmp' ∧
      Holds tmp' (matSize * matSize) fun p => (S p + V p) * 2 ^ 24 := by
  obtain ⟨tmp', hrun, htmp'⟩ := Checked.foldlM_grid (n := matSize)
    (f := fun tmp row col => do
      let sum ← Checked.add (tmp.getD (row * matSize + col) 0) (m.entryAt row col)
      pure (tmp.set (row * matSize + col) sum))
    (fun t tmp => Holds tmp (matSize * matSize) fun p => if p < t then (S p + V p) * 2 ^ 24 else S p * 2 ^ 24)
    (fun row hrow col hcol tmp htmp => by
      have hidx := index_lt hrow hcol
      have hentry := htmp.entry _ hidx
      rw [if_neg (lt_irrefl _)] at hentry
      have hS' := abs_le.mp (hS (row * matSize + col))
      have hV' := abs_le.mp (hV (row * matSize + col))
      refine ⟨_, ?_, htmp.set_next hidx⟩
      rw [DenseMatrix.entryAt, hm.cols, hentry, hm.holds.entry _ hidx,
        Checked.add_ofInt (by constructor <;> omega) (by constructor <;> omega)
          (by constructor <;> omega), pure_bind, add_mul])
    (s := tmp) (by simpa using htmp)
  exact ⟨tmp', hrun, htmp'.congr fun p hp => by rw [if_pos hp]⟩

/-- Adding up matrices, the plain way. -/
theorem addParts_eq {parts : List DenseMatrix} {Ms : List (Matrix (Fin matSize) (Fin matSize) ℤ)}
    (hparts : Forall₂ (fun m A => Represents m (flat A)) parts Ms) (hMs : ∀ A ∈ Ms, ∀ i j, |A i j| ≤ 128)
    (hS : ∀ i j, |S i j| + 128 * Ms.length ≤ 2 ^ 16) (htmp : Holds tmp (matSize * matSize) fun p => flat S p * 2 ^ 24) :
    ∃ tmp', parts.foldlM (fun tmp m => (range matSize).foldlM (fun tmp row =>
      (range matSize).foldlM (fun tmp col => do
        let sum ← Checked.add (tmp.getD (row * matSize + col) 0) (m.entryAt row col)
        pure (tmp.set (row * matSize + col) sum)) tmp) tmp) tmp = pure tmp' ∧
      Holds tmp' (matSize * matSize) (fun p => flat (S + Ms.sum) p * 2 ^ 24) ∧
      ∀ i j, |(S + Ms.sum) i j| ≤ 2 ^ 16 := by
  induction hparts generalizing tmp S with
  | nil => exact ⟨tmp, rfl, by simpa using htmp, by simpa using hS⟩
  | @cons m A parts Ms hm _ ih =>
    have hA := hMs A mem_cons_self
    obtain ⟨tmp₁, hrun₁, htmp₁⟩ := addPart_eq htmp hm (fun p => by
      have := hS (.ofNat matSize (p / matSize)) (.ofNat matSize (p % matSize))
      simp only [flat, length_cons] at this ⊢
      push_cast at this
      omega) (fun p => hA ..)
    obtain ⟨tmp₂, hrun₂, hsum⟩ := ih (S := S + A)
      (fun B hB => hMs B (mem_cons_of_mem A hB))
      (fun i j => by
        have hij := hS i j
        have habs := abs_add_le (S i j) (A i j)
        have hAij := hA i j
        simp only [Matrix.add_apply, length_cons] at hij ⊢
        push_cast at hij
        omega) htmp₁
    refine ⟨tmp₂, by rw [foldlM_cons, hrun₁, pure_bind, hrun₂], ?_⟩
    rwa [sum_cons, ← add_assoc]

/-- The bytes of a matrix, row after row. -/
def matrixBytes (S : Matrix (Fin matSize) (Fin matSize) ℤ) : Bytes :=
  (range (matSize * matSize)).map fun p => (Int8.ofInt (flat S p)).toUInt8

theorem emit_eq (htmp : Holds tmp (matSize * matSize) fun p => flat S p * 2 ^ 24) (hS : ∀ i j, |S i j| < 2 ^ 38) :
    emit tmp = pure (matrixBytes (S.map sat8)) := by
  obtain ⟨result, hrun, hresult⟩ := Checked.foldlM_grid (n := matSize)
    (f := fun result i j => do
      let v ← fromFixed (tmp.getD (i * matSize + j) 0)
      pure (result ++ [v.toUInt8]))
    (fun t result => result = (range t).map fun p => (Int8.ofInt (flat (S.map sat8) p)).toUInt8)
    (fun row hrow col hcol result hresult => by
      have hentry := htmp.entry _ (index_lt hrow hcol)
      have hsmall : |flat S (row * matSize + col)| < 2 ^ 38 := hS ..
      refine ⟨_, ?_, rfl⟩
      rw [hentry, fromFixed_ofInt hsmall, pure_bind, range_succ, map_append, ← hresult]
      rfl)
    (s := []) rfl
  rwa [matrixBytes, ← hresult]

/-! ## The tables -/

/-- The 256 matrices of `int8` in the bytes of the cache. -/
def cacheMatrix (bytes : Bytes) (b : UInt8) : Matrix (Fin matSize) (Fin matSize) ℤ :=
  fun i j => (bytes.getD (b.toNat * matSize * matSize + (i * matSize + j)) 0).toInt8.toInt

theorem abs_toInt8_le (b : UInt8) : |b.toInt8.toInt| ≤ 128 := by
  have hlo := b.toInt8.le_toInt
  have hhi := b.toInt8.toInt_lt
  rw [abs_le]
  omega

theorem table_cacheMatrix {bytes : Bytes} (h : bytes.length = matNum * matSize * matSize) :
    Table (fixedData bytes) (cacheMatrix bytes) := by
  intro b
  have hb : b.toNat < 256 := b.toNat_lt
  have hroom : b.toNat * matSize * matSize + matSize * matSize ≤ bytes.length := by
    rw [h]
    simp only [matSize, matNum]
    omega
  refine ⟨⟨?_, fun p hp => ?_⟩, fun p => abs_toInt8_le _⟩
  · simp only [fixedData, length_take, length_drop, length_map]
    omega
  · have hrow : p / matSize < matSize := Nat.div_lt_of_lt_mul hp
    have hcol : p % matSize < matSize := Nat.mod_lt p (by decide)
    have hlt : b.toNat * matSize * matSize + p < bytes.length := by omega
    have hflat : flat (cacheMatrix bytes b) p =
        (bytes.getD (b.toNat * matSize * matSize + p) 0).toInt8.toInt := by
      conv_lhs => rw [← Nat.div_add_mod' p matSize]
      rw [flat_index (cacheMatrix bytes b) ⟨_, hrow⟩ ⟨_, hcol⟩, cacheMatrix]
      simp only [Nat.div_add_mod']
    rw [hflat, ← toFixed_ofInt (abs_toInt8_le _)]
    simp only [fixedData, getD_eq_getElem?_getD, getElem?_take, hp, if_true,
      getElem?_drop, getElem?_map, getElem?_eq_getElem hlt, Option.map_some,
      Option.getD_some]

theorem length_flatMap_range {f : Nat → List α} {n c : Nat} (h : ∀ i < n, (f i).length = c) :
    ((range n).flatMap f).length = n * c := by
  rw [length_flatMap, map_congr_left (g := fun _ => c) fun i hi => h i (mem_range.mp hi)]
  simp

theorem length_shuffled {cache : List UInt32} (h : 128 * 1024 * 32 ≤ cache.length) :
    (shuffled cache).length = 128 * 1024 * 32 := by
  have hpart : ∀ start, start + 32 ≤ 128 * 1024 * 32 → ((cache.drop start).take 32).length = 32 :=
    fun start hstart => by
      rw [length_take, length_drop]
      omega
  rw [shuffled, length_flatMap_range (c := 1024 * 32) fun i hi => ?_]
  rw [length_append, length_flatMap_range (c := 32) fun j hj => hpart _ (by omega),
    length_flatMap_range (c := 32) fun j hj => hpart _ (by omega)]

theorem length_byteData (words : List UInt32) : (byteData words).length = 4 * words.length := by
  induction words with
  | nil => rfl
  | cons w ws ih =>
    rw [byteData, flatMap_cons, length_append, putUint32LE_length]
    rw [byteData] at ih
    rw [ih, length_cons]
    omega

/-! ## The matrices a goroutine begins with -/

/-- After `t` turns of the loop that writes the identity, `t` entries of the diagonal are set. -/
theorem diagonal_eq : ∀ t ≤ matSize, ((range t).foldl (fun data i => data.set (i * 257) fixedPointFactor)
      (replicate (matSize * matSize) 0)).length = matSize * matSize ∧
    Holds ((range t).foldl (fun data i => data.set (i * 257) fixedPointFactor)
      (replicate (matSize * matSize) 0)) (matSize * matSize)
      fun p => (if p % 257 = 0 ∧ p / 257 < t then 1 else 0) * 2 ^ 24
  | 0, _ => by
    refine ⟨length_replicate, length_replicate.ge, fun p hp => ?_⟩
    rw [if_neg (by omega), range_zero, foldl_nil, getD_eq_getElem?_getD, getElem?_replicate, if_pos hp]
    rfl
  | t + 1, ht => by
    obtain ⟨hlen, hholds⟩ := diagonal_eq t (by omega)
    have hidx : t * 257 < matSize * matSize := by
      simp only [matSize] at ht ⊢
      omega
    have hfactor : fixedPointFactor = .ofInt (1 * 2 ^ 24) := by decide
    rw [range_succ, foldl_append, foldl_cons, foldl_nil]
    refine ⟨by rw [length_set, hlen], ?_⟩
    rw [hfactor] at hholds ⊢
    refine (hholds.set hidx _).congr fun p _ => ?_
    by_cases hp : p = t * 257
    · subst hp
      rw [Function.update_self, if_pos (by omega)]
    · have hiff : p % 257 = 0 ∧ p / 257 < t + 1 ↔ p % 257 = 0 ∧ p / 257 < t := by omega
      rw [Function.update_of_ne hp]
      simp only [hiff]

theorem length_dataIdentity : dataIdentity.length = matSize * matSize :=
  (diagonal_eq matSize le_rfl).1

theorem holds_dataIdentity : Holds dataIdentity (matSize * matSize) fun p => flat 1 p * 2 ^ 24 := by
  refine (diagonal_eq matSize le_rfl).2.congr fun p hp => ?_
  have hrow : p / matSize < matSize := Nat.div_lt_of_lt_mul hp
  have hcol : p % matSize < matSize := Nat.mod_lt p (by decide)
  have hflat : flat 1 p = if p / matSize = p % matSize then 1 else 0 := by
    conv_lhs => rw [← Nat.div_add_mod' p matSize]
    rw [flat_index 1 ⟨_, hrow⟩ ⟨_, hcol⟩, Matrix.one_apply]
    simp only [Fin.mk.injEq]
  have hiff : p % 257 = 0 ∧ p / 257 < matSize ↔ p / matSize = p % matSize := by
    simp only [matSize] at hp hrow hcol ⊢
    omega
  rw [hflat]
  simp only [hiff]

/-- Copied over anything with room for it, the identity is there. -/
theorem holds_copyInto {dst : List Int64} (h : matSize * matSize ≤ dst.length) :
    Holds (copyInto dst dataIdentity) (matSize * matSize) fun p => flat 1 p * 2 ^ 24 := by
  have htake : dataIdentity.take dst.length = dataIdentity :=
    take_of_length_le (by rw [length_dataIdentity]; exact h)
  refine ⟨?_, fun p hp => ?_⟩
  · rw [copyInto, htake, length_append, length_dataIdentity]
    omega
  · rw [copyInto, htake, getD_eq_getElem?_getD, getElem?_append_left
      (by rw [length_dataIdentity]; exact hp), ← getD_eq_getElem?_getD]
    exact holds_dataIdentity.entry p hp

theorem abs_one_apply_le (i j : Fin matSize) :
    |(1 : Matrix (Fin matSize) (Fin matSize) ℤ) i j| ≤ 128 := by
  rw [Matrix.one_apply]
  split_ifs <;> norm_num

theorem length_newDenseMatrix (rows cols : Nat) : (newDenseMatrix rows cols).data.length = rows * cols := by
  have hfold : ∀ (is : List Nat) (data : List Int64),
      (is.foldl (fun data i => data.set (i * cols + i) fixedPointFactor) data).length =
        data.length := by
    intro is
    induction is with
    | nil => exact fun _ => rfl
    | cons i is ih => exact fun data => (ih _).trans length_set
  rw [newDenseMatrix, hfold, length_replicate]

/-- A matrix from the pool has room for what is asked for, whatever it was used for. -/
theorem length_getMatrix (m : PooledMatrix) (rows cols : Nat) : rows * cols ≤ (getMatrix m rows cols).data.length := by
  unfold getMatrix DenseMatrix.reset
  split_ifs
  · exact length_replicate.ge
  · rw [length_append, length_replicate]
    omega

/-- A pair of matrices a goroutine can begin with. -/
structure Fresh (pair : DenseMatrix × DenseMatrix) : Prop where
  cols₁ : pair.1.cols = matSize
  identity : Holds pair.1.data (matSize * matSize) fun p => flat 1 p * 2 ^ 24
  cols₂ : pair.2.cols = matSize
  room : matSize * matSize ≤ pair.2.data.length

theorem Fresh.working (h : Fresh pair) : Working pair 1 :=
  ⟨⟨h.cols₁, h.identity⟩, abs_one_apply_le, h.cols₂, h.room⟩

/-! ## The whole computation -/

/-- The plain computation: four products of matrices of integers, clamped after each factor, and
the clamped sum of the four. -/
def plainPipeline (keccak256 : Bytes → Hash) (hashBytes : Bytes) (cache : List UInt32) : Bytes :=
  let sequence := fun i => keccak256 ((hashBytes.drop (i * 8)).take 8)
  let M := cacheMatrix (byteData (shuffled cache))
  matrixBytes (((range 4).map fun i => clampedProduct M (sequence i)).sum.map sat8)

theorem mapM_ok {β : Type} {f : α → Go β} {g : α → β} : ∀ {xs : List α},
    (∀ x ∈ xs, f x = .ok (g x)) → xs.mapM f = .ok (xs.map g)
  | [], _ => rfl
  | x :: xs, h => by
    rw [mapM_cons, h x mem_cons_self, mapM_ok fun y hy => h y (mem_cons_of_mem x hy)]
    rfl

theorem goroutines_eq (htable : Table table M) (hfresh : ∀ i, Fresh (matrices i)) : ∀ ss : List (Nat × Hash),
    ∃ parts, ss.mapM (fun s => goroutine table s.2 (matrices s.1).1 (matrices s.1).2) = pure parts ∧
      Forall₂ (fun m A => Represents m (flat A)) parts (ss.map fun s => clampedProduct M s.2)
  | [] => ⟨[], rfl, .nil⟩
  | s :: ss => by
    obtain ⟨m, hrun, hm, -⟩ := goroutine_eq htable s.2 (hfresh s.1).working
    obtain ⟨parts, hrest, hparts⟩ := goroutines_eq htable hfresh ss
    refine ⟨m :: parts, ?_, .cons hm hparts⟩
    rw [mapM_cons, hrun, pure_bind, hrest, pure_bind]

theorem holds_zero_matrix : Holds (replicate (matSize * matSize) 0) (matSize * matSize)
    fun p => flat 0 p * 2 ^ 24 := by
  refine ⟨length_replicate.ge, fun p hp => ?_⟩
  rw [getD_eq_getElem?_getD, getElem?_replicate, if_pos hp, flat, Matrix.zero_apply, zero_mul]
  rfl

/-- The goroutines, and what comes after them. -/
theorem finish_eq (htable : Table table M) (hfresh : ∀ i, Fresh (matrices i)) {ss : List (Nat × Hash)}
    (hss : ss.length ≤ 4) :
    (do let parts ← ss.mapM fun s : Nat × Hash => goroutine table s.2 (matrices s.1).1 (matrices s.1).2
        let tmp ← addUp parts
        emit tmp) = pure (matrixBytes ((ss.map fun s => clampedProduct M s.2).sum.map sat8)) := by
  obtain ⟨parts, hparts, hreps⟩ := goroutines_eq htable hfresh ss
  obtain ⟨tmp, hadd, htmp, hsmall⟩ := addParts_eq hreps
    (fun A hA => by
      obtain ⟨s, -, rfl⟩ := mem_map.mp hA
      obtain ⟨_, -, -, hbound⟩ := goroutine_eq htable s.2 (hfresh 0).working
      exact hbound)
    (fun i j => by
      rw [Matrix.zero_apply, abs_zero, length_map]
      omega) holds_zero_matrix
  rw [zero_add] at htmp hsmall
  have hemit := emit_eq htmp fun i j => (hsmall i j).trans_lt (by norm_num)
  rw [hparts, pure_bind, addUp, hadd, pure_bind, hemit]

/-- Whatever matrices the goroutines begin with, as long as the one is the identity and there is
room in the other, the plain computation is what they compute. -/
theorem mulMatrixWith_eq (hfresh : ∀ i, Fresh (matrices i)) (keccak256 : Bytes → Hash) (hash : Hash)
    (cache : List UInt32) :
    mulMatrixWith matrices keccak256 hash.bytes cache =
      if 128 * 1024 * 32 ≤ cache.length then .ok (pure (plainPipeline keccak256 hash.bytes cache))
      else .error .sliceBounds := by
  unfold mulMatrixWith shuffle
  split_ifs with hcache
  · have htable : Table (fixedData (byteData (shuffled cache)))
        (cacheMatrix (byteData (shuffled cache))) := by
      refine table_cacheMatrix ?_
      rw [length_byteData, length_shuffled hcache, matNum, matSize]
    have hslice : ∀ i < 4, slice hash.bytes (i * 8) ((i + 1) * 8) =
        .ok ((hash.bytes.drop (i * 8)).take 8) := fun i hi => by
      have hlen : hash.bytes.length = 32 := hash.length_eq
      rw [slice_ok (by omega) (by omega)]
      congr 2
      omega
    have hseq : ((range 4).mapM fun i => do
        let part ← slice hash.bytes (i * 8) ((i + 1) * 8)
        (.ok (i, keccak256 part) : Go (Nat × Hash))) =
        .ok ((range 4).map fun i => (i, keccak256 ((hash.bytes.drop (i * 8)).take 8))) :=
      mapM_ok fun i hi => by rw [hslice i (mem_range.mp hi)]; rfl
    rw [ok_bind, hseq, ok_bind, finish_eq htable hfresh (by simp)]
    simp only [plainPipeline, map_map, Function.comp_def]
  · rfl

theorem fresh_newDenseMatrix : Fresh ({ newDenseMatrix matSize matSize with
        data := copyInto (newDenseMatrix matSize matSize).data dataIdentity },
      newDenseMatrix matSize matSize) where
  cols₁ := rfl
  identity := holds_copyInto (length_newDenseMatrix ..).ge
  cols₂ := rfl
  room := (length_newDenseMatrix ..).ge

theorem cols_getMatrix (m : PooledMatrix) (rows cols : Nat) : (getMatrix m rows cols).cols = cols := by
  unfold getMatrix DenseMatrix.reset
  split_ifs <;> rfl

theorem fresh_getMatrix (m m' : PooledMatrix) : Fresh ({ getMatrix m matSize matSize with
        data := copyInto (getMatrix m matSize matSize).data dataIdentity },
      getMatrix m' matSize matSize) where
  cols₁ := cols_getMatrix ..
  identity := holds_copyInto (length_getMatrix ..)
  cols₂ := cols_getMatrix ..
  room := length_getMatrix ..

/-- **`mulMatrixPooled` is the plain computation over the integers, and overflows nowhere**: for
every cache that is long enough for its slice expressions, and every hash. -/
theorem mulMatrixPooled_exact (keccak256 : Bytes → Hash) (hash : Hash) (cache : List UInt32) :
    mulMatrixPooled keccak256 hash.bytes cache =
      if 128 * 1024 * 32 ≤ cache.length then .ok (pure (plainPipeline keccak256 hash.bytes cache))
      else .error .sliceBounds :=
  mulMatrixWith_eq (fun _ => fresh_newDenseMatrix) keccak256 hash cache

end NogoCommons.Nogopow
