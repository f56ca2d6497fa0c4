import NogoCommons.Lib.Overflow
import NogoCommons.Lib.Rounding
import NogoCommons.Nogopow.Types

/-!
# `nogopow/matrix.go` — the matrix hash

256 matrices of 256 × 256 `int8` are cut out of the seed cache, and a hash of the block selects
64 of them for each of four products. The products are computed in fixed point, `2 ^ 24` for one,
by a multiplication in blocks that rounds each term, and after each factor every entry is rounded
and saturated to `int8` again.

Two functions do this: `mulMatrixPooled`, whose goroutines allocate their matrices (its name
notwithstanding), and `mulMatrix`, whose goroutines take them from a pool with what they were
left with. A goroutine works on its own two matrices and reads shared tables only, so that each
is a function of what it starts with, and the order in which they run does not matter.

All `int64` arithmetic is `Checked` (`Lib/Overflow.lean`).
-/

namespace NogoCommons.Nogopow
open Lib

def fixedPointFactor : Int64 := 16777216
def fixedPointHalf : Int64 := 8388608
def fixedPointShift : Nat := 24
def matSize : Nat := 256
def matNum : Nat := 256

/-- `toFixed`: a product of two `float64`, truncated. -/
def toFixed (val : Double) : Int64 :=
  let scaled := (val.mul (.ofInt 16777216)).val
  .ofInt (if 0 ≤ scaled then ⌊scaled⌋ else ⌈scaled⌉)

def fromFixed (val : Int64) : Checked Int8 := do
  let sum ← Checked.add val fixedPointHalf
  let rounded := Checked.shr sum fixedPointShift
  if rounded > 127 then pure 127
  else if rounded < -128 then pure (-128)
  else pure rounded.toInt8

def toFixedShift (v : Int8) : Checked Int64 := Checked.shl v.toInt64 fixedPointShift

/-! ## Matrices -/

structure DenseMatrix where
  data : List Int64
  rows : Nat
  cols : Nat

namespace DenseMatrix

/-- `At`. -/
def entryAt (m : DenseMatrix) (row col : Nat) : Int64 := m.data.getD (row * m.cols + col) 0

def set (m : DenseMatrix) (row col : Nat) (v : Int64) : DenseMatrix :=
  { m with data := m.data.set (row * m.cols + col) v }

def reset (m : DenseMatrix) (rows cols : Nat) : DenseMatrix :=
  if rows > m.rows ∨ cols > m.cols then ⟨List.replicate (rows * cols) 0, rows, cols⟩
  else ⟨List.replicate (rows * cols) 0 ++ m.data.drop (rows * cols), rows, cols⟩

end DenseMatrix

/-- `newDenseMatrix(rows, cols, nil)`: the identity. -/
def newDenseMatrix (rows cols : Nat) : DenseMatrix where
  data := (List.range rows).foldl (fun data i => data.set (i * cols + i) fixedPointFactor)
    (List.replicate (rows * cols) 0)
  rows := rows
  cols := cols

/-- `copy(dst, src)`. -/
def copyInto (dst src : List Int64) : List Int64 := src.take dst.length ++ dst.drop src.length

/-- A matrix in `matrixPool`: any entries, and room for the size it has. -/
structure PooledMatrix extends DenseMatrix where
  room : rows * cols ≤ data.length

/-- `GetMatrix`, given what the pool hands out. -/
def getMatrix (m : PooledMatrix) (rows cols : Nat) : DenseMatrix := m.toDenseMatrix.reset rows cols

/-! ## One factor -/

def mulMatrixBlocked (dst a b : List Int64) (size : Nat) : Checked (List Int64) :=
  (blocks 32 size).foldlM (fun dst i₀ =>
    (blocks 32 size).foldlM (fun dst k₀ =>
      (blocks 32 size).foldlM (fun dst j₀ =>
        (between i₀).foldlM (fun dst i =>
          (between k₀).foldlM (fun dst k =>
            let valA := a.getD (i * size + k) 0
            if valA = 0 then pure dst
            else (between j₀).foldlM (fun dst j => do
              let prod ← Checked.mul valA (b.getD (k * size + j) 0)
              let rounded ← Checked.add prod fixedPointHalf
              let sum ← Checked.add (dst.getD (i * size + j) 0) (Checked.shr rounded fixedPointShift)
              pure (dst.set (i * size + j) sum)) dst) dst) dst) dst) dst)
    ((List.range (size * size)).foldl (fun dst i => dst.set i 0) dst)

/-- The loop that makes every entry a multiple of `2 ^ 24` again. -/
def rescale (m : DenseMatrix) : Checked DenseMatrix :=
  (List.range matSize).foldlM (fun m row =>
    (List.range matSize).foldlM (fun m col => do
      let i8v ← fromFixed (m.entryAt row col)
      let v ← toFixedShift i8v
      pure (m.set row col v)) m) m

/-- One turn of a goroutine's loop: `mc` becomes the product, and the two change places. -/
def turn (fixedData : List Int64) (index : Nat) (ma mc : DenseMatrix) : Checked (DenseMatrix × DenseMatrix) := do
  let mb := (fixedData.drop (index * matSize * matSize)).take (matSize * matSize)
  let data ← mulMatrixBlocked mc.data ma.data mb matSize
  let mc ← rescale { mc with data := data }
  pure (mc, ma)

/-- What a goroutine does with its two matrices. -/
def goroutine (fixedData : List Int64) (sequence : FixedBytes 32) (ma mc : DenseMatrix) : Checked DenseMatrix := do
  let pair ← (List.range 2).foldlM (fun pair _ =>
    sequence.bytes.foldlM (fun pair b => turn fixedData b.toNat pair.1 pair.2) pair) (ma, mc)
  pure pair.1

/-! ## The tables, and the end -/

/-- `ui32data`: the words of the cache, the even and the odd half-blocks of each part apart. -/
def shuffled (cache : List UInt32) : List UInt32 :=
  let part := fun start => (cache.drop start).take 32
  (List.range 128).flatMap fun i =>
    let start := i * 1024 * 32
    (List.range 512).flatMap (fun j => part (start + j * 64)) ++
      (List.range 512).flatMap (fun j => part (start + j * 64 + 32))

/-- The loop that fills `ui32data`: a slice expression leaves a cache of less than 128 parts. -/
def shuffle (cache : List UInt32) : Go (List UInt32) :=
  if 128 * 1024 * 32 ≤ cache.length then .ok (shuffled cache) else .error .sliceBounds

def byteData (ui32data : List UInt32) : Bytes := ui32data.flatMap putUint32LE
def fixedData (bytes : Bytes) : List Int64 := bytes.map fun b => toFixed (.ofInt b.toInt8.toInt)

def dataIdentity : List Int64 :=
  (List.range matSize).foldl (fun data i => data.set (i * 257) fixedPointFactor)
    (List.replicate (matSize * matSize) 0)

/-- The sum of the four matrices. -/
def addUp (parts : List DenseMatrix) : Checked (List Int64) :=
  parts.foldlM (fun tmp m =>
    (List.range matSize).foldlM (fun tmp row =>
      (List.range matSize).foldlM (fun tmp col => do
        let sum ← Checked.add (tmp.getD (row * matSize + col) 0) (m.entryAt row col)
        pure (tmp.set (row * matSize + col) sum)) tmp) tmp)
    (List.replicate (matSize * matSize) 0)

/-- The bytes of the result. -/
def emit (tmp : List Int64) : Checked Bytes :=
  (List.range matSize).foldlM (fun result i =>
    (List.range matSize).foldlM (fun result j => do
      let v ← fromFixed (tmp.getD (i * matSize + j) 0)
      pure (result ++ [v.toUInt8])) result) []

/-- The four goroutines and what comes after them, given the matrices each begins with. -/
def mulMatrixWith (matrices : Nat → DenseMatrix × DenseMatrix) (keccak256 : Bytes → Hash)
    (hashBytes : Bytes) (cache : List UInt32) : Go (Checked Bytes) := do
  let ui32data ← shuffle cache
  let sequences ← (List.range 4).mapM fun i => do
    let part ← slice hashBytes (i * 8) ((i + 1) * 8)
    .ok (i, keccak256 part)
  .ok do
    let parts ← sequences.mapM fun s =>
      goroutine (fixedData (byteData ui32data)) s.2 (matrices s.1).1 (matrices s.1).2
    let tmp ← addUp parts
    emit tmp

def mulMatrixPooled : (Bytes → Hash) → Bytes → List UInt32 → Go (Checked Bytes) :=
  mulMatrixWith fun _ =>
    let localMatA := newDenseMatrix matSize matSize
    ({ localMatA with data := copyInto localMatA.data dataIdentity }, newDenseMatrix matSize matSize)

/-- `mulMatrix`, given the two matrices the pool hands to each goroutine. -/
def mulMatrix (pool : Nat → PooledMatrix × PooledMatrix) : (Bytes → Hash) → Bytes → List UInt32 → Go (Checked Bytes) :=
  mulMatrixWith fun i =>
    let ma := getMatrix (pool i).1 matSize matSize
    ({ ma with data := copyInto ma.data dataIdentity }, getMatrix (pool i).2 matSize matSize)

/-! ## From the matrix to the hash -/

def fnv (a b : UInt32) : UInt32 := a * 0x01000193 ^^^ b

/-- `mat32`: four bytes of a row, 64 apart, in a word. -/
def mat32 (result : Bytes) : List UInt32 :=
  (List.range matSize).flatMap fun i => (List.range (matSize / 4)).map fun j =>
    let mat8 := fun col => (result.getD (i * matSize + col) 0).toUInt32
    (mat8 (j + 192) <<< 24) ||| (mat8 (j + 128) <<< 16) ||| (mat8 (j + 64) <<< 8) ||| mat8 j

/-- One round of the reduction: the first `k / 2` rows take in the others. -/
def foldRows (mat : List UInt32) (k : Nat) : List UInt32 :=
  (List.range (k / 2)).foldl (fun mat j =>
    (List.range (matSize / 4)).foldl (fun mat i =>
      mat.set (j * (matSize / 4) + i) (fnv (mat.getD (j * (matSize / 4) + i) 0)
        (mat.getD ((j + k / 2) * (matSize / 4) + i) 0))) mat) mat

def hashMatrix (keccak256 : Bytes → Hash) (result : Bytes) : Hash :=
  let reduced := [256, 128, 64, 32, 16, 8, 4, 2].foldl foldRows (mat32 result)
  keccak256 (byteData (reduced.take (matSize / 4)))

end NogoCommons.Nogopow
