import NogoCommons.Nogopow.Engine
import NogoCommons.Nogopow.MatrixLaws

/-!
# `nogopow/ai_hash.go` — the seed cache, and three ways to the same hash

`calcSeedCache` stretches a seed to 128 bytes and runs a memory-hard mixing function over them 128
times, keeping all the memory each run has filled. From the cache and a block's hash, three
functions compute the proof of work: the engine's `ComputePoW`, which has the cache from an LRU,
`ComputePoWHash`, which computes it, and `legacyAlgorithm`, which multiplies in matrices from a
pool. They agree (`proofOfWork_agree`): the LRU keeps what `calcSeedCache` computes
(`Nogopow/Cache.lean`), and the matrices of the pool are overwritten before they are read
(`Nogopow/MatrixLaws.lean`).
-/

namespace NogoCommons.Nogopow
open Lib List

/-! ## The mixing function -/

def rotl (a b : UInt32) : UInt32 := (a <<< b) ||| (a >>> (32 - b))

/-- The assignments `y[d] ^= rotl(y[a] + y[b], r)` of one turn of `salsa20_8`'s loop. -/
def salsaRound : List (Nat × Nat × Nat × UInt32) :=
  [(12, 8, 4, 7), (0, 12, 8, 9), (4, 0, 12, 13), (8, 4, 0, 18),
   (13, 9, 5, 7), (1, 13, 9, 9), (5, 1, 13, 13), (9, 5, 1, 18),
   (14, 10, 6, 7), (2, 14, 10, 9), (6, 2, 14, 13), (10, 6, 2, 18),
   (15, 11, 7, 7), (3, 15, 11, 9), (7, 3, 15, 13), (11, 7, 3, 18),
   (1, 0, 3, 7), (2, 1, 0, 9), (3, 2, 1, 13), (0, 3, 2, 18),
   (6, 5, 4, 7), (7, 6, 5, 9), (4, 7, 6, 13), (5, 4, 7, 18),
   (11, 10, 9, 7), (8, 11, 10, 9), (9, 8, 11, 13), (10, 9, 8, 18),
   (12, 15, 14, 7), (13, 12, 15, 9), (14, 13, 12, 13), (15, 14, 13, 18)]

def salsa20_8 (x : List UInt32) : List UInt32 :=
  let y := (range 4).foldl (fun y _ => salsaRound.foldl (fun y q =>
    y.set q.1 (y.getD q.1 0 ^^^ rotl (y.getD q.2.1 0 + y.getD q.2.2.1 0) q.2.2.2)) y) x
  x.zipWith (· + ·) y

/-- `blockMix`, with the block it has mixed last beside the result. -/
def blockMix (x : List UInt32) (r : Nat) : List UInt32 :=
  ((range (2 * r)).foldl (fun (state : List UInt32 × List UInt32) i =>
    let t := ((x.drop (i * 16)).take 16).zipWith (· ^^^ ·) state.1
    let y := salsa20_8 t
    (y, copySlice state.2 (i % 2 * r * 16 + i / 2 * 16) y))
    ((x.drop ((2 * r - 1) * 16)).take 16, replicate (2 * r * 16) 0)).2

/-- The first loop of `Smix`, for `n` turns: the memory is filled with the states of the block. -/
def smixFill (n : Nat) (x v : List UInt32) : List UInt32 × List UInt32 :=
  (range n).foldl (fun (state : List UInt32 × List UInt32) i =>
    (blockMix state.1 1, copySlice state.2 (i * 32) state.1)) (x, v)

/-- The second loop of `Smix`: the block is mixed with parts of the memory that it chooses. -/
def smixMix (n : Nat) (x v : List UInt32) : List UInt32 :=
  (range n).foldl (fun x _ =>
    let j := (x.getD 16 0 % 1024).toNat
    blockMix (x.zipWith (· ^^^ ·) ((v.drop (j * 32)).take 32)) 1) x

/-- `Smix`: the block and the memory it leaves. -/
def smix (b : Bytes) (v : List UInt32) : Bytes × List UInt32 :=
  let x := (range 32).map fun i => uint32LE ((b.drop (i * 4)).take 4)
  let filled := smixFill 1024 x v
  (copySlice b 0 (byteData (smixMix 1024 filled.1 filled.2)), filled.2)

/-! ## The Salsa20 core -/

/-- The assignments `y[d] ^= rotl(y[a] + y[b], r)`, one after the other. -/
def assign (y : List UInt32) (round : List (Nat × Nat × Nat × UInt32)) : List UInt32 :=
  round.foldl (fun y q => y.set q.1 (y.getD q.1 0 ^^^ rotl (y.getD q.2.1 0 + y.getD q.2.2.1 0) q.2.2.2)) y

/-- The core of the specification with these double rounds: four of them, and the input added. -/
def coreOf (doubleRound : List (Nat × Nat × Nat × UInt32)) (x : List UInt32) : List UInt32 :=
  x.zipWith (· + ·) ((range 4).foldl (fun y _ => assign y doubleRound) x)

/-- `quarterround` of the specification. -/
def quarterRound (a b c d : Nat) : List (Nat × Nat × Nat × UInt32) :=
  [(b, a, d, 7), (c, b, a, 9), (d, c, b, 13), (a, d, c, 18)]

/-- `columnround`: the quarter-round of a column starts on the diagonal. -/
def columnRound : List (Nat × Nat × Nat × UInt32) :=
  quarterRound 0 4 8 12 ++ quarterRound 5 9 13 1 ++ quarterRound 10 14 2 6 ++ quarterRound 15 3 7 11

def rowRound : List (Nat × Nat × Nat × UInt32) :=
  quarterRound 0 1 2 3 ++ quarterRound 5 6 7 4 ++ quarterRound 10 11 8 9 ++ quarterRound 15 12 13 14

/-- The columns of the source all start in the third row. -/
def skewedColumnRound : List (Nat × Nat × Nat × UInt32) :=
  quarterRound 8 12 0 4 ++ quarterRound 9 13 1 5 ++ quarterRound 10 14 2 6 ++ quarterRound 11 15 3 7

/-- A word and its negation, alternating in every row and every column. -/
def alternating (v : UInt32) : List UInt32 :=
  [v, -v, v, -v, -v, v, -v, v, v, -v, v, -v, -v, v, -v, v]

theorem assign_of_sum_zero {y : List UInt32} {round : List (Nat × Nat × Nat × UInt32)}
    (h : ∀ q ∈ round, y.getD q.2.1 0 + y.getD q.2.2.1 0 = 0) : assign y round = y := by
  induction round with
  | nil => rfl
  | cons q round ih =>
    have hrotl : rotl 0 q.2.2.2 = 0 := by simp [rotl]
    have hset : y.set q.1 (y.getD q.1 0) = y := by
      refine ext_getElem? fun i => ?_
      rw [getElem?_set]
      split_ifs <;> grind
    rw [assign, foldl_cons, h q mem_cons_self, hrotl, UInt32.xor_zero, hset]
    exact ih fun q hq => h q (mem_cons_of_mem _ hq)

theorem coreOf_alternating {doubleRound : List (Nat × Nat × Nat × UInt32)} {v : UInt32}
    (h : ∀ q ∈ doubleRound, (alternating v).getD q.2.1 0 + (alternating v).getD q.2.2.1 0 = 0) :
    coreOf doubleRound (alternating v) = (alternating v).zipWith (· + ·) (alternating v) := by
  rw [coreOf]
  simp only [range_succ, range_zero, foldl_append, foldl_cons, foldl_nil, nil_append, assign_of_sum_zero h]

/-- **The source computes the core with the columns started in the third row**, which is the one of the specification where
no sum is left to be rotated. -/
theorem salsa20_8_eq_coreOf (x : List UInt32) : salsa20_8 x = coreOf (skewedColumnRound ++ rowRound) x ∧
      ((∃ v, x = alternating v) → salsa20_8 x = coreOf (columnRound ++ rowRound) x) := by
  refine ⟨rfl, ?_⟩
  rintro ⟨v, rfl⟩
  have hskewed : ∀ q ∈ skewedColumnRound ++ rowRound, (alternating v).getD q.2.1 0 + (alternating v).getD q.2.2.1 0 = 0 := by
    simp [skewedColumnRound, rowRound, quarterRound, alternating, UInt32.add_right_neg, UInt32.add_left_neg]
  have hcore : ∀ q ∈ columnRound ++ rowRound, (alternating v).getD q.2.1 0 + (alternating v).getD q.2.2.1 0 = 0 := by
    simp [columnRound, rowRound, quarterRound, alternating, UInt32.add_right_neg, UInt32.add_left_neg]
  exact (coreOf_alternating hskewed).trans (coreOf_alternating hcore).symm

theorem salsa20_8_ne_core : salsa20_8 (1 :: replicate 15 0) ≠ coreOf (columnRound ++ rowRound) (1 :: replicate 15 0) := by
  decide

/-! ## The cache of a seed -/

def extendBytes (keccak256 : Bytes → Hash) (seed : Bytes) (round : Nat) : Go Bytes :=
  (range round).foldlM (fun extSeed i => do
    let part ← slice extSeed (i * 32) (i * 32 + 32)
    -- the slice that is copied to has to be there too
    let _ ← slice extSeed ((i + 1) * 32) ((i + 2) * 32)
    .ok (copySlice extSeed ((i + 1) * 32) (keccak256 part).bytes))
    (copySlice (replicate (seed.length * (round + 1)) 0) 0 seed)

/-- `isLittleEndian`, which asks `binary.BigEndian` and not the machine. -/
def isLittleEndian : Bool := (beBytes 4 0x01020304).getD 3 0 = 0x04

def swap (buffer : Bytes) : Bytes :=
  (range (buffer.length / 4)).foldl (fun buffer i =>
    copySlice buffer (i * 4) ((buffer.drop (i * 4)).take 4).reverse) buffer

/-- The loop of `calcSeedCache`, for `n` turns: the seed, the memory and the cache so far. -/
def seedLoop (n : Nat) (extSeed : Bytes) (v : List UInt32) : Bytes × List UInt32 × List UInt32 :=
  (range n).foldl (fun (state : Bytes × List UInt32 × List UInt32) _ =>
    let mixed := smix state.1 state.2.1
    (mixed.1, mixed.2, state.2.2 ++ mixed.2)) (extSeed, v, [])

def calcSeedCache (keccak256 : Bytes → Hash) (seed : Bytes) : Go (List UInt32) := do
  let extSeed ← extendBytes keccak256 seed 3
  let extSeed := if isLittleEndian then extSeed else swap extSeed
  .ok (seedLoop 128 extSeed (replicate (32 * 1024) 0)).2.2

theorem length_smixFill (n : Nat) (x v : List UInt32) : (smixFill n x v).2.length = v.length := by
  induction n with
  | zero => rfl
  | succ n ih =>
    rw [smixFill, range_succ, foldl_append]
    exact (length_copySlice ..).trans ih

/-- The memory of `Smix` is filled in place. -/
theorem length_smix (b : Bytes) (v : List UInt32) : (smix b v).2.length = v.length := by
  simp only [smix, length_smixFill]

theorem length_seedLoop (n : Nat) (extSeed : Bytes) (v : List UInt32) : (seedLoop n extSeed v).2.1.length = v.length ∧
      (seedLoop n extSeed v).2.2.length = n * v.length := by
  induction n with
  | zero => exact ⟨rfl, (Nat.zero_mul _).symm⟩
  | succ n ih =>
    simp only [seedLoop, range_succ, foldl_append, foldl_cons, foldl_nil] at ih ⊢
    simp only [length_append, length_smix, ih.1, ih.2, true_and]
    ring

theorem isLittleEndian_eq : isLittleEndian = true := by decide

/-- Three slices to hash and three to copy to: the seed of 32 bytes has them all. -/
theorem extendBytes_ok (keccak256 : Bytes → Hash) (seed : Hash) :
    ∃ extSeed, extendBytes keccak256 seed.bytes 3 = .ok extSeed := by
  -- What is kept from turn to turn is the length, 128.
  have hturn : ∀ i < 3, ∀ ext : Bytes, ext.length = 128 → ∃ ext' : Bytes, (do
      let part ← slice ext (i * 32) (i * 32 + 32)
      let _ ← slice ext ((i + 1) * 32) ((i + 2) * 32)
      (.ok (copySlice ext ((i + 1) * 32) (keccak256 part).bytes) : Go Bytes)) = .ok ext' ∧
      ext'.length = 128 := by
    intro i hi ext hext
    rw [slice_ok (by omega) (by omega), ok_bind, slice_ok (by omega) (by omega), ok_bind]
    exact ⟨_, rfl, (length_copySlice ..).trans hext⟩
  have hstart : (copySlice (replicate (seed.bytes.length * (3 + 1)) 0) 0 seed.bytes).length =
      128 := by
    rw [length_copySlice, length_replicate, seed.length_eq]
  obtain ⟨ext₁, h₁, hlen₁⟩ := hturn 0 (by omega) _ hstart
  obtain ⟨ext₂, h₂, hlen₂⟩ := hturn 1 (by omega) _ hlen₁
  obtain ⟨ext₃, h₃, -⟩ := hturn 2 (by omega) _ hlen₂
  refine ⟨ext₃, ?_⟩
  have hrange : range 3 = [0, 1, 2] := rfl
  rw [extendBytes, hrange, foldlM_cons, h₁, ok_bind, foldlM_cons, h₂, ok_bind, foldlM_cons, h₃, ok_bind, foldlM_nil]
  rfl

/-- A cache is as long as the matrix code needs it. -/
theorem calcSeedCache_ok (keccak256 : Bytes → Hash) (seed : Hash) :
    ∃ cache, calcSeedCache keccak256 seed.bytes = .ok cache ∧ cache.length = 128 * 1024 * 32 := by
  obtain ⟨extSeed, hext⟩ := extendBytes_ok keccak256 seed
  refine ⟨(seedLoop 128 extSeed (replicate (32 * 1024) 0)).2.2, ?_, ?_⟩
  · simp only [calcSeedCache, hext, ok_bind, isLittleEndian_eq, if_true]
  · rw [(length_seedLoop 128 extSeed _).2, length_replicate]

/-! ## Three ways to the proof of work -/

/-- The value of a run that has not panicked. -/
def orEmpty {α : Type} : Go (List α) → List α
  | .ok a => a
  | .error _ => []

/-- The functions of the package, over any hash function. -/
def nogoPrimitives (keccak256 : Bytes → Hash) : Primitives where
  keccak256 := keccak256
  calcSeedCache := fun seed => orEmpty (calcSeedCache keccak256 seed)
  mulMatrixPooled := fun hashBytes cache =>
    orEmpty ((mulMatrixPooled keccak256 hashBytes cache).map Checked.val)
  hashMatrix := hashMatrix keccak256

/-- `legacyAlgorithm`, given the matrices of the pool. -/
def legacyAlgorithm (keccak256 : Bytes → Hash) (pool : Nat → PooledMatrix × PooledMatrix)
    (headerHash seed : Hash) : Go Hash := do
  let cache ← calcSeedCache keccak256 seed.bytes
  let result ← mulMatrix pool keccak256 headerHash.bytes cache
  .ok (hashMatrix keccak256 result.val)

/-- A call on the engine's cache. -/
inductive CacheCall where
  | getData (seed : Bytes)
  | remove (seed : Bytes)

/-- The cache after some calls. -/
def Cache.after {P : Primitives} (c : Cache P) (calls : List CacheCall) : Cache P :=
  calls.foldl (fun c call => match call with
    | .getData seed => (c.getData seed).2
    | .remove seed => c.remove seed) c

/-- **One proof of work.** For every hash function, every content of the matrix pool and every
history of the engine's cache, none of the three computations panics or overflows, and all
return one hash. -/
theorem proofOfWork_agree (keccak256 : Bytes → Hash) (pool : Nat → PooledMatrix × PooledMatrix)
    (e : Engine (nogoPrimitives keccak256)) (calls : List CacheCall) (blockHash seed : Hash) :
    ∃ cache result,
      calcSeedCache keccak256 seed.bytes = .ok cache ∧
      mulMatrixPooled keccak256 blockHash.bytes cache = .ok (pure result) ∧
      legacyAlgorithm keccak256 pool blockHash seed = .ok (hashMatrix keccak256 result) ∧
      computePoWHash (nogoPrimitives keccak256) blockHash seed = hashMatrix keccak256 result ∧
      ({ e with cache := e.cache.after calls }.computePoW blockHash seed).1 =
        hashMatrix keccak256 result := by
  obtain ⟨cache, hcache, hlen⟩ := calcSeedCache_ok keccak256 seed
  have hpooled : mulMatrixPooled keccak256 blockHash.bytes cache = _ :=
    mulMatrixWith_eq (fun _ => fresh_newDenseMatrix) keccak256 blockHash cache
  have hpool : mulMatrix pool keccak256 blockHash.bytes cache = _ :=
    mulMatrixWith_eq (fun i => fresh_getMatrix (pool i).1 (pool i).2) keccak256 blockHash cache
  rw [if_pos hlen.ge] at hpooled hpool
  have hstandalone : computePoWHash (nogoPrimitives keccak256) blockHash seed =
      hashMatrix keccak256 (plainPipeline keccak256 blockHash.bytes cache) := by
    simp only [computePoWHash, nogoPrimitives, hcache, orEmpty, hpooled, Except.map, Checked.val_pure]
  refine ⟨cache, plainPipeline keccak256 blockHash.bytes cache, hcache, hpooled, ?_, hstandalone, ?_⟩
  · rw [legacyAlgorithm, hcache, ok_bind, hpool, ok_bind, Checked.val_pure]
  · rw [Engine.computePoW_fst, hstandalone]

end NogoCommons.Nogopow
