import NogoCommons.Nogopow.SimpleLru
import NogoCommons.Nogopow.Types

/-!
# `nogopow/cache.go` — the seed cache

`GetData` answers with what `calcSeedCache` computes for the seed, from the `simpleLRU` where it
has it and by computing it where it does not. That the two are the same is an invariant of the
cache, and it is a field of `Cache` here: each stored item is the generated one for the key it
is stored under. The losses of `simpleLRU` (`Nogopow/SimpleLru.lean`) cost time and never

The hash functions are parameters: nothing in this part of the package looks inside them.
-/

namespace NogoCommons.Nogopow
open Lib

/-- The functions the engine is built over. -/
structure Primitives where
  /-- `sha3.NewLegacyKeccak256`. -/
  keccak256 : Bytes → Hash
  calcSeedCache : Bytes → List UInt32
  mulMatrixPooled : Bytes → List UInt32 → Bytes
  hashMatrix : Bytes → Hash

structure CacheItem where
  seed : FixedBytes 32
  data : List UInt32

variable {P : Primitives}

def generate (P : Primitives) (seed : FixedBytes 32) : CacheItem :=
  { seed := seed, data := P.calcSeedCache seed.bytes }

def maxCacheItems : Int := 64

/-- `Cache`: the keys are the seeds as strings, the items the generated ones for them. -/
structure Cache (P : Primitives) where
  lruCache : SimpleLRU Bytes CacheItem
  holds : lruCache.Holds fun key item => item = generate P (.copy 32 key)

namespace Cache

/-- `NewCache`. -/
def new (P : Primitives) : Cache P where
  lruCache := newSimpleLRU maxCacheItems true
  holds := SimpleLRU.holds_newSimpleLRU ..

/-- `GetData`, one caller at a time: look the seed up, and look again inside
`singleflight.Do` before generating. -/
def getData (c : Cache P) (seed : Bytes) : List UInt32 × Cache P :=
  let hit := c.lruCache.get seed
  have hholds := c.holds.get seed
  match hit.1 with
  | some item => (item.data, ⟨hit.2, hholds⟩)
  | none =>
    let again := hit.2.get seed
    have hholds := hholds.get seed
    match again.1 with
    | some item => (item.data, ⟨again.2, hholds⟩)
    | none =>
      let newItem := generate P (.copy 32 seed)
      (newItem.data, ⟨again.2.add seed newItem, hholds.add rfl⟩)

def remove (c : Cache P) (seed : Bytes) : Cache P where
  lruCache := (c.lruCache.remove seed).2
  holds := c.holds.remove seed

/-- **The cache is transparent**: whatever it has kept or lost, the answer is the computed one. -/
theorem getData_fst (c : Cache P) (seed : Bytes) :
    (c.getData seed).1 = P.calcSeedCache (FixedBytes.copy 32 seed).bytes := by
  unfold getData
  simp only
  split
  · rename_i item hitem
    rw [c.holds.get_answer hitem]
    rfl
  · split
    · rename_i item hitem
      rw [(c.holds.get seed).get_answer hitem]
      rfl
    · rfl

end Cache
end NogoCommons.Nogopow
