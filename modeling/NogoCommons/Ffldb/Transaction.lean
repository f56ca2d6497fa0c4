import NogoCommons.Ffldb.BlockIOLaws
import NogoCommons.Ffldb.DbCache

/-!
# `database/ffldb/db.go` — what a transaction sees

A transaction is a snapshot of the database with the transaction's own changes over it: keys to
add and to remove, blocks to store, block files to delete. Nothing of it reaches the database
before `Commit` (`Ffldb.Commit`).

The block index is a bucket like any other: the key of a block's row is the bucket's four-byte ID
followed by the block's hash.
-/

namespace NogoCommons.Ffldb
open Lib

abbrev Hash := FixedBytes 32

/-! ## Keys -/

def metadataBucketID : Bytes := [0, 0, 0, 0]
def blockIdxBucketID : Bytes := [0, 0, 0, 1]
def blockIdxBucketName : Bytes := ascii "ffldb-blockidx"
def writeLocKeyName : Bytes := ascii "ffldb-writeloc"
def bucketIndexPrefix : Bytes := ascii "bidx"
def curBucketIDKeyName : Bytes := ascii "bidx-cbid"
def bucketIndexKey (parentID key : Bytes) : Bytes := bucketIndexPrefix ++ parentID ++ key
def bucketizedKey (bucketID key : Bytes) : Bytes := bucketID ++ key

/-- The key of a block's row. -/
def blockIdxKey (hash : Hash) : Bytes := bucketizedKey blockIdxBucketID hash.bytes

/-- The key of the write cursor. -/
def writeLocKey : Bytes := bucketizedKey metadataBucketID writeLocKeyName

theorem blockIdxKey_injective {a b : Hash} (h : blockIdxKey a = blockIdxKey b) : a = b :=
  FixedBytes.ext (List.append_cancel_left h)

theorem blockIdxKey_ne_writeLocKey (hash : Hash) : blockIdxKey hash ≠ writeLocKey := by
  simp [blockIdxKey, writeLocKey, bucketizedKey, blockIdxBucketID, metadataBucketID]

/-! ## The database -/

/-- `db`: the block store and the cache before leveldb. -/
structure Db where
  store : BlockStore
  cache : DbCache

/-- `transaction`. A read-only one has no changes. -/
structure Transaction where
  snapshot : DbCacheSnapshot
  pending : Pending
  pendingBlockData : List (Hash × Bytes)
  pendingDelFileNums : List UInt32

/-- `begin`, between two commits. -/
def Db.begin (db : Db) : Transaction := ⟨db.cache.content, .empty, [], []⟩

namespace Transaction
variable (tx : Transaction)

def hasKey (key : Bytes) : Bool :=
  if tx.pending.remove.has key then false
  else if tx.pending.keys.has key then true
  else tx.snapshot.has key

def fetchKey (key : Bytes) : Option Bytes :=
  if tx.pending.remove.has key then none
  else (tx.pending.keys.get? key).or (tx.snapshot.get key)

def putKey (key value : Bytes) : Transaction :=
  { tx with pending := ⟨tx.pending.keys.insert key value, tx.pending.remove.erase key⟩ }

def deleteKey (key : Bytes) : Transaction :=
  { tx with pending := ⟨tx.pending.keys.erase key, tx.pending.remove.insert key ()⟩ }

/-- `pendingBlocks` and `pendingBlockData` together. -/
def pendingBlock (hash : Hash) : Option Bytes :=
  (tx.pendingBlockData.find? fun b => b.1 = hash).map Prod.snd

def hasBlock (hash : Hash) : Bool :=
  if (tx.pendingBlock hash).isSome then true else tx.hasKey (blockIdxKey hash)

/-- `StoreBlock`, for a block with these serialized bytes. -/
def storeBlock (hash : Hash) (bytes : Bytes) : DbResult Transaction :=
  if tx.hasBlock hash then .error (.err .blockExists)
  else .ok { tx with pendingBlockData := tx.pendingBlockData ++ [(hash, bytes)] }

def fetchBlockRow (hash : Hash) : DbResult Bytes :=
  match tx.fetchKey (blockIdxKey hash) with
  | none => .error (.err .blockNotFound)
  | some row => .ok row

def fetchBlock (cfg : StoreConfig) (store : BlockStore) (hash : Hash) : DbResult Bytes :=
  match tx.pendingBlock hash with
  | some bytes => .ok bytes
  | none => do
    let row ← tx.fetchBlockRow hash
    let location ← deserializeBlockLoc row
    store.readBlock cfg location

variable {tx}

theorem hasKey_eq (key : Bytes) : tx.hasKey key = (tx.fetchKey key).isSome := by
  unfold hasKey fetchKey
  cases tx.pending.remove.has key with
  | true => rfl
  | false =>
    rw [if_neg Bool.false_ne_true, if_neg Bool.false_ne_true, Option.isSome_or, DbCacheSnapshot.has_eq, SortedMap.has]
    cases (tx.pending.keys.get? key).isSome <;> rfl

theorem fetchKey_putKey (key value k : Bytes) :
    (tx.putKey key value).fetchKey k = if k = key then some value else tx.fetchKey k := by
  simp only [fetchKey, putKey, SortedMap.has, SortedMap.get?_erase, SortedMap.get?_insert]
  split_ifs <;> simp_all

theorem fetchKey_deleteKey (key k : Bytes) :
    (tx.deleteKey key).fetchKey k = if k = key then none else tx.fetchKey k := by
  simp only [fetchKey, deleteKey, SortedMap.has, SortedMap.get?_erase, SortedMap.get?_insert]
  split_ifs <;> simp_all

end Transaction

/-- A transaction that has just begun sees the database. -/
theorem Db.fetchKey_begin (db : Db) (key : Bytes) : db.begin.fetchKey key = db.cache.content.get key := rfl

/-- What `FetchBlock` does between two transactions. -/
theorem Db.fetchBlock_begin (cfg : StoreConfig) (db : Db) (hash : Hash) : db.begin.fetchBlock cfg db.store hash =
      match db.cache.content.get (blockIdxKey hash) with
      | none => .error (.err .blockNotFound)
      | some row => (deserializeBlockLoc row).bind (db.store.readBlock cfg) := by
  show (db.begin.fetchBlockRow hash).bind (fun row => (deserializeBlockLoc row).bind _) = _
  unfold Transaction.fetchBlockRow
  rw [Db.fetchKey_begin]
  cases db.cache.content.get (blockIdxKey hash) <;> rfl

theorem Db.fetchBlock_row {cfg : StoreConfig} {db : Db} {hash : Hash} {row : Bytes}
    {loc : BlockLocation} (hrow : db.cache.content.get (blockIdxKey hash) = some row)
    (hloc : deserializeBlockLoc row = .ok loc) :
    db.begin.fetchBlock cfg db.store hash = db.store.readBlock cfg loc := by
  rw [Db.fetchBlock_begin, hrow]
  simp only [hloc, Except.bind]

theorem Db.hasBlock_begin (db : Db) (hash : Hash) :
    db.begin.hasBlock hash = (db.cache.content.get (blockIdxKey hash)).isSome := by
  rw [← Db.fetchKey_begin, ← Transaction.hasKey_eq]
  rfl

/-! ## Stored blocks -/

/-- The database holds the block: the index has a row for it, and the record is where the row
says. -/
def Db.Stores (cfg : StoreConfig) (db : Db) (hash : Hash) (rawBlock : Bytes) : Prop :=
  ∃ loc, db.cache.content.get (blockIdxKey hash) = some (serializeBlockLoc loc) ∧
    BlockStore.Holds cfg db.store.files loc rawBlock

theorem Db.Stores.fetchBlock {cfg : StoreConfig} {db : Db} {hash : Hash} {rawBlock : Bytes}
    (h : db.Stores cfg hash rawBlock) : db.begin.fetchBlock cfg db.store hash = .ok rawBlock := by
  obtain ⟨loc, hrow, hold⟩ := h
  rw [Db.fetchBlock_row hrow (deserializeBlockLoc_serialize loc)]
  exact hold.readBlock

end NogoCommons.Ffldb
