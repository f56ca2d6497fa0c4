import NogoCommons.Ffldb.BucketTree
import NogoCommons.Ffldb.CursorDelete

/-!
# `database/ffldb/db.go` — the calls of a bucket

A bucket is four bytes, its ID. What it holds is in the transaction, in one space of keys for all of them: an
entry under the ID and its key, a nested bucket under `bidx`, the ID and its name, and under `bidx-cbid` the
ID that was given last. `ForEach` and `ForEachBucket` go through a range of these keys with a new cursor.

What leveldb does is assumed (`LevelDb`): for every content and every range there are iterators that are
right cursors on the entries in the range.
-/

namespace NogoCommons.Ffldb
open Lib

/-- Iterators over what a leveldb snapshot holds. -/
structure LevelDb where
  Iterator : Type
  calls : SortedMap Bytes Bytes → KeyRange → TwoWay Iterator Bytes Bytes
  on : SortedMap Bytes Bytes → KeyRange → Iterator → Option Bytes → Prop
  new : SortedMap Bytes Bytes → KeyRange → Iterator
  right : ∀ ldb range,
    LevelIter (calls ldb range) (ldb.filter range.contains) range.start (on ldb range) (new ldb range)

namespace ScanTx
variable {ε : Type} (D : LevelDb) (t : ScanTx)

/-- The leveldb iterator of a new cursor. -/
def ldbCalls (range : KeyRange) : TwoWay D.Iterator Bytes Bytes := D.calls t.tx.snapshot.dbSnapshot range
def putKey (key value : Bytes) (priority : Nat) : ScanTx := { t with tx := t.tx.putKey key value priority }

/-! ## Nested buckets -/

/-- `Bucket`: the ID of the nested bucket. -/
def bucket (id key : Bytes) : Option Bytes :=
  (t.tx.fetchKey (bucketIndexKey id key)).map fun childID => (childID ++ [0, 0, 0, 0]).take 4

/-- `nextBucketID`. Fewer than four bytes cannot be read as a number. -/
def nextBucketID (priority : Nat) : DbResult (Bytes × ScanTx) :=
  match t.tx.fetchKey curBucketIDKeyName with
  | none => .error (.panic .sliceBounds)
  | some curIDBytes =>
    if curIDBytes.length < 4 then .error (.panic .sliceBounds)
    else
      let nextBucketID := beBytes 4 (beNat (curIDBytes.take 4) + 1)
      .ok (nextBucketID, t.putKey curBucketIDKeyName nextBucketID priority)

def createBucket (id key : Bytes) (priority priority' : Nat) : DbResult (Bytes × ScanTx) :=
  if key.length = 0 then .error (.err .bucketNameRequired)
  else if t.tx.hasKey (bucketIndexKey id key) then .error (.err .bucketExists)
  else do
    let (childID, t) ←
      if id = metadataBucketID ∧ key = blockIdxBucketName then .ok (blockIdxBucketID, t)
      else t.nextBucketID priority
    return (childID, t.putKey (bucketIndexKey id key) childID priority')

def createBucketIfNotExists (id key : Bytes) (priority priority' : Nat) : DbResult (Bytes × ScanTx) :=
  match t.bucket id key with
  | some childID => .ok (childID, t)
  | none => t.createBucket id key priority priority'

def deleteBucket (id key : Bytes) : Option (DbResult ScanTx) :=
  match h : t.tx.deleteBucket id key with
  | none => none
  | some (.error e) => some (.error e)
  | some (.ok tx) => some (.ok { t with tx, shows := by rw [TreapTx.snapshot_deleteBucket h]; exact t.shows })

/-! ## Entries -/

def put (id key value : Bytes) (priority : Nat) : DbResult ScanTx :=
  if key.length = 0 then .error (.err .keyRequired)
  else .ok (t.putKey (bucketizedKey id key) value priority)

def get (id key : Bytes) : Option Bytes :=
  if key.length = 0 then none else t.tx.fetchKey (bucketizedKey id key)

/-- `Delete`, of a bucket. -/
def deleteEntry (id key : Bytes) : ScanTx :=
  if key.length = 0 then t else t.deleteKey (bucketizedKey id key)

/-! ## Going through a bucket -/

/-- `for ok := c.First(); ok; ok = c.Next()` with a call of `fn` on `c.Key()` and `c.Value()`, until it returns
an error. It answers what `fn` was called with too. -/
def callLoop (L : TwoWay D.Iterator Bytes Bytes) (fn : Option Bytes × Option Bytes → Option ε) :
    Nat → ScanCursor D.Iterator → Option (List (Option Bytes × Option Bytes) × Option ε)
  | 0, _ => none
  | n + 1, c =>
    match c.current with
    | none => some ([], none)
    | some _ => do
      let s ← shown true ((t.cursor L).entry c)
      match fn (s.key, s.value) with
      | some err => return ([(s.key, s.value)], some err)
      | none =>
        let (calls, err) ← callLoop L fn n ((t.cursor L).step true c)
        return ((s.key, s.value) :: calls, err)

/-- The loop over a range, with a new cursor. -/
def callRange (range : KeyRange) (fn : Option Bytes × Option Bytes → Option ε) :
    Option (List (Option Bytes × Option Bytes) × Option ε) :=
  let L := t.ldbCalls D range
  let c := (t.cursor L).start true (newCursor range (D.new t.tx.snapshot.dbSnapshot range))
  t.callLoop D L fn ((t.cursor L).size c + 1) c

def forEach (id : Bytes) (fn : Option Bytes × Option Bytes → Option ε) :
    Option (List (Option Bytes × Option Bytes) × Option ε) :=
  t.callRange D (bytesPrefix id) fn

/-- `ForEachBucket`, whose callback is called with the key alone. -/
def forEachBucket (id : Bytes) (fn : Option Bytes → Option ε) : Option (List (Option Bytes) × Option ε) :=
  (t.callRange D (TreapTx.bucketRange id) fun kv => fn kv.1).map fun r => (r.1.map Prod.fst, r.2)

end ScanTx

/-! ## Calls on handles -/

/-- A writable transaction, with the IDs of the buckets that have been opened. -/
structure BucketTx where
  tx : ScanTx
  handles : List Bytes

namespace BucketTx
variable {ε : Type} (D : LevelDb) (w : BucketTx)

/-- A nested bucket is returned, or an error. -/
def opened : DbResult (Bytes × ScanTx) → BucketAnswer ε × BucketTx
  | .ok (childID, tx) => (.opened w.handles.length, ⟨tx, w.handles ++ [childID]⟩)
  | .error e => (.failed e, w)

/-- Nothing is returned, or an error. -/
def changed : DbResult ScanTx → BucketAnswer ε × BucketTx
  | .ok tx => (.done, { w with tx })
  | .error e => (.failed e, w)

/-- A call on the bucket with an ID. -/
def call (id : Bytes) : BucketCall ε → Option (BucketAnswer ε × BucketTx)
  | .bucket key =>
    match w.tx.bucket id key with
    | some childID => some (w.opened (.ok (childID, w.tx)))
    | none => some (.noBucket, w)
  | .createBucket key priority priority' => some (w.opened (w.tx.createBucket id key priority priority'))
  | .createBucketIfNotExists key priority priority' =>
    some (w.opened (w.tx.createBucketIfNotExists id key priority priority'))
  | .deleteBucket key => (w.tx.deleteBucket id key).map w.changed
  | .put key value priority => some (w.changed (w.tx.put id key value priority))
  | .get key => some (.value (w.tx.get id key), w)
  | .delete key => some (w.changed (.ok (w.tx.deleteEntry id key)))
  | .forEach fn => (w.tx.forEach D id fn).map fun r => (.called r.1 r.2, w)
  | .forEachBucket fn => (w.tx.forEachBucket D id fn).map fun r => (.calledNames r.1 r.2, w)

def step (w : BucketTx) (op : BucketOp ε) : Option (BucketAnswer ε × BucketTx) :=
  (w.handles[op.handle]?).bind fun id => w.call D id op.call

end BucketTx
end NogoCommons.Ffldb
