import NogoCommons.Ffldb.Transaction
import NogoCommons.Lib.Overlay
import NogoCommons.Treap.Iterator

/-!
# `database/ffldb/db.go` — cursors

A cursor scans a range of keys. It lays two iterators over each other: one over the snapshot the
transaction began with, which is itself the cached treap over leveldb, and one over the
transaction's treap of pending keys. The same code stands in `dbcache.go` and in `db.go`, with the
same two steps: skip what is updated above, then take the smaller key. It is `Lib.Overlay` twice.

The snapshot does not change, so its iterator delivers exactly the snapshot's entries in the range
(`DbCacheSnapshot.lists_first`). The treap of pending keys does change while a cursor is on it, and
its shape decides where the cursor goes; so the transaction here has the treap itself
(`TreapTx`). What it shows to a reader is what the transaction of `Ffldb.Transaction` shows.
-/

namespace NogoCommons.Ffldb
open Lib List SortedMap

/-! ## Ranges of keys -/

/-- `util.Range`. No limit is a nil one. -/
structure KeyRange where
  start : Bytes
  limit : Option Bytes

def KeyRange.contains (range : KeyRange) (key : Bytes) : Bool :=
  (Treap.Iterator.new (some range.start) range.limit).inRange key

/-- The limit of `util.BytesPrefix`: the last byte that can be incremented is, and what follows it
is cut off. -/
def prefixLimit : Bytes → Option Bytes
  | [] => none
  | c :: cs =>
    match prefixLimit cs with
    | some limit => some (c :: limit)
    | none => if c < 0xff then some [c + 1] else none

def bytesPrefix (p : Bytes) : KeyRange := ⟨p, prefixLimit p⟩

theorem cons_le_cons {c d : UInt8} {cs ds : Bytes} : (c :: cs : Bytes) ≤ d :: ds ↔ c < d ∨ c = d ∧ cs ≤ ds := by
  rw [← not_lt, cons_lt_cons_iff, ← not_lt (a := ds)]
  rcases lt_trichotomy c d with h | rfl | h
  · simp [h, h.not_gt, h.ne']
  · simp
  · simp [h, h.not_gt, h.ne']

theorem byte_le_max (d : UInt8) : d ≤ 0xff := by
  have := d.toNat_lt
  rw [UInt8.le_iff_toNat_le]
  simp only [UInt8.reduceToNat]
  omega

theorem byte_lt_succ {c d : UInt8} (h : c < 0xff) : d < c + 1 ↔ d ≤ c := by
  rw [UInt8.lt_iff_toNat_lt] at h ⊢
  rw [UInt8.le_iff_toNat_le, UInt8.toNat_add]
  simp only [UInt8.reduceToNat] at h ⊢
  omega

/-- The range of a prefix holds the keys with that prefix. -/
theorem prefix_iff_range : ∀ {p k}, p <+: k ↔ p ≤ k ∧ ∀ l ∈ prefixLimit p, k < l
  | [], k => by
    have : ([] : Bytes) ≤ k := not_lt.mp (not_lt_nil k)
    simp [prefixLimit, this]
  | c :: cs, [] => by
    have : ¬ (c :: cs : Bytes) ≤ [] := not_le.mpr (nil_lt_cons c cs)
    simp [this]
  | c :: cs, d :: ds => by
    rw [cons_prefix_cons, cons_le_cons, prefix_iff_range (p := cs) (k := ds), prefixLimit]
    cases hlim : prefixLimit cs with
    | some limit =>
      simp only [Option.mem_def, Option.some.injEq, forall_eq', cons_lt_cons_iff]
      constructor
      · rintro ⟨rfl, hle, hlt⟩
        exact ⟨.inr ⟨rfl, hle⟩, .inr ⟨rfl, hlt⟩⟩
      · rintro ⟨hcd | ⟨rfl, hle⟩, hdc | ⟨heq, hlt⟩⟩
        · exact absurd hdc hcd.not_gt
        · exact absurd heq hcd.ne'
        · exact absurd hdc (lt_irrefl _)
        · exact ⟨rfl, hle, hlt⟩
    | none =>
      by_cases hc : c < 0xff
      · simp only [hc, if_true, Option.mem_def, Option.some.injEq, forall_eq', reduceCtorEq,
          false_implies, implies_true, and_true, cons_lt_cons_iff, not_lt_nil, and_false,
          or_false, byte_lt_succ hc]
        constructor
        · rintro ⟨rfl, hle⟩
          exact ⟨.inr ⟨rfl, hle⟩, le_rfl⟩
        · rintro ⟨hcd | h, hdc⟩
          · exact absurd hdc hcd.not_ge
          · exact h
      · have hd : ¬ c < d := fun h => hc (h.trans_le (byte_le_max d))
        simp [hc, hd]

theorem contains_bytesPrefix {p k : Bytes} : (bytesPrefix p).contains k = true ↔ p <+: k := by
  rw [prefix_iff_range]
  exact Treap.Iterator.inRange_new

/-! ## The snapshot's iterator -/

abbrev DbCacheIterator := Overlay (ListCursor Bytes Bytes) (ListCursor Bytes Bytes)

namespace DbCacheSnapshot
variable (snap : DbCacheSnapshot)

/-- What `dbCacheIterator.skipPendingUpdates` skips. -/
def updated (key : Bytes) : Bool := snap.pending.remove.has key || snap.pending.keys.has key

def iter : Iter DbCacheIterator Bytes Bytes :=
  Overlay.iter ListCursor.iter ListCursor.iter snap.updated

/-- `NewIterator`, and `First` on it. -/
def first (range : KeyRange) : DbCacheIterator :=
  Overlay.choose ListCursor.iter ListCursor.iter snap.updated
    (ListCursor.first (snap.dbSnapshot.filter range.contains).entries)
    (ListCursor.first (snap.pending.keys.filter range.contains).entries)

variable {snap}

/-- The iterator delivers the snapshot's entries in the range. -/
theorem lists_first (h : snap.pending.Disjoint) (range : KeyRange) : ∃ L, snap.iter.Lists (snap.first range) L ∧
      ∀ k v, (k, v) ∈ L ↔ snap.get k = some v ∧ range.contains k = true := by
  obtain ⟨L, hL, -, hmem⟩ := Overlay.lists_choose snap.updated
    (ListCursor.lists_first (snap.dbSnapshot.filter range.contains).entries)
    (ListCursor.lists_first (snap.pending.keys.filter range.contains).entries)
  refine ⟨L, hL, fun k v => ?_⟩
  rw [hmem, ← get?_eq_some, ← get?_eq_some, get?_filter, get?_filter]
  have hkeys : snap.pending.keys.has k = (snap.pending.keys.get? k).isSome := rfl
  have hdis := h k
  unfold get updated
  cases hin : range.contains k with
  | false => simp
  | true =>
    cases hr : snap.pending.remove.has k with
    | true =>
      have : snap.pending.keys.has k = false := by
        cases hk : snap.pending.keys.has k with
        | false => rfl
        | true => simp [hdis hk] at hr
      simp [get?_eq_none_of_has this]
    | false => cases hk : snap.pending.keys.get? k <;> simp [hkeys, hk]

end DbCacheSnapshot

/-! ## A transaction with its treap -/

/-- A writable `transaction`'s metadata. The treap of removed keys is only asked whether it has a
key, so that it is a map here. -/
structure TreapTx where
  snapshot : DbCacheSnapshot
  pendingKeys : Treap.Mutable
  pendingRemove : SortedMap Bytes Unit
  cached : snapshot.pending.Disjoint
  disjoint : ∀ k, pendingKeys.has k = true → pendingRemove.has k = false

namespace TreapTx
variable (tx : TreapTx)

def hasKey (key : Bytes) : Bool :=
  if tx.pendingRemove.has key then false
  else if tx.pendingKeys.has key then true
  else tx.snapshot.has key

def fetchKey (key : Bytes) : Option Bytes :=
  if tx.pendingRemove.has key then none
  else (tx.pendingKeys.get key).or (tx.snapshot.get key)

/-- `putKey`, when `rand.Int` answers `priority`. -/
def putKey (key value : Bytes) (priority : Nat) : TreapTx where
  snapshot := tx.snapshot
  pendingKeys := tx.pendingKeys.put key value priority
  pendingRemove := tx.pendingRemove.erase key
  cached := tx.cached
  disjoint := by
    intro k hk
    rw [Treap.Mutable.has_eq, Treap.Mutable.toMap_put, SortedMap.has, get?_insert] at hk
    rw [SortedMap.has, get?_erase]
    split_ifs with heq
    · rfl
    · rw [if_neg heq, ← Treap.Mutable.get_eq] at hk
      exact tx.disjoint k hk

/-- `deleteKey`, apart from the iterators it may notify. -/
def deleteKey (key : Bytes) : TreapTx where
  snapshot := tx.snapshot
  pendingKeys := tx.pendingKeys.delete key
  pendingRemove := tx.pendingRemove.insert key ()
  cached := tx.cached
  disjoint := by
    intro k hk
    rw [Treap.Mutable.has_iff, Treap.Mutable.mem_keys_delete, ← Treap.Mutable.has_iff] at hk
    rw [SortedMap.has, get?_insert, if_neg hk.1]
    exact tx.disjoint k hk.2

/-- The same transaction with maps for treaps. -/
def transaction : Transaction :=
  ⟨tx.snapshot, ⟨tx.pendingKeys.toMap, tx.pendingRemove⟩, [], []⟩

variable {tx}

theorem fetchKey_eq (key : Bytes) : tx.fetchKey key = tx.transaction.fetchKey key := by
  rw [fetchKey, Treap.Mutable.get_eq]
  rfl

theorem hasKey_eq (key : Bytes) : tx.hasKey key = tx.transaction.hasKey key := by
  rw [hasKey, Treap.Mutable.has_eq]
  rfl

theorem transaction_putKey (key value : Bytes) (priority : Nat) :
    (tx.putKey key value priority).transaction = tx.transaction.putKey key value := by
  simp only [transaction, putKey, Treap.Mutable.toMap_put, Transaction.putKey]

theorem transaction_deleteKey (key : Bytes) : (tx.deleteKey key).transaction = tx.transaction.deleteKey key := by
  simp only [transaction, deleteKey, Treap.Mutable.toMap_delete, Transaction.deleteKey]

theorem hasKey_iff (key : Bytes) : tx.hasKey key = (tx.fetchKey key).isSome := by
  rw [hasKey_eq, fetchKey_eq, Transaction.hasKey_eq]

theorem fetchKey_putKey (key value : Bytes) (priority : Nat) (k : Bytes) :
    (tx.putKey key value priority).fetchKey k = if k = key then some value else tx.fetchKey k := by
  rw [fetchKey_eq, fetchKey_eq, transaction_putKey, Transaction.fetchKey_putKey]

theorem fetchKey_deleteKey (key k : Bytes) :
    (tx.deleteKey key).fetchKey k = if k = key then none else tx.fetchKey k := by
  rw [fetchKey_eq, fetchKey_eq, transaction_deleteKey, Transaction.fetchKey_deleteKey]

end TreapTx

/-! ## The cursor -/

/-- A `treap.Iterator` over this treap. The value of a node that has been deleted is never asked
for. -/
def treapIter (t : Treap.Mutable) : Iter Treap.Iterator Bytes Bytes where
  entry it := it.node.map fun key => (key, (t.get key).getD [])
  next := Treap.Iterator.next t.root
  size _ := t.root.entries.length

abbrev Cursor := Overlay DbCacheIterator Treap.Iterator

namespace TreapTx
variable (tx : TreapTx)

/-- What `cursor.skipPendingUpdates` skips. -/
def updated (key : Bytes) : Bool := tx.pendingRemove.has key || tx.pendingKeys.has key

/-- A cursor's position moved through this state of the transaction. -/
def cursor : Iter Cursor Bytes Bytes :=
  Overlay.iter tx.snapshot.iter (treapIter tx.pendingKeys) tx.updated

/-- `cursor.chooseIterator`. -/
def choose (dbIter : DbCacheIterator) (pendingIter : Treap.Iterator) : Cursor :=
  Overlay.choose tx.snapshot.iter (treapIter tx.pendingKeys) tx.updated dbIter pendingIter

/-- `newCursor` on a range, and `First` on it. -/
def first (range : KeyRange) : Cursor :=
  tx.choose (tx.snapshot.first range)
    ((Treap.Iterator.new (some range.start) range.limit).first tx.pendingKeys.root)

/-- What `chooseIterator` can do, with this much of the snapshot still to come. -/
theorem choose_cases {dbIter : DbCacheIterator} {L : List (Bytes × Bytes)}
    (hL : tx.snapshot.iter.Lists dbIter L) (it : Treap.Iterator) :
    ∃ L', tx.snapshot.iter.Lists (tx.choose dbIter it).base L' ∧ L' <:+ L ∧
      (∀ e, tx.updated e.1 = false → (e ∈ L' ↔ e ∈ L)) ∧
      Overlay.Chosen (treapIter tx.pendingKeys) tx.updated it (tx.choose dbIter it) L' :=
  Overlay.choose_cases (treapIter tx.pendingKeys) tx.updated it hL

variable {c : Cursor}

theorem cursor_exhausted (h : c.current = none) : tx.cursor.entry c = none := by
  show Overlay.entry _ _ c = none
  rw [Overlay.entry, h]

theorem cursor_base (h : c.current = some .base) : tx.cursor.entry c = tx.snapshot.iter.entry c.base ∧
      tx.cursor.next c = tx.choose (tx.snapshot.iter.next c.base) c.upper := by
  constructor
  · show Overlay.entry _ _ c = _
    rw [Overlay.entry, h]
  · show Overlay.next _ _ _ c = _
    rw [Overlay.next, h]
    rfl

theorem cursor_upper (h : c.current = some .upper) : tx.cursor.entry c = (treapIter tx.pendingKeys).entry c.upper ∧
      tx.cursor.next c = tx.choose c.base (c.upper.next tx.pendingKeys.root) := by
  constructor
  · show Overlay.entry _ _ c = _
    rw [Overlay.entry, h]
  · show Overlay.next _ _ _ c = _
    rw [Overlay.next, h]
    rfl

variable {tx} {key : Bytes}

theorem updated_of_pending (h : key ∈ tx.pendingKeys.root.keys) : tx.updated key = true := by
  rw [updated, Treap.Mutable.has_iff.mpr h, Bool.or_true]

theorem updated_deleteKey {k : Bytes} : (tx.deleteKey key).updated k = true ↔ k = key ∨ tx.updated k = true := by
  simp only [updated, deleteKey, Bool.or_eq_true, Treap.Mutable.has_iff,
    Treap.Mutable.mem_keys_delete, SortedMap.has, get?_insert]
  by_cases hk : k = key <;> simp [hk]

/-- A key that the transaction does not touch is the snapshot's. -/
theorem fetchKey_of_not_updated (h : tx.updated key = false) : tx.fetchKey key = tx.snapshot.get key := by
  rw [updated, Bool.or_eq_false_iff] at h
  have hget : tx.pendingKeys.get key = none := by
    have := h.2
    rw [Treap.Mutable.has_eq] at this
    rw [Treap.Mutable.get_eq, get?_eq_none_of_has this]
  rw [fetchKey, if_neg (by simp [h.1]), hget, Option.none_or]

/-- A pending key has its pending value. -/
theorem fetchKey_of_pending (h : key ∈ tx.pendingKeys.root.keys) :
    tx.fetchKey key = some ((tx.pendingKeys.get key).getD []) := by
  have hhas := Treap.Mutable.has_iff.mpr h
  obtain ⟨value, hget⟩ := Option.isSome_iff_exists.mp hhas
  have hget : tx.pendingKeys.get key = some value := hget
  rw [fetchKey, if_neg (by simp [tx.disjoint key hhas]), hget]
  rfl

end TreapTx
end NogoCommons.Ffldb
