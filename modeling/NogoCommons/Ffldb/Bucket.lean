import NogoCommons.Ffldb.Cursor
import NogoCommons.Lib.Worklist
import NogoCommons.Treap.IteratorLaws
import Mathlib.Data.Finset.Card

/-!
# `database/ffldb/db.go` — deleting a bucket

`DeleteBucket` deletes a bucket's keys and its entries in the bucket index, and goes on with the
buckets that those entries name. It finds both with cursors, deletes what a cursor stands on, and
does not tell the cursor (`deleteKey(key, false)`).

A key of the snapshot stays where it is in the snapshot, so the cursor goes on to the next. A
pending key is taken out of the treap that the cursor's iterator is in, and the iterator then climbs
its parents (`Treap.Iterator.visits_next`). `deleteRange_scanned` says what such a scan finds:
everything but the pending keys that are not on that way. If each range it scans has at most one
pending key, `DeleteBucket` does what it is for, whatever the shape of the treap
(`deleteBucket_complete`). With two of them a priority drawn at random decides whether the second
is found (`deleteBucket_leaves_key`).
-/

namespace NogoCommons.Ffldb
open Lib List
namespace TreapTx

/-! ## Deleting what a cursor stands on -/

/-- `for ok := cursor.First(); ok; ok = cursor.Next() { tx.deleteKey(cursor.rawKey(), false) }`,
from a position of the cursor on. It answers the entries it found too. -/
def deleteLoop : Nat → Cursor → TreapTx → Option (List (Bytes × Bytes) × TreapTx)
  | 0, _, _ => none
  | n + 1, c, tx =>
    match tx.cursor.entry c with
    | none => some ([], tx)
    | some e =>
      let tx := tx.deleteKey e.1
      (deleteLoop n (tx.cursor.next c) tx).map fun r => (e :: r.1, r.2)

variable (tx : TreapTx)

/-- The loop over a range. No scan is longer than the snapshot and the treap together. -/
def deleteRange (range : KeyRange) : Option (List (Bytes × Bytes) × TreapTx) :=
  deleteLoop (tx.snapshot.iter.size (tx.snapshot.first range) + tx.pendingKeys.root.entries.length + 1)
    (tx.first range) tx

def deleteAll (es : List (Bytes × Bytes)) : TreapTx := es.foldl (fun tx e => tx.deleteKey e.1) tx

variable {tx}

theorem fetchKey_deleteAll (k : Bytes) : ∀ es (tx : TreapTx),
    (tx.deleteAll es).fetchKey k = if k ∈ es.map Prod.fst then none else tx.fetchKey k
  | [], tx => by simp [deleteAll]
  | e :: es, tx => by
    show ((tx.deleteKey e.1).deleteAll es).fetchKey k = _
    rw [fetchKey_deleteAll k es, fetchKey_deleteKey, map_cons]
    by_cases hk : k = e.1
    · simp [hk]
    · simp only [mem_cons, hk, false_or, if_false]

variable {k key p childID id : Bytes} {it : Treap.Iterator} {L vis : List (Bytes × Bytes)} {found : List Bytes}
  {tx' : TreapTx}

theorem mem_pending_deleteAll : ∀ {es} (tx : TreapTx),
    k ∈ (tx.deleteAll es).pendingKeys.root.keys → k ∈ tx.pendingKeys.root.keys
  | [], _, h => h
  | e :: _, tx, h =>
    (Treap.Mutable.mem_keys_delete.mp (mem_pending_deleteAll (tx.deleteKey e.1) h)).2

/-- The pending iterator in the middle of the loop: what it has still to visit is still there. -/
structure Ready (tx : TreapTx) (it : Treap.Iterator) : Prop where
  unaware : it.Unaware
  nodup : it.visits.Nodup
  pending : ∀ k ∈ it.visits, k ∈ tx.pendingKeys.root.keys

/-- Deleting a key that the iterator will not visit. -/
theorem Ready.deleteKey (h : Ready tx it) (hkey : key ∉ it.visits) : Ready (tx.deleteKey key) it :=
  { h with
    pending := fun k hk => Treap.Mutable.mem_keys_delete.mpr
      ⟨fun heq => hkey (heq ▸ hk), h.pending k hk⟩ }

/-- Deleting the key the iterator stands on, and moving it on. -/
theorem Ready.next {node : Bytes} (h : Ready tx it) (hnode : it.node = some node) :
    Ready (tx.deleteKey node) (it.next (tx.deleteKey node).pendingKeys.root) ∧
      it.visits = node :: (it.next (tx.deleteKey node).pendingKeys.root).visits := by
  have hdel : node ∉ (tx.deleteKey node).pendingKeys.root.keys := fun hmem =>
    (Treap.Mutable.mem_keys_delete.mp hmem).1 rfl
  have hvisits := Treap.Iterator.visits_next h.unaware hnode hdel
  have hnodup := h.nodup
  rw [hvisits, nodup_cons] at hnodup
  refine ⟨⟨h.unaware.next hnode hdel, hnodup.2, fun k hk => ?_⟩, hvisits⟩
  refine Treap.Mutable.mem_keys_delete.mpr ⟨?_, h.pending k (hvisits ▸ mem_cons_of_mem _ hk)⟩
  rintro rfl
  exact hnodup.1 hk

/-- What the loop finds: the keys the pending iterator visits, and those of the snapshot that the
transaction has not touched. -/
structure Scanned (tx : TreapTx) (it : Treap.Iterator) (L vis : List (Bytes × Bytes)) : Prop where
  nodup : (vis.map Prod.fst).Nodup
  live : ∀ e ∈ vis, tx.fetchKey e.1 = some e.2
  mem : ∀ k, k ∈ vis.map Prod.fst ↔
    k ∈ it.visits ∨ (∃ v, (k, v) ∈ L) ∧ tx.updated k = false

/-- What is found after a deletion is not the deleted key, and was live before. -/
theorem Scanned.of_deleteKey (h : Scanned (tx.deleteKey key) it L vis) {value : Bytes} (hvisit : key ∉ it.visits)
    (hlive : tx.fetchKey key = some value) :
    (((key, value) :: vis).map Prod.fst).Nodup ∧
      ∀ e ∈ (key, value) :: vis, tx.fetchKey e.1 = some e.2 := by
  constructor
  · rw [map_cons, nodup_cons]
    refine ⟨fun hmem => ?_, h.nodup⟩
    rcases (h.mem key).mp hmem with hmem | ⟨-, hup⟩
    · exact hvisit hmem
    · rw [updated_deleteKey.mpr (.inl rfl)] at hup
      cases hup
  · intro e he
    rcases mem_cons.mp he with rfl | he
    · exact hlive
    · have := h.live e he
      rw [fetchKey_deleteKey] at this
      split_ifs at this
      exact this

/-- Standing on a key of the snapshot. -/
theorem Scanned.cons_snapshot {a : Bytes × Bytes} (h : Scanned (tx.deleteKey a.1) it L vis) (hvisit : a.1 ∉ it.visits)
    (hnew : tx.updated a.1 = false) (hlive : tx.fetchKey a.1 = some a.2) :
    Scanned tx it (a :: L) (a :: vis) where
  nodup := (h.of_deleteKey hvisit hlive).1
  live := (h.of_deleteKey hvisit hlive).2
  mem := by
    intro k
    rw [map_cons, mem_cons, h.mem]
    by_cases hk : k = a.1
    · have hmem : ∃ v, (k, v) ∈ a :: L := ⟨a.2, hk ▸ mem_cons_self⟩
      simp only [hk, true_or, true_iff]
      exact .inr ⟨hk ▸ hmem, hnew⟩
    · have hsame : (tx.deleteKey a.1).updated k = false ↔ tx.updated k = false := by
        rw [← Bool.not_eq_true, ← Bool.not_eq_true, updated_deleteKey, or_iff_right hk]
      have hne : ∀ v, (k, v) ≠ a := fun v heq => hk (heq ▸ rfl)
      simp only [hk, false_or, hsame, mem_cons, hne]

/-- Standing on a pending key. -/
theorem Scanned.cons_pending {it' : Treap.Iterator} {node value : Bytes} (h : Scanned (tx.deleteKey node) it' L vis)
    (hvisits : it.visits = node :: it'.visits) (hnodup : it.visits.Nodup) (hup : tx.updated node = true)
    (hlive : tx.fetchKey node = some value) : Scanned tx it L ((node, value) :: vis) := by
  have hvisit : node ∉ it'.visits := by
    rw [hvisits, nodup_cons] at hnodup
    exact hnodup.1
  refine ⟨(h.of_deleteKey hvisit hlive).1, (h.of_deleteKey hvisit hlive).2, fun k => ?_⟩
  have hsame : (tx.deleteKey node).updated k = false ↔ tx.updated k = false := by
    rw [← Bool.not_eq_true, ← Bool.not_eq_true, updated_deleteKey]
    by_cases hk : k = node
    · simp [hk, hup]
    · rw [or_iff_right hk]
  rw [map_cons, mem_cons, h.mem, hvisits, mem_cons, or_assoc, hsame]

theorem Scanned.congr {L' : List (Bytes × Bytes)} (h : Scanned tx it L' vis)
    (hmem : ∀ e, tx.updated e.1 = false → (e ∈ L' ↔ e ∈ L)) : Scanned tx it L vis :=
  { h with
    mem := fun k => (h.mem k).trans (or_congr_right (and_congr_left fun hup =>
      exists_congr fun v => hmem (k, v) hup)) }

/-- **The loop ends, and has then deleted what it found.** Each step takes an entry off the
snapshot's list or off what the pending iterator has to visit. -/
theorem deleteLoop_scanned : ∀ {n} {tx} {dbIter}
    {it : Treap.Iterator} {L : List (Bytes × Bytes)},
    Ready tx it → tx.snapshot.iter.Lists dbIter L → (∀ e ∈ L, tx.snapshot.get e.1 = some e.2) →
    L.length + it.visits.length < n →
    ∃ vis, deleteLoop n (tx.choose dbIter it) tx = some (vis, tx.deleteAll vis) ∧
      Scanned tx it L vis
  | 0, _, _, _, _, _, _, _, hn => absurd hn (Nat.not_lt_zero _)
  | n + 1, tx, dbIter, it, L, hready, hL, hsnap, hn => by
    obtain ⟨L', hL', hsuf, hmem, hcase⟩ := tx.choose_cases hL it
    have hlen := hsuf.length_le
    suffices ∃ vis, deleteLoop (n + 1) (tx.choose dbIter it) tx = some (vis, tx.deleteAll vis) ∧
        Scanned tx it L' vis by
      obtain ⟨vis, hrun, hscan⟩ := this
      exact ⟨vis, hrun, hscan.congr hmem⟩
    have hsnap' : ∀ e ∈ L', tx.snapshot.get e.1 = some e.2 := fun e he => hsnap e (hsuf.subset he)
    cases hcase with
    | exhausted hcur hbase hover =>
      have hnode : it.node = none := by simpa [treapIter] using hover
      refine ⟨[], ?_, nodup_nil, by simp, fun k => ?_⟩
      · rw [deleteLoop, tx.cursor_exhausted hcur]
        rfl
      · simp [hbase, Treap.Iterator.visits_none hnode]
    | base hcur a L'' hcons hnew =>
      subst hcons
      obtain ⟨hat, -, hrest⟩ := hL'
      have hnovisit : a.1 ∉ it.visits := fun hvisit => by
        rw [updated_of_pending (hready.pending _ hvisit)] at hnew
        cases hnew
      have hlive : tx.fetchKey a.1 = some a.2 :=
        (fetchKey_of_not_updated hnew).trans (hsnap' a mem_cons_self)
      rw [length_cons] at hlen
      obtain ⟨vis, hrun, hscan⟩ := deleteLoop_scanned (n := n) (hready.deleteKey hnovisit) hrest
        (fun e he => hsnap' e (mem_cons_of_mem _ he)) (by omega)
      refine ⟨a :: vis, ?_, hscan.cons_snapshot hnovisit hnew hlive⟩
      rw [deleteLoop, (tx.cursor_base hcur).1, hat]
      simp only [((tx.deleteKey a.1).cursor_base hcur).2]
      exact congrArg (Option.map _) hrun
    | upper hcur b hover =>
      obtain ⟨node, hnode, hb⟩ := Option.map_eq_some_iff.mp hover
      obtain ⟨hready', hvisits⟩ := hready.next hnode
      have hpending := hready.pending node (hvisits ▸ mem_cons_self)
      have hlive := fetchKey_of_pending hpending
      have hcount := congrArg length hvisits
      rw [length_cons] at hcount
      obtain ⟨vis, hrun, hscan⟩ := deleteLoop_scanned (n := n) hready' hL' hsnap' (by omega)
      refine ⟨_ :: vis, ?_, hscan.cons_pending hvisits hready.nodup (updated_of_pending hpending) hlive⟩
      rw [deleteLoop, (tx.cursor_upper hcur).1]
      show (match (treapIter tx.pendingKeys).entry it with | none => _ | some e => _) = _
      rw [hover, ← hb]
      simp only [((tx.deleteKey node).cursor_upper hcur).2]
      exact congrArg (Option.map _) hrun

theorem ready_first (tx : TreapTx) (range : KeyRange) :
    Ready tx ((Treap.Iterator.new (some range.start) range.limit).first tx.pendingKeys.root) := by
  obtain ⟨hnodup, hsub⟩ := Treap.Iterator.visits_first range.start range.limit tx.pendingKeys.ordered
  exact ⟨Treap.Iterator.unaware_first _ _ tx.pendingKeys.ordered, hnodup, hsub⟩

/-- The pending keys of a range that the loop comes to. -/
def onTheWay (tx : TreapTx) (range : KeyRange) : List Bytes :=
  ((Treap.Iterator.new (some range.start) range.limit).first tx.pendingKeys.root).visits

/-- **The scan of a range, whatever the shape of the treap.** It ends. What it finds is live and in
the range, and is found once; and a live key of the range is found unless it is pending and not
on the iterator's way. -/
theorem deleteRange_scanned (tx : TreapTx) (range : KeyRange) :
    ∃ vis, tx.deleteRange range = some (vis, tx.deleteAll vis) ∧ (vis.map Prod.fst).Nodup ∧
      ∀ k v, (k, v) ∈ vis ↔ tx.fetchKey k = some v ∧ range.contains k = true ∧
        (k ∈ tx.pendingKeys.root.keys → k ∈ tx.onTheWay range) := by
  obtain ⟨L, hL, hmemL⟩ := DbCacheSnapshot.lists_first tx.cached range
  have hready := ready_first tx range
  have hlen : (tx.onTheWay range).length ≤ tx.pendingKeys.root.entries.length := by
    rw [← length_map (f := Prod.fst)]
    exact (hready.nodup.subperm hready.pending).length_le
  obtain ⟨vis, hrun, hscan⟩ := deleteLoop_scanned (n := tx.snapshot.iter.size
      (tx.snapshot.first range) + tx.pendingKeys.root.entries.length + 1) hready hL
    (fun e he => ((hmemL e.1 e.2).mp he).1)
    (by have := hL.length_le; unfold onTheWay at hlen; omega)
  refine ⟨vis, hrun, hscan.nodup, fun k v => ⟨fun he => ⟨hscan.live _ he, ?_⟩, ?_⟩⟩
  · rcases (hscan.mem k).mp (mem_map_of_mem he) with hvisit | ⟨⟨w, hw⟩, hup⟩
    · have hin := Treap.Iterator.inRange_of_mem_visits hvisit
      rw [Treap.Iterator.inRange_first _ _ tx.pendingKeys.ordered] at hin
      exact ⟨hin, fun _ => hvisit⟩
    · refine ⟨((hmemL k w).mp hw).2, fun hk => ?_⟩
      rw [updated_of_pending hk] at hup
      cases hup
  · rintro ⟨hv, hin, hway⟩
    have hmem : k ∈ vis.map Prod.fst := by
      rw [hscan.mem]
      by_cases hk : k ∈ tx.pendingKeys.root.keys
      · exact .inl (hway hk)
      · have hremove : tx.pendingRemove.has k = false := by
          cases hr : tx.pendingRemove.has k with
          | false => rfl
          | true => simp [fetchKey, hr] at hv
        have hup : tx.updated k = false := by
          rwa [updated, hremove, Bool.false_or, ← Bool.not_eq_true, Treap.Mutable.has_iff]
        exact .inr ⟨⟨v, (hmemL k v).mpr ⟨fetchKey_of_not_updated hup ▸ hv, hin⟩⟩, hup⟩
    obtain ⟨e, he, rfl⟩ := mem_map.mp hmem
    rwa [Option.some.inj (hv.symm.trans (hscan.live e he))]

/-- At most one pending key has this prefix. -/
def AtMostOne (tx : TreapTx) (p : Bytes) : Prop :=
  ∀ a ∈ tx.pendingKeys.root.keys, ∀ b ∈ tx.pendingKeys.root.keys, p <+: a → p <+: b → a = b

/-- A prefix's only pending key is on the way. -/
theorem AtMostOne.onTheWay (h : tx.AtMostOne p) (hk : k ∈ tx.pendingKeys.root.keys) (hp : p <+: k) :
    k ∈ tx.onTheWay (bytesPrefix p) := by
  obtain ⟨first, rest, hcons⟩ := exists_cons_of_ne_nil
    (Treap.Iterator.visits_first_ne_nil tx.pendingKeys.ordered hk (contains_bytesPrefix.mpr hp))
  have hfirst : first ∈ tx.onTheWay (bytesPrefix p) := by
    rw [TreapTx.onTheWay, hcons]
    exact mem_cons_self
  have hin := Treap.Iterator.inRange_of_mem_visits hfirst
  rw [Treap.Iterator.inRange_first _ _ tx.pendingKeys.ordered] at hin
  have hpending := (ready_first tx (bytesPrefix p)).pending first hfirst
  exact h first hpending k hk (contains_bytesPrefix.mp hin) hp ▸ hfirst

/-- The scan of a prefix with at most one pending key finds everything. -/
theorem deleteRange_complete (hone : tx.AtMostOne p) :
    ∃ vis, tx.deleteRange (bytesPrefix p) = some (vis, tx.deleteAll vis) ∧
      ∀ k v, (k, v) ∈ vis ↔ tx.fetchKey k = some v ∧ p <+: k := by
  obtain ⟨vis, hrun, -, hvis⟩ := deleteRange_scanned tx (bytesPrefix p)
  refine ⟨vis, hrun, fun k v => ?_⟩
  rw [hvis, contains_bytesPrefix]
  exact and_congr_right fun _ => and_iff_left_of_imp fun hp hk => hone.onTheWay hk hp

/-! ## `DeleteBucket` -/

/-- The range of a bucket's entries in the bucket index. Four bytes are made for the ID, and it is
copied into them. -/
def bucketRange (bucketID : Bytes) : KeyRange :=
  bytesPrefix (bucketIndexPrefix ++ (bucketID ++ [0, 0, 0, 0]).take 4)

/-- One turn of the loop of `DeleteBucket`: the bucket's keys are deleted, then its entries in the
bucket index, whose values are pushed. -/
def deleteNested (tx : TreapTx) (childID : Bytes) : Option (List Bytes × TreapTx) := do
  let (_, tx) ← tx.deleteRange (bytesPrefix childID)
  let (nested, tx) ← tx.deleteRange (bucketRange childID)
  some ((nested.map Prod.snd).reverse, tx)

/-- Everything that may be live. -/
def rows (tx : TreapTx) : List (Bytes × Bytes) :=
  tx.snapshot.dbSnapshot.entries ++ tx.snapshot.pending.keys.entries ++ tx.pendingKeys.root.entries

def size (tx : TreapTx) : Nat := tx.rows.length

/-- `DeleteBucket`, of the bucket with this ID. -/
def deleteBucket (tx : TreapTx) (id key : Bytes) : Option (DbResult TreapTx) :=
  match tx.fetchKey (bucketIndexKey id key) with
  | none => some (.error (.err .bucketNotFound))
  | some childID =>
    (worklist deleteNested (tx.size + 1) [childID] tx).map fun tx =>
      .ok (tx.deleteKey (bucketIndexKey id key))

/-! ## The loop comes to an end -/

theorem mem_rows {v : Bytes} (h : tx.fetchKey k = some v) : (k, v) ∈ tx.rows := by
  unfold fetchKey at h
  split_ifs at h
  rcases Option.or_eq_some_iff.mp h with h | ⟨-, h⟩
  · exact mem_append_right _ ((SearchTree.find?_eq_some tx.pendingKeys.ordered).mp h)
  · unfold DbCacheSnapshot.get at h
    split_ifs at h
    refine mem_append_left _ ?_
    rcases Option.or_eq_some_iff.mp h with h | ⟨-, h⟩
    · exact mem_append_right _ (SortedMap.get?_eq_some.mp h)
    · exact mem_append_left _ (SortedMap.get?_eq_some.mp h)

def liveKeys (tx : TreapTx) : Finset Bytes :=
  (tx.rows.map Prod.fst).toFinset.filter fun k => (tx.fetchKey k).isSome

theorem mem_liveKeys : k ∈ tx.liveKeys ↔ (tx.fetchKey k).isSome := by
  rw [liveKeys, Finset.mem_filter, and_iff_right_iff_imp, mem_toFinset, mem_map]
  intro hlive
  obtain ⟨v, hv⟩ := Option.isSome_iff_exists.mp hlive
  exact ⟨(k, v), mem_rows hv, rfl⟩

theorem card_liveKeys_le (tx : TreapTx) : tx.liveKeys.card ≤ tx.size := by
  refine (Finset.card_filter_le ..).trans ((toFinset_card_le _).trans_eq ?_)
  rw [length_map, size]

/-- Deleting live keys leaves as many fewer. -/
theorem card_liveKeys_deleteAll (hnodup : (vis.map Prod.fst).Nodup) (hlive : ∀ e ∈ vis, tx.fetchKey e.1 = some e.2) :
    vis.length + (tx.deleteAll vis).liveKeys.card ≤ tx.liveKeys.card := by
  have hdisj : Disjoint (vis.map Prod.fst).toFinset (tx.deleteAll vis).liveKeys := by
    rw [Finset.disjoint_left]
    intro k hk hmem
    rw [mem_liveKeys, fetchKey_deleteAll, if_pos (mem_toFinset.mp hk)] at hmem
    cases hmem
  rw [← length_map (f := Prod.fst), ← toFinset_card_of_nodup hnodup, ← Finset.card_union_of_disjoint hdisj]
  refine Finset.card_le_card (Finset.union_subset (fun k hk => ?_) fun k hk => ?_)
  · obtain ⟨e, he, rfl⟩ := mem_map.mp (mem_toFinset.mp hk)
    rw [mem_liveKeys, hlive e he]
    rfl
  · rw [mem_liveKeys, fetchKey_deleteAll] at hk
    split_ifs at hk
    · cases hk
    · exact mem_liveKeys.mpr hk

/-- A turn of the loop pushes no more than it deletes. -/
theorem deleteNested_size (tx : TreapTx) (childID : Bytes) : ∃ found tx', tx.deleteNested childID = some (found, tx') ∧
      found.length + tx'.liveKeys.card ≤ tx.liveKeys.card := by
  obtain ⟨vis, hrun, hnodup, hlive⟩ := deleteRange_scanned tx (bytesPrefix childID)
  obtain ⟨vis', hrun', hnodup', hlive'⟩ :=
    deleteRange_scanned (tx.deleteAll vis) (bucketRange childID)
  refine ⟨(vis'.map Prod.snd).reverse, (tx.deleteAll vis).deleteAll vis', ?_, ?_⟩
  · rw [deleteNested, hrun]
    show (TreapTx.deleteRange ..).bind _ = _
    rw [hrun']
    rfl
  · have h := card_liveKeys_deleteAll hnodup fun e he => ((hlive e.1 e.2).mp he).1
    have h' := card_liveKeys_deleteAll hnodup' fun e he => ((hlive' e.1 e.2).mp he).1
    rw [length_reverse, length_map]
    omega

/-- The loop ends, and what every turn of it keeps holds at the end. -/
theorem exists_worklist_run {I : List Bytes → TreapTx → Prop}
    (hI : ∀ tx childID stack found tx', I (childID :: stack) tx →
      tx.deleteNested childID = some (found, tx') → I (found ++ stack) tx')
    (tx : TreapTx) (childID : Bytes) (hstart : I [childID] tx) :
    ∃ tx', worklist deleteNested (tx.size + 1) [childID] tx = some tx' ∧ I [] tx' := by
  refine worklist_returns (fun tx => tx.liveKeys.card) (fun tx childID stack h => ?_) ?_ hstart
  · obtain ⟨found, tx', hrun, hsize⟩ := deleteNested_size tx childID
    exact ⟨found, tx', hrun, hsize, hI tx childID stack found tx' h hrun⟩
  · have := card_liveKeys_le tx
    rw [length_singleton]
    omega

/-- **`DeleteBucket` returns**, whatever the treap, with an error only if there is no such
bucket. -/
theorem deleteBucket_returns (tx : TreapTx) (id key : Bytes) : (tx.fetchKey (bucketIndexKey id key) = none ∧
      tx.deleteBucket id key = some (.error (.err .bucketNotFound))) ∨
    ∃ childID tx', tx.fetchKey (bucketIndexKey id key) = some childID ∧
      tx.deleteBucket id key = some (.ok tx') := by
  cases hchild : tx.fetchKey (bucketIndexKey id key) with
  | none => exact .inl ⟨rfl, by simp only [deleteBucket, hchild]⟩
  | some childID =>
    obtain ⟨tx', hrun, -⟩ :=
      exists_worklist_run (I := fun _ _ => True) (fun _ _ _ _ _ _ _ => trivial) tx childID trivial
    exact .inr ⟨childID, tx'.deleteKey (bucketIndexKey id key), rfl,
      by simp only [deleteBucket, hchild, hrun, Option.map_some]⟩

theorem snapshot_deleteAll (es : List (Bytes × Bytes)) : ∀ tx : TreapTx, (tx.deleteAll es).snapshot = tx.snapshot := by
  induction es with
  | nil => exact fun tx => rfl
  | cons e es ih => exact fun tx => ih (tx.deleteKey e.1)

/-- What one turn of the loop does to the transaction: it deletes keys of two ranges that are live. -/
theorem deleteNested_cases (h : tx.deleteNested childID = some (found, tx')) :
    ∃ vis vis', tx' = (tx.deleteAll vis).deleteAll vis' ∧ found = (vis'.map Prod.snd).reverse ∧
      (∀ e ∈ vis, (bytesPrefix childID).contains e.1 = true) ∧
      ∀ e ∈ vis', (bucketRange childID).contains e.1 = true ∧ (tx.deleteAll vis).fetchKey e.1 = some e.2 := by
  obtain ⟨vis, hrun, -, hvis⟩ := deleteRange_scanned tx (bytesPrefix childID)
  obtain ⟨vis', hrun', -, hvis'⟩ := deleteRange_scanned (tx.deleteAll vis) (bucketRange childID)
  rw [deleteNested, hrun] at h
  change (TreapTx.deleteRange ..).bind _ = _ at h
  rw [hrun'] at h
  cases h
  refine ⟨vis, vis', rfl, rfl, fun e he => ((hvis e.1 e.2).mp he).2.1, fun e he => ?_⟩
  exact ⟨((hvis' e.1 e.2).mp he).2.1, ((hvis' e.1 e.2).mp he).1⟩

theorem snapshot_deleteBucket (h : tx.deleteBucket id key = some (.ok tx')) : tx'.snapshot = tx.snapshot := by
  rw [deleteBucket] at h
  cases hchild : tx.fetchKey (bucketIndexKey id key) with
  | none =>
    rw [hchild] at h
    cases h
  | some childID =>
    obtain ⟨tx₁, hrun, hsnap⟩ := exists_worklist_run (I := fun _ tx' => tx'.snapshot = tx.snapshot)
      (by
        intro tx₁ _ _ _ _ hI hturn
        obtain ⟨vis, vis', rfl, -⟩ := deleteNested_cases hturn
        rw [snapshot_deleteAll, snapshot_deleteAll, hI]) tx childID rfl
    simp only [hchild, hrun, Option.map_some, Option.some.injEq, Except.ok.injEq] at h
    rwa [← h]

/-! ## What is deleted -/

/-- The bucket with the first ID has the other one nested in it. -/
def Child (tx : TreapTx) (id nested : Bytes) : Prop :=
  ∃ name, tx.fetchKey (bucketIndexKey id name) = some nested

/-- A bucket is the one with the ID `childID`, or nested below it. -/
def Nested (tx : TreapTx) (childID id : Bytes) : Prop := Relation.ReflTransGen tx.Child childID id

/-- Keys of these buckets, and of their entries in the bucket index. -/
def Within (ids : Set Bytes) (k : Bytes) : Prop :=
  ∃ id ∈ ids, id <+: k ∨ bucketIndexPrefix ++ id <+: k

/-- The loop in the middle: from what is visited everything is gone, the rest is as it was. -/
structure Deleting (tx₀ : TreapTx) (childID : Bytes) (done : Set Bytes) (stack : List Bytes)
    (tx : TreapTx) : Prop where
  explored : Explored tx₀.Child childID done stack
  gone : ∀ k, Within done k → tx.fetchKey k = none
  kept : ∀ k, ¬ Within done k → tx.fetchKey k = tx₀.fetchKey k
  pending : ∀ k ∈ tx.pendingKeys.root.keys, k ∈ tx₀.pendingKeys.root.keys

theorem AtMostOne.of_subset {tx₀ : TreapTx} (h : tx₀.AtMostOne p)
    (hsub : ∀ k ∈ tx.pendingKeys.root.keys, k ∈ tx₀.pendingKeys.root.keys) : tx.AtMostOne p :=
  fun a ha b hb => h a (hsub a ha) b (hsub b hb)

theorem bucketRange_eq (h : id.length = 4) : bucketRange id = bytesPrefix (bucketIndexPrefix ++ id) := by
  rw [bucketRange, take_append_of_le_length h.ge, take_of_length_le h.le]

/-- One turn of the loop, on a bucket with at most one pending key and at most one pending entry in
the bucket index: everything of the bucket goes, nothing else does, and the nested buckets are
found. -/
theorem deleteNested_complete (hlen : id.length = 4) (hkeys : tx.AtMostOne id)
    (hindex : tx.AtMostOne (bucketIndexPrefix ++ id)) (hrun : tx.deleteNested id = some (found, tx')) :
    (∀ k, tx'.fetchKey k = if id <+: k ∨ bucketIndexPrefix ++ id <+: k then none else tx.fetchKey k) ∧
    (∀ k ∈ tx'.pendingKeys.root.keys, k ∈ tx.pendingKeys.root.keys) ∧
    ∀ m, m ∈ found ↔ ∃ k, tx.fetchKey k = some m ∧ ¬ id <+: k ∧ bucketIndexPrefix ++ id <+: k := by
  obtain ⟨vis, hrun₁, hvis⟩ := deleteRange_complete hkeys
  have hmono : ∀ k ∈ (tx.deleteAll vis).pendingKeys.root.keys, k ∈ tx.pendingKeys.root.keys :=
    fun k hk => mem_pending_deleteAll tx hk
  obtain ⟨vis', hrun₂, hvis'⟩ := deleteRange_complete (hindex.of_subset hmono)
  -- A scan that finds everything leaves nothing.
  have scanned : ∀ {tx : TreapTx} {vis} {p},
      (∀ k v, (k, v) ∈ vis ↔ tx.fetchKey k = some v ∧ p <+: k) →
      ∀ k, (tx.deleteAll vis).fetchKey k = if p <+: k then none else tx.fetchKey k := by
    intro tx vis p hvis k
    rw [fetchKey_deleteAll]
    have hmem : k ∈ vis.map Prod.fst ↔ (∃ v, tx.fetchKey k = some v) ∧ p <+: k := by
      simp [mem_map, Prod.exists, hvis]
    by_cases hp : p <+: k
    · rw [if_pos hp]
      cases hv : tx.fetchKey k with
      | none => rw [ite_self]
      | some v => rw [if_pos (hmem.mpr ⟨⟨v, hv⟩, hp⟩)]
    · rw [if_neg hp, if_neg fun h => hp (hmem.mp h).2]
  obtain ⟨hfound, htx⟩ : (vis'.map Prod.snd).reverse = found ∧
      (tx.deleteAll vis).deleteAll vis' = tx' := by
    rw [deleteNested, hrun₁] at hrun
    change (TreapTx.deleteRange ..).bind _ = _ at hrun
    rw [bucketRange_eq hlen, hrun₂] at hrun
    simpa using hrun
  subst hfound htx
  have hone := scanned hvis
  refine ⟨fun k => ?_, fun k hk => hmono k (mem_pending_deleteAll _ hk), fun m => ?_⟩
  · rw [scanned hvis', hone]
    by_cases hp : id <+: k <;> by_cases hq : bucketIndexPrefix ++ id <+: k <;> simp [hp, hq]
  · simp only [mem_reverse, mem_map, Prod.exists, exists_eq_right, hvis', hone]
    refine exists_congr fun k => ?_
    by_cases hp : id <+: k <;> simp [hp]

theorem within_insert {done : Set Bytes} :
    Within (insert id done) k ↔ (id <+: k ∨ bucketIndexPrefix ++ id <+: k) ∨ Within done k := by
  constructor
  · rintro ⟨n, rfl | hn, hk⟩
    · exact .inl hk
    · exact .inr ⟨n, hn, hk⟩
  · rintro (hk | ⟨n, hn, hk⟩)
    · exact ⟨id, .inl rfl, hk⟩
    · exact ⟨n, .inr hn, hk⟩

theorem eq_of_prefix_append {a b rest : Bytes} (hlen : a.length = b.length) (h : a <+: b ++ rest) : a = b := by
  obtain ⟨_, heq⟩ := h
  exact append_inj_left heq hlen

/-- The bucket IDs that are met: they are four bytes long, and none of them is the prefix of the
bucket index itself. -/
def WellNamed (tx : TreapTx) (childID : Bytes) : Prop :=
  ∀ id, tx.Nested childID id → id.length = 4 ∧ id ≠ bucketIndexPrefix

/-- No bucket that is deleted has more than one pending key, or more than one nested bucket whose
entry in the bucket index is pending. -/
def FewPending (tx : TreapTx) (childID : Bytes) : Prop :=
  ∀ id, tx.Nested childID id → tx.AtMostOne id ∧ tx.AtMostOne (bucketIndexPrefix ++ id)

theorem Deleting.turn {tx₀ : TreapTx} {done : Set Bytes} {stack : List Bytes} (hnames : tx₀.WellNamed childID)
    (hfew : tx₀.FewPending childID) (h : Deleting tx₀ childID done (id :: stack) tx)
    (hrun : tx.deleteNested id = some (found, tx')) : Deleting tx₀ childID (insert id done) (found ++ stack) tx' := by
  have hnested : tx₀.Nested childID id := h.explored.stackReached id mem_cons_self
  obtain ⟨hlen, hne⟩ := hnames id hnested
  obtain ⟨hview, hpending, hfound⟩ := deleteNested_complete hlen
    ((hfew id hnested).1.of_subset h.pending) ((hfew id hnested).2.of_subset h.pending) hrun
  have hbegins : bucketIndexPrefix.length = 4 := rfl
  refine ⟨h.explored.pop (fun m hm => ?_) fun hnew m hchild => ?_, fun k hk => ?_, fun k hk => ?_,
    fun k hk => h.pending k (hpending k hk)⟩
  · -- What is found was an entry of this bucket from the beginning.
    obtain ⟨k, hfetch, -, name, rfl⟩ := (hfound m).mp hm
    refine ⟨name, ?_⟩
    have hkeep : ¬ Within done (bucketIndexPrefix ++ id ++ name) := fun hin => by
      rw [h.gone _ hin] at hfetch
      cases hfetch
    rw [bucketIndexKey, ← h.kept _ hkeep, hfetch]
  · -- An entry of this bucket cannot have gone with another one's.
    obtain ⟨name, hfetch⟩ := hchild
    have hkeep : ¬ Within done (bucketIndexKey id name) := by
      rintro ⟨n, hn, hk | hk⟩
      · obtain ⟨hnlen, hnne⟩ := hnames n (h.explored.doneReached n hn)
        rw [bucketIndexKey, append_assoc] at hk
        exact hnne (eq_of_prefix_append (hnlen.trans hbegins.symm) hk)
      · obtain ⟨hnlen, -⟩ := hnames n (h.explored.doneReached n hn)
        rw [bucketIndexKey, append_assoc, prefix_append_right_inj] at hk
        exact hnew (eq_of_prefix_append (hnlen.trans hlen.symm) hk ▸ hn)
    refine (hfound m).mpr ⟨bucketIndexKey id name, (h.kept _ hkeep).trans hfetch, fun hk => ?_, prefix_append ..⟩
    rw [bucketIndexKey, append_assoc] at hk
    exact hne (eq_of_prefix_append (hlen.trans hbegins.symm) hk)
  · rw [hview]
    rcases within_insert.mp hk with hk | hk
    · rw [if_pos hk]
    · rw [h.gone k hk, ite_self]
  · rw [within_insert, not_or] at hk
    rw [hview, if_neg hk.1, h.kept k hk.2]

/-- **`DeleteBucket` deletes the bucket, everything in it and everything nested in it, and nothing
else**, if no bucket it deletes has more than one pending key or more than one pending entry in
the bucket index. -/
theorem deleteBucket_complete (tx : TreapTx) (id key childID : Bytes)
    (hchild : tx.fetchKey (bucketIndexKey id key) = some childID) (hnames : tx.WellNamed childID)
    (hfew : tx.FewPending childID) :
    ∃ tx', tx.deleteBucket id key = some (.ok tx') ∧
      (∀ k, (k = bucketIndexKey id key ∨ Within {n | tx.Nested childID n} k) →
        tx'.hasKey k = false ∧ tx'.fetchKey k = none) ∧
      ∀ k, ¬ (k = bucketIndexKey id key ∨ Within {n | tx.Nested childID n} k) →
        tx'.hasKey k = tx.hasKey k ∧ tx'.fetchKey k = tx.fetchKey k := by
  have hstart : Deleting tx childID ∅ [childID] tx := by
    refine ⟨.start .., ?_, fun k _ => rfl, fun k hk => hk⟩
    rintro k ⟨n, hn, -⟩
    exact hn.elim
  obtain ⟨tx', hrun, done, hdone⟩ := exists_worklist_run
    (I := fun stack tx' => ∃ done, Deleting tx childID done stack tx')
    (by
      rintro _ id _ _ _ ⟨done, h⟩ hrun
      exact ⟨insert id done, h.turn hnames hfew hrun⟩) tx childID ⟨∅, hstart⟩
  have hset : done = {n | tx.Nested childID n} := Set.ext fun n => hdone.explored.complete
  subst hset
  refine ⟨tx'.deleteKey (bucketIndexKey id key), ?_, fun k hk => ?_, fun k hk => ?_⟩
  · simp only [deleteBucket, hchild, hrun, Option.map_some]
  · have hnone : (tx'.deleteKey (bucketIndexKey id key)).fetchKey k = none := by
      rw [fetchKey_deleteKey]
      rcases hk with hk | hk
      · rw [if_pos hk]
      · rw [hdone.gone k hk, ite_self]
    rw [hasKey_iff, hnone]
    exact ⟨rfl, rfl⟩
  · rw [not_or] at hk
    have hsame : (tx'.deleteKey (bucketIndexKey id key)).fetchKey k = tx.fetchKey k := by
      rw [fetchKey_deleteKey, if_neg hk.1, hdone.kept k hk.2]
    rw [hasKey_iff, hasKey_iff, hsame]
    exact ⟨rfl, rfl⟩

/-! ## Runs -/

/-- A list with the bucket and closed under the entries of the bucket index has every nested
bucket. -/
theorem mem_of_nested {ids : List Bytes} (hroot : childID ∈ ids)
    (hclosed : ∀ id ∈ ids, ∀ e ∈ tx.rows, bucketIndexPrefix ++ id <+: e.1 → e.2 ∈ ids) (h : tx.Nested childID id) :
    id ∈ ids := by
  induction h with
  | refl => exact hroot
  | tail _ hchild ih =>
    obtain ⟨name, hname⟩ := hchild
    exact hclosed _ ih _ (mem_rows hname) (prefix_append ..)

/-- A transaction that has just begun, on a database with nothing in the cache. -/
def ofLdb (ldb : SortedMap Bytes Bytes) : TreapTx where
  snapshot := ⟨ldb, .empty⟩
  pendingKeys := .empty
  pendingRemove := .empty
  cached := Pending.disjoint_empty
  disjoint _ h := by cases h

/-- In the bucket of metadata a bucket `x` with a key and a bucket `y` with a key; and a key of
another bucket. -/
def nestedBuckets : SortedMap Bytes Bytes :=
  ((((SortedMap.empty.insert (bucketIndexKey metadataBucketID (ascii "x")) [0, 0, 0, 2]).insert
    (bucketIndexKey [0, 0, 0, 2] (ascii "y")) [0, 0, 0, 3]).insert
    (bucketizedKey [0, 0, 0, 2] (ascii "a")) [10]).insert
    (bucketizedKey [0, 0, 0, 3] (ascii "b")) [11]).insert
    (bucketizedKey [0, 0, 0, 7] (ascii "c")) [12]

/-- One more key put into each of the two buckets. -/
def onePending : TreapTx :=
  ((ofLdb nestedBuckets).putKey (bucketizedKey [0, 0, 0, 2] (ascii "d")) [13] 1).putKey
    (bucketizedKey [0, 0, 0, 3] (ascii "e")) [14] 2

theorem deleteBucket_complete_onePending : onePending.WellNamed [0, 0, 0, 2] ∧ onePending.FewPending [0, 0, 0, 2] ∧
    ∃ tx', onePending.deleteBucket metadataBucketID (ascii "x") = some (.ok tx') ∧
      tx'.fetchKey (bucketizedKey [0, 0, 0, 2] (ascii "d")) = none ∧
      tx'.fetchKey (bucketizedKey [0, 0, 0, 3] (ascii "e")) = none ∧
      tx'.fetchKey (bucketizedKey [0, 0, 0, 7] (ascii "c")) = some [12] := by
  have hids : ∀ {id}, onePending.Nested [0, 0, 0, 2] id → id ∈ [[0, 0, 0, 2], [0, 0, 0, 3]] :=
    mem_of_nested (by decide) (by decide)
  have hnames : onePending.WellNamed [0, 0, 0, 2] := fun id hid =>
    (by decide : ∀ id ∈ [[0, 0, 0, 2], [0, 0, 0, 3]], id.length = 4 ∧ id ≠ bucketIndexPrefix)
      id (hids hid)
  have hfew : onePending.FewPending [0, 0, 0, 2] := fun id hid => by
    rcases mem_pair.mp (hids hid) with rfl | rfl
    · constructor <;> unfold AtMostOne <;> decide
    · constructor <;> unfold AtMostOne <;> decide
  refine ⟨hnames, hfew, ?_⟩
  obtain ⟨tx', hrun, hgone, hkept⟩ := deleteBucket_complete onePending metadataBucketID (ascii "x")
    [0, 0, 0, 2] (by decide) hnames hfew
  have hy : onePending.Nested [0, 0, 0, 2] [0, 0, 0, 3] :=
    .single ⟨ascii "y", by decide⟩
  refine ⟨tx', hrun, (hgone _ (.inr ⟨_, .refl, .inl (prefix_append ..)⟩)).2,
    (hgone _ (.inr ⟨_, hy, .inl (prefix_append ..)⟩)).2, ?_⟩
  rw [(hkept _ ?_).2]
  · decide
  · rintro (h | ⟨id, hid, h⟩)
    · revert h
      decide
    · rcases mem_pair.mp (hids hid) with rfl | rfl
      · revert h
        decide
      · revert h
        decide

/-- An empty bucket `x`, and two keys put into it. The second one comes out as the right child of
the first. -/
def twoPending : TreapTx :=
  ((ofLdb (SortedMap.empty.insert (bucketIndexKey metadataBucketID (ascii "x")) [0, 0, 0, 2])).putKey
    (bucketizedKey [0, 0, 0, 2] (ascii "a")) [10] 1).putKey
    (bucketizedKey [0, 0, 0, 2] (ascii "b")) [11] 2

/-- **`DeleteBucket` leaves a key of the bucket it has deleted.** -/
theorem deleteBucket_leaves_key :
    twoPending.fetchKey (bucketIndexKey metadataBucketID (ascii "x")) = some [0, 0, 0, 2] ∧
    twoPending.WellNamed [0, 0, 0, 2] ∧
    ∃ tx', twoPending.deleteBucket metadataBucketID (ascii "x") = some (.ok tx') ∧
      tx'.fetchKey (bucketIndexKey metadataBucketID (ascii "x")) = none ∧
      tx'.fetchKey (bucketizedKey [0, 0, 0, 2] (ascii "a")) = none ∧
      tx'.hasKey (bucketizedKey [0, 0, 0, 2] (ascii "b")) = true ∧
      tx'.fetchKey (bucketizedKey [0, 0, 0, 2] (ascii "b")) = some [11] := by
  have hids : ∀ {id}, twoPending.Nested [0, 0, 0, 2] id → id ∈ [[0, 0, 0, 2]] :=
    mem_of_nested (by decide) (by decide)
  refine ⟨by decide, fun id hid => ?_, ?_⟩
  · rw [mem_singleton.mp (hids hid)]
    decide
  · have hview : ((twoPending.deleteBucket metadataBucketID (ascii "x")).bind Except.toOption).map
        (fun tx' => (tx'.fetchKey (bucketIndexKey metadataBucketID (ascii "x")),
          tx'.fetchKey (bucketizedKey [0, 0, 0, 2] (ascii "a")),
          tx'.hasKey (bucketizedKey [0, 0, 0, 2] (ascii "b")),
          tx'.fetchKey (bucketizedKey [0, 0, 0, 2] (ascii "b")))) =
        some (none, none, true, some [11]) := by decide +kernel
    rcases deleteBucket_returns twoPending metadataBucketID (ascii "x") with
      ⟨-, herr⟩ | ⟨-, tx', -, hrun⟩
    · rw [herr] at hview
      cases hview
    · rw [hrun] at hview
      refine ⟨tx', hrun, ?_⟩
      simpa [Except.toOption] using hview

end TreapTx
end NogoCommons.Ffldb
