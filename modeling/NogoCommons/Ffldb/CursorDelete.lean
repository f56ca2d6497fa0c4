import NogoCommons.Ffldb.CursorMoves

/-!
# `database/ffldb/db.go` — deleting what a cursor stands on

`cursor.Delete` deletes the key under the cursor and tells the iterators over the pending keys, the cursor's
own among them. The entry is then gone, but the cursor still stands on its key: on a key of the snapshot that
has become one to skip, or on a node that is no longer in the treap. What the cursor needs for the next step
is the key alone. The snapshot's iterator has not changed, and the iterator over the pending keys will seek
its key in the treap as it is by then (`Rides`).

So a step after a `Delete` is one more case of a step from a key at which what is on top has changed
(`TwoWay.on_step_changed`), and a scan that deletes what it likes goes through the entries that were there
when it began (`scan_complete`).
-/

namespace NogoCommons.Ffldb
open Lib List SortedMap
open Treap.Iterator (Session inside)

/-- Where an iterator over pending keys stands, in its range and with no key to seek but its own. The treap
need not have the key any more. -/
structure Rides (t : Treap.Mutable) (range : KeyRange) (it : Treap.Iterator) (k? : Option Bytes) : Prop where
  start : it.startKey = some range.start
  limit : it.limitKey = range.limit
  node : it.node = k?
  tracks : Session.Tracks ⟨t, it⟩
  settled : Session.Settled ⟨t, it⟩

section Rides
variable {t : Treap.Mutable} {range : KeyRange} {it : Treap.Iterator} {k? : Option Bytes}

theorem Still.rides (h : Still t.root range it k?) : Rides t range it k? := by
  obtain ⟨pos, hpos, rfl⟩ := h
  refine ⟨hpos.start, hpos.limit, hpos.node, ⟨fun hnode => ?_, fun k hk _ => hpos.stands k hk⟩, fun k hk => ?_⟩
  · rw [hpos.node] at hnode
    rw [Bool.eq_false_iff]
    intro hnew
    rw [hpos.isNew.mp hnew] at hnode
    exact hnode rfl
  · refine ⟨?_, fun key hkey => ?_⟩
    · rw [hpos.inRange_eq]
      exact hpos.inRange k hk
    · rw [hpos.seekKey] at hkey
      cases hkey

/-- `ForceReseek`, after any change of the treap. -/
theorem Rides.forceReseek (h : Rides t range it k?) (t' : Treap.Mutable) : Rides t' range it.forceReseek k? := by
  refine ⟨h.start, h.limit, h.node, ⟨h.tracks.isNew, fun k hk hseek => ?_⟩, fun k hk => ?_⟩
  · exact absurd (hk.symm.trans hseek) (by simp)
  · exact ⟨(h.settled k hk).1, fun key hkey => Option.some.inj (hkey.symm.trans hk)⟩

theorem Rides.advance {k : Bytes} (h : Rides t range it (some k)) (d : Bool) : Rides t range (it.advance d t.root)
      ((treapIn t.root t.ordered range).nearestKey? d fun x => decide (Ahead d k x)) := by
  have hnew := h.tracks.isNew (by simp [h.node])
  have hgoes := h.tracks.goes d h.settled h.node
  have hto : Session.neighbour ⟨t, it⟩ d k =
      (treapIn t.root t.ordered range).nearestKey? d fun x => decide (Ahead d k x) := by
    rw [Session.neighbour, Session.entries, h.start, h.limit]
    rfl
  rw [hto] at hgoes
  have htracks := Session.tracks_goes { it with seekKey := none } hnew hgoes
  obtain ⟨parents, heq, -⟩ := hgoes
  rw [heq] at htracks ⊢
  refine ⟨h.start, h.limit, rfl, htracks, fun x hx => ⟨?_, fun key hkey => absurd hkey (by simp)⟩⟩
  obtain ⟨⟨v, hv⟩, -⟩ := nearestKey?_eq_some.mp hx
  have hin : range.contains x = true := (mem_filter.mp hv).2
  rw [KeyRange.contains, Treap.Iterator.inRange_iff] at hin
  rw [Treap.Iterator.inRange_iff]
  simp only [h.start, h.limit]
  exact hin

theorem rides_walks (t : Treap.Mutable) (range : KeyRange) :
    (treapTwoWay t.root).Walks (treapIn t.root t.ordered range) fun _ => Rides t range where
  key := by
    intro d s k? h
    exact treap_key h.node
  value := by
    intro d s e h he
    exact treap_value t.ordered h.node he
  step := by
    intro d s k h
    exact h.advance d
  size := by
    intro d s k? _
    exact length_filter_le ..

end Rides

namespace ScanTx

/-! ## A scan that deletes -/

def deleteKey (t : ScanTx) (key : Bytes) : ScanTx := { t with tx := t.tx.deleteKey key }

/-- The errors of `cursor.Delete`, both with the code `ErrIncompatibleValue`. -/
inductive DeleteError where
  /-- "cursor is exhausted" -/
  | cursorExhausted
  /-- "buckets may not be deleted from a cursor" -/
  | bucketEntry

variable {σ : Type}

/-- `cursor.Delete`. The iterator over the pending keys is among those that are notified. -/
def delete (t : ScanTx) (L : TwoWay σ Bytes Bytes) (c : ScanCursor σ) : Except DeleteError (ScanTx × ScanCursor σ) :=
  match (t.cursor L).entry c with
  | none => .error .cursorExhausted
  | some e =>
    if bucketIndexPrefix.isPrefixOf e.1 then .error .bucketEntry
    else .ok (t.deleteKey e.1, { c with upper := c.upper.forceReseek })

/-- A position of a scan: the entry there, and whether a `Delete` has succeeded. -/
structure Visit where
  entry : Bytes × Bytes
  deleted : Bool

/-- `Delete` where it is called for, or nothing. -/
def deleteIf (t : ScanTx) (L : TwoWay σ Bytes Bytes) (c : ScanCursor σ) (mark : Bool) : Bool × ScanTx × ScanCursor σ :=
  if mark then
    match t.delete L c with
    | .ok (t, c) => (true, t, c)
    | .error _ => (false, t, c)
  else (false, t, c)

/-- The rest of a scan, from its `i`th position on. -/
def scanFrom (L : TwoWay σ Bytes Bytes) (marks : Nat → Bool) :
    Nat → Nat → ScanTx → ScanCursor σ → Option (List Visit × ScanTx)
  | 0, _, _, _ => none
  | n + 1, i, t, c =>
    match c.current with
    | none => some ([], t)
    | some _ => do
      let e ← (t.cursor L).entry c
      let (deleted, t, c) := t.deleteIf L c (marks i)
      let (visits, t) ← scanFrom L marks n (i + 1) t ((t.cursor L).step true c)
      return (⟨e, deleted⟩ :: visits, t)

/-- `for ok := c.First(); ok; ok = c.Next()` with a new cursor for the keys of a bucket, and with a `Delete`
at the positions that are marked. -/
def scan (t : ScanTx) (L : TwoWay σ Bytes Bytes) (id : Bytes) (s₀ : σ) (marks : Nat → Bool) :
    Option (List Visit × ScanTx) :=
  let c := (t.cursor L).start true (newCursor (bytesPrefix id) s₀)
  scanFrom L marks ((t.cursor L).size c + 1) 0 t c

def deletedKeys (visits : List Visit) : List Bytes := (visits.filter Visit.deleted).map fun visit => visit.entry.1

/-! ## Where the cursor stands -/

variable {t : ScanTx} {range : KeyRange} {L : TwoWay σ Bytes Bytes} {on : σ → Option Bytes → Prop}

/-- Where the cursor stands, if what it stands on may have been deleted. -/
def RidesOn (t : ScanTx) (range : KeyRange) (on : σ → Option Bytes → Prop) :
    Bool → ScanCursor σ → Option Bytes → Prop :=
  TwoWay.On (t.snapshotIn range) (t.pendingIn range) t.tx.updated (t.CacheOn range on)
    fun _ => Rides t.tx.pendingKeys range

/-- The live entries are what the transaction shows. -/
theorem mem_liveIn_iff {k v : Bytes} :
    (k, v) ∈ (t.liveIn range).entries ↔ range.contains k = true ∧ t.tx.fetchKey k = some v := by
  rw [liveIn, mem_filter, ← get?_eq_some, get?_commitTreaps, DbCacheSnapshot.get, get?_commitTreaps,
    TreapTx.fetchKey, Treap.Mutable.get_eq, and_comm]

variable {e : Bytes × Bytes}

/-- Apart from the key that is deleted, the pending keys stay. -/
theorem mem_pendingIn_deleteKey {key : Bytes} (he : e.1 ≠ key) :
    e ∈ ((t.deleteKey key).pendingIn range).entries ↔ e ∈ (t.pendingIn range).entries := by
  have hmap : e ∈ (t.tx.pendingKeys.delete key).toMap.entries ↔ e ∈ t.tx.pendingKeys.toMap.entries := by
    obtain ⟨k, v⟩ := e
    rw [Treap.Mutable.toMap_delete, ← get?_eq_some, ← get?_eq_some, get?_erase, if_neg he]
  exact mem_filter.trans ((and_congr_left fun _ => hmap).trans mem_filter.symm)

theorem liveIn_deleteKey (key : Bytes) {before after : List (Bytes × Bytes)} {v : Bytes}
    (h : (t.liveIn range).entries = before ++ (key, v) :: after) :
    ((t.deleteKey key).liveIn range).entries = before ++ after := by
  have herase : (t.deleteKey key).liveIn range = (t.liveIn range).erase key := by
    refine ext_get? fun k => ?_
    refine Option.ext fun w => ?_
    rw [get?_erase, get?_eq_some, mem_liveIn_iff]
    show _ ∧ (t.tx.deleteKey key).fetchKey k = some w ↔ _
    rw [TreapTx.fetchKey_deleteKey]
    by_cases hk : k = key
    · simp [hk]
    · rw [if_neg hk, if_neg hk, get?_eq_some, mem_liveIn_iff]
  obtain ⟨hbefore, hafter⟩ := around h
  rw [herase, SortedMap.erase, SortedMap.filter]
  dsimp only
  rw [h, filter_append, filter_cons_of_neg (by simp), filter_eq_self.mpr fun e he => ?_,
    filter_eq_self.mpr fun e he => ?_]
  · simpa using (hafter e he).ne'
  · simpa using (hbefore e he).ne

/-! ## What a scan does -/

theorem deleteIf_eq {c : ScanCursor σ} (h : (t.cursor L).entry c = some e) (mark : Bool) : t.deleteIf L c mark =
      if mark && !bucketIndexPrefix.isPrefixOf e.1 then
        (true, t.deleteKey e.1, { c with upper := c.upper.forceReseek })
      else (false, t, c) := by
  cases mark with
  | false => rfl
  | true =>
    rw [deleteIf, delete, h]
    cases hp : bucketIndexPrefix.isPrefixOf e.1 <;> simp [hp]

/-- What a scan has done that had these entries to go through. -/
structure Scanned (marks : Nat → Bool) (i : Nat) (t : ScanTx) (rest : List (Bytes × Bytes)) (visits : List Visit)
    (t' : ScanTx) : Prop where
  entries : visits.map Visit.entry = rest
  deleted : ∀ j visit, visits[j]? = some visit →
    visit.deleted = (marks (i + j) && !bucketIndexPrefix.isPrefixOf visit.entry.1)
  fetchKey : ∀ k, t'.tx.fetchKey k = if k ∈ deletedKeys visits then none else t.tx.fetchKey k

theorem scanned_nil (marks : Nat → Bool) (i : Nat) (t : ScanTx) : Scanned marks i t [] [] t :=
  ⟨rfl, by simp, by simp [deletedKeys]⟩

/-- One position before the rest. -/
theorem Scanned.cons {marks : Nat → Bool} {i : Nat} {t₁ t' : ScanTx} {rest : List (Bytes × Bytes)}
    {visits : List Visit} (h : Scanned marks (i + 1) t₁ rest visits t') {deleted : Bool}
    (hdeleted : deleted = (marks i && !bucketIndexPrefix.isPrefixOf e.1))
    (ht₁ : t₁ = if deleted then t.deleteKey e.1 else t) :
    Scanned marks i t (e :: rest) (⟨e, deleted⟩ :: visits) t' := by
  refine ⟨by rw [map_cons, h.entries], fun j visit hvisit => ?_, fun k => ?_⟩
  · cases j with
    | zero =>
      cases hvisit
      exact hdeleted
    | succ j =>
      rw [show i + (j + 1) = i + 1 + j by omega]
      exact h.deleted j visit hvisit
  · rw [h.fetchKey, ht₁]
    cases deleted with
    | false => rfl
    | true =>
      have hkeys : deletedKeys (⟨e, true⟩ :: visits) = e.1 :: deletedKeys visits := rfl
      rw [if_pos rfl, deleteKey, TreapTx.fetchKey_deleteKey, hkeys]
      by_cases hk : k = e.1
      · simp [hk]
      · simp [hk]

/-! ## The scan is complete -/

section Scan
variable {s₀ : σ} (hL : LevelIter L (t.ldbIn range) range.start on s₀) {c : ScanCursor σ}

include hL

theorem scan_walks : (t.cursor L).Walks (t.liveIn range) (t.RidesOn range on) :=
  TwoWay.walks_overlay (cache_walks hL) cache_mem (rides_walks t.tx.pendingKeys range) updated_pendingIn
    fun _ => mem_liveIn

/-- `First` on a new cursor. -/
theorem RidesOn.first : t.RidesOn range on true ((t.cursor L).start true (newCursor range s₀))
    ((t.liveIn range).nearestKey? true fun _ => true) := by
  have hbound : (Treap.Iterator.new (some range.start) range.limit).bound true ≠ none := Option.some_ne_none _
  refine TwoWay.on_start (cache_walks hL) cache_mem (rides_walks t.tx.pendingKeys range) updated_pendingIn
    (fun _ => mem_liveIn) ?_ ?_
  · exact TwoWay.on_start hL.walks hL.mem (treap_walks t.ordered) updated_cachedIn (fun _ => mem_snapshotIn)
      (hL.starts.start (e := true) hL.new) ((still_new ..).start t.ordered hbound)
  · exact ((still_new ..).start t.tx.pendingKeys.ordered hbound).rides

/-- `Next` from an entry that has been deleted. -/
theorem RidesOn.next_deleted {k : Bytes} (h : t.RidesOn range on true c (some k)) :
    (t.deleteKey k).RidesOn range on true
      (((t.deleteKey k).cursor L).step true { c with upper := c.upper.forceReseek })
      (((t.deleteKey k).liveIn range).nearestKey? true fun x => decide (Ahead true k x)) := by
  have hL' : LevelIter L ((t.deleteKey k).ldbIn range) range.start on s₀ := hL
  refine TwoWay.on_step_changed (cache_walks hL') cache_mem (rides_walks _ range) updated_pendingIn
    (fun _ => mem_liveIn) h (fun e he => mem_pendingIn_deleteKey he) (fun x hx => ?_) (fun _ => ?_)
    updated_pendingIn fun hu => hu.forceReseek _
  · rw [Bool.eq_iff_iff]
    exact TreapTx.updated_deleteKey.trans (or_iff_right hx)
  · exact TreapTx.updated_deleteKey.mpr (.inl rfl)

/-- What a cursor shows on an entry, and where `Next` takes it. -/
theorem RidesOn.here {e : Bytes × Bytes} {before rest : List (Bytes × Bytes)}
    (hlive : (t.liveIn range).entries = before ++ e :: rest) (hon : t.RidesOn range on true c (some e.1)) :
    (t.cursor L).entry c = some e ∧ (∃ side, c.current = some side) ∧
      t.RidesOn range on true ((t.cursor L).step true c) (rest.head?.map Prod.fst) := by
  obtain ⟨hbefore, hafter⟩ := around hlive
  refine ⟨(scan_walks hL).value hon (by simp [hlive]), ?_, ?_⟩
  · cases hon with
    | base hcur => exact ⟨_, hcur⟩
    | upper hcur => exact ⟨_, hcur⟩
  · have hnext := (scan_walks hL).step hon
    rw [nearestKey?_ahead (hlive.trans (append_cons before e rest)) ?_ hafter] at hnext
    · exact hnext
    · intro e' he'
      rcases mem_append.mp he' with he' | he'
      · exact (hbefore e' he').le
      · rw [mem_singleton.mp he']

omit hL in
/-- A scan goes through what is ahead of it, whatever it deletes on the way. -/
theorem scanFrom_spec (marks : Nat → Bool) {n : Nat} : ∀ {i} {t} {c}
    {before rest : List (Bytes × Bytes)}, LevelIter L (t.ldbIn range) range.start on s₀ →
    (t.liveIn range).entries = before ++ rest → t.RidesOn range on true c (rest.head?.map Prod.fst) →
    rest.length < n →
    ∃ visits t', scanFrom L marks n i t c = some (visits, t') ∧ Scanned marks i t rest visits t' := by
  induction n with
  | zero =>
    intro i t c before rest hL hlive hon hn
    cases hn
  | succ n ih =>
    intro i t c before rest hL hlive hon hn
    cases rest with
    | nil =>
      have hcur : c.current = none := by
        cases hon with
        | nowhere hcur => exact hcur
      refine ⟨[], t, ?_, scanned_nil marks i t⟩
      rw [scanFrom, hcur]
    | cons e rest =>
      obtain ⟨hentry, ⟨side, hcur⟩, hnext⟩ := RidesOn.here hL hlive hon
      rw [length_cons, Nat.succ_lt_succ_iff] at hn
      -- The cursor goes on to the next entry, and the key is deleted or not.
      obtain ⟨visits, t', hrun, hscanned⟩ : ∃ visits t', scanFrom L marks n (i + 1)
            (t.deleteIf L c (marks i)).2.1
            (((t.deleteIf L c (marks i)).2.1.cursor L).step true (t.deleteIf L c (marks i)).2.2) = some (visits, t') ∧
          Scanned marks (i + 1) (t.deleteIf L c (marks i)).2.1 rest visits t' := by
        rw [deleteIf_eq hentry]
        cases hmark : marks i && !bucketIndexPrefix.isPrefixOf e.1 with
        | true =>
          obtain ⟨hbefore, hafter⟩ := around hlive
          have hlive' := liveIn_deleteKey e.1 hlive
          have hdeleted := RidesOn.next_deleted hL hon
          rw [nearestKey?_ahead hlive' (fun e' he' => (hbefore e' he').le) hafter] at hdeleted
          exact ih hL hlive' hdeleted hn
        | false => exact ih hL (hlive.trans (append_cons before e rest)) hnext hn
      refine ⟨⟨e, (t.deleteIf L c (marks i)).1⟩ :: visits, t', ?_, hscanned.cons ?_ ?_⟩
      · rw [scanFrom, hcur]
        simp only [hentry, hrun, Option.bind_eq_bind, Option.bind_some, pure]
      · rw [deleteIf_eq hentry]
        split_ifs with h
        · exact h.symm
        · exact (Bool.eq_false_iff.mpr h).symm
      · rw [deleteIf_eq hentry]
        cases marks i && !bucketIndexPrefix.isPrefixOf e.1 <;> rfl

end Scan

/-- A scan of the keys of a bucket that deletes at any of its positions comes to an end. It goes through the
entries that the bucket had when it began, all of them and each of them once, from the smallest key to the
greatest; and afterwards the keys whose `Delete` has succeeded are gone, and nothing else has changed. -/
theorem scan_complete (t : ScanTx) {σ : Type} (L : TwoWay σ Bytes Bytes) (on : σ → Option Bytes → Prop) (s₀ : σ)
    (id : Bytes) (hL : LevelIter L (t.ldbIn (bytesPrefix id)) id on s₀) (marks : Nat → Bool) :
    ∃ visits t', t.scan L id s₀ marks = some (visits, t') ∧
      (visits.map fun visit => visit.entry.1).Pairwise (· < ·) ∧
      (∀ k v, (k, v) ∈ visits.map Visit.entry ↔ id <+: k ∧ t.tx.fetchKey k = some v) ∧
      (∀ i visit, visits[i]? = some visit → visit.deleted = (marks i && !bucketIndexPrefix.isPrefixOf visit.entry.1)) ∧
      ∀ k, t'.tx.fetchKey k = if k ∈ deletedKeys visits then none else t.tx.fetchKey k := by
  have hfirst := RidesOn.first hL
  have hsize := (scan_walks hL).size hfirst
  rw [nearestKey?_all] at hfirst
  obtain ⟨visits, t', hrun, hscanned⟩ :=
    scanFrom_spec marks (i := 0) hL (nil_append _).symm hfirst (Nat.lt_succ_of_le hsize)
  refine ⟨visits, t', hrun, ?_, fun k v => ?_, fun i visit hvisit => ?_, hscanned.fetchKey⟩
  · have hmap : (visits.map fun visit => visit.entry.1) = (visits.map Visit.entry).map Prod.fst := by
      rw [map_map]
      rfl
    rw [hmap, hscanned.entries, pairwise_map]
    exact (t.liveIn (bytesPrefix id)).sorted
  · rw [hscanned.entries, mem_liveIn_iff, contains_bytesPrefix]
  · rw [hscanned.deleted i visit hvisit, Nat.zero_add]

/-- The entry of the database is deleted, and the pending one is still found. -/
theorem scan_complete_oneEach :
    ∃ visits t', oneEach.scan (.ofMap (oneEach.ldbIn (bytesPrefix [0, 0, 0, 2]))) [0, 0, 0, 2] .fresh (· == 0) =
        some (visits, t') ∧
      visits.map Visit.entry = [([0, 0, 0, 2, 1], [10]), ([0, 0, 0, 2, 2], [20])] ∧
      t'.tx.fetchKey [0, 0, 0, 2, 1] = none ∧ t'.tx.fetchKey [0, 0, 0, 2, 2] = some [20] := by
  have hL := levelIter_ofMap (oneEach.ldbIn (bytesPrefix [0, 0, 0, 2])) [0, 0, 0, 2]
  obtain ⟨visits, t', hrun, -⟩ := scan_complete oneEach _ _ Position.fresh [0, 0, 0, 2] hL (· == 0)
  have hvalue : (oneEach.scan (.ofMap (oneEach.ldbIn (bytesPrefix [0, 0, 0, 2]))) [0, 0, 0, 2] .fresh (· == 0)).map
      (fun r => (r.1.map Visit.entry, r.2.tx.fetchKey [0, 0, 0, 2, 1], r.2.tx.fetchKey [0, 0, 0, 2, 2])) =
      some ([([0, 0, 0, 2, 1], [10]), ([0, 0, 0, 2, 2], [20])], none, some [20]) := by decide
  rw [hrun] at hvalue
  simp only [Option.map_some, Option.some.injEq, Prod.mk.injEq] at hvalue
  exact ⟨visits, t', hrun, hvalue⟩

end ScanTx
end NogoCommons.Ffldb
