import NogoCommons.Lib.SortedMap
import NogoCommons.Lib.Transition

/-!
# `database/ffldb/dbcache.go` — the cache before leveldb

Committed metadata is in two places: in leveldb, and in two immutable treaps of keys to add and
keys to remove that are laid over it. A commit replaces the treaps; from time to time the cache
is flushed, which writes the treaps into leveldb and then replaces them by empty ones, and the
commit that caused the flush goes to leveldb directly.

A snapshot is taken in two steps, leveldb first and then the treaps, and a reader does not hold
the lock the writer holds. What has been moved from the treaps to leveldb between the two steps
is in neither of the halves the reader gets (`snapshot_misses_flushed`). The snapshot is the
database at some instant if in between no treap was replaced after leveldb had been written
(`snapshot_consistent_of_ordered`).

`needsFlush` asks the clock and the size of the treaps; here its answer is a part of the schedule.
-/

namespace NogoCommons.Ffldb
open Lib List SortedMap

/-- Keys to add and keys to remove: what two treaps hold. -/
structure Pending where
  keys : SortedMap Bytes Bytes
  remove : SortedMap Bytes Unit

def Pending.empty : Pending := ⟨.empty, .empty⟩

structure DbCacheSnapshot where
  dbSnapshot : SortedMap Bytes Bytes
  pending : Pending

def DbCacheSnapshot.get (snap : DbCacheSnapshot) (key : Bytes) : Option Bytes :=
  if snap.pending.remove.has key then none
  else (snap.pending.keys.get? key).or (snap.dbSnapshot.get? key)

def DbCacheSnapshot.has (snap : DbCacheSnapshot) (key : Bytes) : Bool :=
  if snap.pending.remove.has key then false
  else if snap.pending.keys.has key then true
  else snap.dbSnapshot.has key

theorem DbCacheSnapshot.has_eq (snap : DbCacheSnapshot) (key : Bytes) : snap.has key = (snap.get key).isSome := by
  unfold has get
  cases snap.pending.remove.has key with
  | true => rfl
  | false =>
    rw [if_neg Bool.false_ne_true, if_neg Bool.false_ne_true, Option.isSome_or]
    unfold SortedMap.has
    cases (snap.pending.keys.get? key).isSome <;> rfl

/-- `dbCache`: leveldb and the treaps. -/
structure DbCache where
  ldb : SortedMap Bytes Bytes
  cached : Pending

/-- The logical content of the database. -/
def DbCache.content (c : DbCache) : DbCacheSnapshot := ⟨c.ldb, c.cached⟩

/-- `commitTreaps`: one leveldb transaction that puts, then deletes. -/
def commitTreaps (ldb : SortedMap Bytes Bytes) (p : Pending) : SortedMap Bytes Bytes :=
  (ldb.insertAll p.keys).eraseAll p.remove

/-- The treaps `commitTx` makes of the cached ones and the transaction's. -/
def mergePending (cached tx : Pending) : Pending where
  keys := (cached.keys.insertAll tx.keys).eraseAll tx.remove
  remove := (cached.remove.eraseAll tx.keys).insertAll tx.remove

/-! ## What leveldb and the treaps say together -/

section
variable (ldb : SortedMap Bytes Bytes)

theorem get?_commitTreaps (p : Pending) (k : Bytes) :
    (commitTreaps ldb p).get? k = (⟨ldb, p⟩ : DbCacheSnapshot).get k := by
  unfold commitTreaps DbCacheSnapshot.get
  rw [get?_eraseAll, get?_insertAll]

/-- Committing to the treaps or to leveldb makes the same database. -/
theorem get_mergePending (cached tx : Pending) (k : Bytes) : (⟨ldb, mergePending cached tx⟩ : DbCacheSnapshot).get k =
      (⟨commitTreaps ldb cached, tx⟩ : DbCacheSnapshot).get k := by
  unfold DbCacheSnapshot.get mergePending
  simp only [get?_commitTreaps, has_insertAll, has_eraseAll, get?_insertAll, get?_eraseAll, DbCacheSnapshot.get]
  cases tx.remove.has k with
  | true => simp
  | false =>
    have hhas : tx.keys.has k = (tx.keys.get? k).isSome := rfl
    cases hk : tx.keys.get? k with
    | some v => simp [hhas, hk]
    | none => simp [hhas, hk]

/-- A flush, up to the point where the treaps are still there. -/
theorem get_commitTreaps_self (p : Pending) (k : Bytes) :
    (⟨commitTreaps ldb p, p⟩ : DbCacheSnapshot).get k = (⟨ldb, p⟩ : DbCacheSnapshot).get k := by
  unfold DbCacheSnapshot.get
  rw [get?_commitTreaps]
  unfold DbCacheSnapshot.get
  cases p.remove.has k with
  | true => rfl
  | false => cases p.keys.get? k <;> rfl

end

theorem get_congr {ldb ldb' : SortedMap Bytes Bytes} {k : Bytes} (p : Pending) (h : ldb.get? k = ldb'.get? k) :
    (⟨ldb, p⟩ : DbCacheSnapshot).get k = (⟨ldb', p⟩ : DbCacheSnapshot).get k := by
  simp only [DbCacheSnapshot.get, h]

/-- No key is both to be added and to be removed. -/
def Pending.Disjoint (p : Pending) : Prop := ∀ k, p.keys.has k = true → p.remove.has k = false
theorem Pending.disjoint_empty : Pending.empty.Disjoint := fun _ _ => rfl

/-- `commitTx` keeps the cached treaps disjoint. -/
theorem Pending.Disjoint.mergePending {cached : Pending} (hc : cached.Disjoint) (tx : Pending) :
    (mergePending cached tx).Disjoint := by
  intro k hk
  simp only [Ffldb.mergePending, has_eraseAll, has_insertAll, Bool.and_eq_true,
    Bool.not_eq_true', Bool.or_eq_true] at hk ⊢
  rcases hk with ⟨hr, hk | hk⟩
  · simp [hr, hk]
  · simp [hr, hc k hk]

/-! ## The atomic steps of a writer -/

/-- Where `commitTx` stands between its atomic steps. -/
inductive Writer where
  | idle
  /-- The flush has written the treaps into leveldb and has yet to replace them. -/
  | clearing (tx : Pending)
  /-- The flush is over and the transaction has yet to be written. -/
  | writing (tx : Pending)

structure WriterState where
  cache : DbCache
  writer : Writer

/-- What a writer can do next. -/
inductive Act where
  /-- `commitTx` is called, and `needsFlush` gives this answer. -/
  | commitTx (tx : Pending) (needsFlush : Bool)
  | advance
  /-- The leveldb transaction that is next fails, and with it the commit. -/
  | fail

def Pending.isEmpty (p : Pending) : Bool := p.keys.isEmpty && p.remove.isEmpty

namespace WriterState

/-- One atomic step. -/
def next (s : WriterState) (a : Act) : Option WriterState :=
  match s.writer, a with
  | .idle, .commitTx tx false => some ⟨⟨s.cache.ldb, mergePending s.cache.cached tx⟩, .idle⟩
  | .idle, .commitTx tx true =>
    -- `flush`, which has nothing to do if the treaps are empty
    if s.cache.cached.isEmpty then some ⟨s.cache, .writing tx⟩
    else some ⟨⟨commitTreaps s.cache.ldb s.cache.cached, s.cache.cached⟩, .clearing tx⟩
  | .clearing tx, .advance => some ⟨⟨s.cache.ldb, .empty⟩, .writing tx⟩
  | .writing tx, .advance => some ⟨⟨commitTreaps s.cache.ldb tx, s.cache.cached⟩, .idle⟩
  | .idle, .fail => some s
  | .writing _, .fail => some ⟨s.cache, .idle⟩
  | _, _ => none

/-- The step writes into leveldb. -/
def writesLdb (s : WriterState) (a : Act) : Bool :=
  match s.writer, a with
  | .idle, .commitTx _ true => !s.cache.cached.isEmpty
  | .writing _, .advance => true
  | _, _ => false

/-- The step replaces the cached treaps. -/
def replacesTreaps (s : WriterState) (a : Act) : Bool :=
  match s.writer, a with
  | .idle, .commitTx _ false => true
  | .clearing _, .advance => true
  | _, _ => false

/-- What each step does. -/
inductive Step : WriterState → Act → WriterState → Prop
  | swap (c : DbCache) (tx : Pending) :
      Step ⟨c, .idle⟩ (.commitTx tx false) ⟨⟨c.ldb, mergePending c.cached tx⟩, .idle⟩
  | skip (c : DbCache) (tx : Pending) (h : c.cached.isEmpty = true) :
      Step ⟨c, .idle⟩ (.commitTx tx true) ⟨c, .writing tx⟩
  | store (c : DbCache) (tx : Pending) (h : c.cached.isEmpty = false) :
      Step ⟨c, .idle⟩ (.commitTx tx true) ⟨⟨commitTreaps c.ldb c.cached, c.cached⟩, .clearing tx⟩
  | clear (c : DbCache) (tx : Pending) :
      Step ⟨c, .clearing tx⟩ .advance ⟨⟨c.ldb, .empty⟩, .writing tx⟩
  | direct (c : DbCache) (tx : Pending) :
      Step ⟨c, .writing tx⟩ .advance ⟨⟨commitTreaps c.ldb tx, c.cached⟩, .idle⟩
  | failed (c : DbCache) : Step ⟨c, .idle⟩ .fail ⟨c, .idle⟩
  | abandoned (c : DbCache) (tx : Pending) : Step ⟨c, .writing tx⟩ .fail ⟨c, .idle⟩

variable {s t u : WriterState} {a : Act} {as : List Act}

theorem next_step (h : s.next a = some t) : Step s a t := by
  obtain ⟨c, w⟩ := s
  cases w with
  | idle =>
    cases a with
    | commitTx tx needsFlush =>
      cases needsFlush with
      | false =>
        cases h
        exact .swap c tx
      | true =>
        simp only [next] at h
        split_ifs at h with he
        · cases h
          exact .skip c tx he
        · cases h
          exact .store c tx (by simpa using he)
    | advance => cases h
    | fail =>
      cases h
      exact .failed c
  | clearing tx =>
    cases a with
    | commitTx tx' needsFlush => cases h
    | advance =>
      cases h
      exact .clear c tx
    | fail => cases h
  | writing tx =>
    cases a with
    | commitTx tx' needsFlush => cases h
    | advance =>
      cases h
      exact .direct c tx
    | fail =>
      cases h
      exact .abandoned c tx

/-- Only a step that writes into leveldb changes it. -/
theorem Step.ldb_eq (h : Step s a t) (hw : s.writesLdb a = false) : t.cache.ldb = s.cache.ldb := by
  cases h with
  | store c tx he => simp [writesLdb, he] at hw
  | direct c tx => simp [writesLdb] at hw
  | _ => rfl

/-- Only a step that replaces the treaps changes them. -/
theorem Step.cached_eq (h : Step s a t) (hr : s.replacesTreaps a = false) : t.cache.cached = s.cache.cached := by
  cases h with
  | swap c tx => simp [replacesTreaps] at hr
  | clear c tx => simp [replacesTreaps] at hr
  | _ => rfl

/-- No step does both. -/
theorem Step.cached_eq_of_writesLdb (h : Step s a t) (hw : s.writesLdb a = true) : t.cache.cached = s.cache.cached := by
  cases h with
  | swap c tx => simp [writesLdb] at hw
  | clear c tx => simp [writesLdb] at hw
  | _ => rfl

/-! ## A reader between two steps -/

/-- `Snapshot`, with its first step in the one state and its second in the other. -/
def snapshot (s t : WriterState) : DbCacheSnapshot := ⟨s.cache.ldb, t.cache.cached⟩

/-- The states the writer comes through. -/
def trace : WriterState → List Act → List WriterState
  | s, [] => [s]
  | s, a :: as => s :: (s.next a).elim [] (trace · as)

/-- The reader, with `as` between its steps, sees the database at some instant in between. -/
def SnapshotConsistent (s : WriterState) (as : List Act) (t : WriterState) : Prop :=
  ∃ x ∈ trace s as, ∀ k, (snapshot s t).get k = x.cache.content.get k ∧
    (snapshot s t).has k = x.cache.content.has k

/-- The schedule replaces no treaps. -/
def keepsTreaps : WriterState → List Act → Bool
  | _, [] => true
  | s, a :: as => !s.replacesTreaps a && (s.next a).all (keepsTreaps · as)

/-- The schedule replaces no treaps once it has written into leveldb. -/
def ordered : WriterState → List Act → Bool
  | _, [] => true
  | s, a :: as => (s.next a).all fun t => if s.writesLdb a then keepsTreaps t as else ordered t as

theorem mem_trace_start (s : WriterState) (as : List Act) : s ∈ trace s as := by
  cases as <;> simp [trace]

theorem trace_cons (h : s.next a = some t) : trace s (a :: as) = s :: trace t as := by
  simp [trace, h]

theorem cached_of_keepsTreaps : ∀ {as} {s},
    runSchedule next s as = some t → keepsTreaps s as = true → t.cache.cached = s.cache.cached
  | [], s, h, _ => by
    cases h
    rfl
  | a :: as, s, h, hk => by
    obtain ⟨s', hs', hrun⟩ := runSchedule_cons h
    simp only [keepsTreaps, hs', Option.all_some, Bool.and_eq_true, Bool.not_eq_true'] at hk
    rw [cached_of_keepsTreaps hrun hk.2, (next_step hs').cached_eq hk.1]

/-- The instant: leveldb has not been written yet, and the treaps are those of the end. -/
theorem exists_instant : ∀ {as} {s}, runSchedule next s as = some t → ordered s as = true →
    ∃ x ∈ trace s as, x.cache.ldb = s.cache.ldb ∧ x.cache.cached = t.cache.cached
  | [], s, h, _ => by
    obtain rfl : s = t := Option.some.inj h
    exact ⟨s, mem_trace_start s [], rfl, rfl⟩
  | a :: as, s, h, ho => by
    obtain ⟨s', hs', hrun⟩ := runSchedule_cons h
    have hstep := next_step hs'
    simp only [ordered, hs', Option.all_some] at ho
    split_ifs at ho with hw
    · refine ⟨s, mem_trace_start s _, rfl, ?_⟩
      rw [cached_of_keepsTreaps hrun ho, hstep.cached_eq_of_writesLdb hw]
    · obtain ⟨x, hx, hldb, hcached⟩ := exists_instant hrun ho
      refine ⟨x, trace_cons hs' ▸ mem_cons_of_mem s hx, ?_, hcached⟩
      rw [hldb, hstep.ldb_eq (by simpa using hw)]

/-- **The snapshot is the database at some instant**, whatever the writer does in between, as long
as it replaces no treaps after it has written into leveldb. -/
theorem snapshot_consistent_of_ordered (h : runSchedule next s as = some t)
    (ho : ordered s as = true) : SnapshotConsistent s as t := by
  obtain ⟨x, hx, hldb, hcached⟩ := exists_instant h ho
  have hsame : snapshot s t = x.cache.content := by rw [snapshot, DbCache.content, hldb, hcached]
  exact ⟨x, hx, fun k => by rw [hsame]; exact ⟨rfl, rfl⟩⟩

/-- A commit into the treaps and then the beginning of a flush: the reader sees the commit. -/
theorem snapshot_consistent_swap_store :
    let p : Pending := ⟨.insert .empty [1] [2], .empty⟩
    let s : WriterState := ⟨⟨.empty, .empty⟩, .idle⟩
    let as : List Act := [.commitTx p false, .commitTx .empty true]
    ∃ t, runSchedule next s as = some t ∧ ordered s as = true ∧ SnapshotConsistent s as t ∧
      (snapshot s t).get [1] = some [2] := by
  intro p s as
  have hrun : runSchedule next s as = some
      ⟨⟨commitTreaps .empty (mergePending .empty p), mergePending .empty p⟩, .clearing .empty⟩ := rfl
  have ho : ordered s as = true := by decide
  exact ⟨_, hrun, ho, snapshot_consistent_of_ordered hrun ho, by decide⟩

/-! ## What a flush takes out of the snapshot -/

/-- The treaps say nothing of the key. -/
def Silent (p : Pending) (k : Bytes) : Prop := p.keys.has k = false ∧ p.remove.has k = false

variable {k v : Bytes}

theorem get_of_silent {p : Pending} (ldb : SortedMap Bytes Bytes) (h : Silent p k) :
    (⟨ldb, p⟩ : DbCacheSnapshot).get k = ldb.get? k := by
  simp [DbCacheSnapshot.get, h.2, get?_eq_none_of_has h.1]

theorem silent_empty (k : Bytes) : Silent .empty k := ⟨rfl, rfl⟩

theorem silent_mergePending {p q : Pending} (hp : Silent p k) (hq : Silent q k) : Silent (mergePending p q) k := by
  simp [Silent, mergePending, has_eraseAll, has_insertAll, hp.1, hp.2, hq.1, hq.2]

/-- The transaction a writer is in the middle of, and those the schedule still brings, leave the
key alone. -/
def Quiet (s : WriterState) (as : List Act) (k : Bytes) : Prop :=
  (∀ tx, s.writer = .clearing tx ∨ s.writer = .writing tx → Silent tx k) ∧
    ∀ tx f, .commitTx tx f ∈ as → Silent tx k

theorem Quiet.step (hq : Quiet s (a :: as) k) (h : Step s a t) : Quiet t as k := by
  refine ⟨?_, fun tx f hmem => hq.2 tx f (mem_cons_of_mem a hmem)⟩
  intro tx htx
  cases h with
  | swap c tx' => simp at htx
  | skip c tx' _ =>
    obtain rfl : tx' = tx := by simpa using htx
    exact hq.2 tx' true mem_cons_self
  | store c tx' _ =>
    obtain rfl : tx' = tx := by simpa using htx
    exact hq.2 tx' true mem_cons_self
  | clear c tx' =>
    obtain rfl : tx' = tx := by simpa using htx
    exact hq.1 tx' (.inl rfl)
  | direct c tx' => simp at htx
  | failed c => simp at htx
  | abandoned c tx' => simp at htx

/-- The key is in the database, and during a flush it is in leveldb already. -/
structure Present (s : WriterState) (k v : Bytes) : Prop where
  visible : s.cache.content.get k = some v
  stored : ∀ tx, s.writer = .clearing tx → s.cache.ldb.get? k = some v

theorem Present.step (hp : Present s k v) (hq : Quiet s (a :: as) k) (h : Step s a t) : Present t k v := by
  cases h with
  | swap c tx =>
    have hsilent := hq.2 tx false mem_cons_self
    refine ⟨?_, by simp⟩
    calc (⟨c.ldb, mergePending c.cached tx⟩ : DbCacheSnapshot).get k
        = (⟨commitTreaps c.ldb c.cached, tx⟩ : DbCacheSnapshot).get k := get_mergePending ..
      _ = (commitTreaps c.ldb c.cached).get? k := get_of_silent _ hsilent
      _ = (⟨c.ldb, c.cached⟩ : DbCacheSnapshot).get k := get?_commitTreaps ..
      _ = some v := hp.visible
  | skip c tx _ => exact ⟨hp.visible, by simp⟩
  | store c tx _ =>
    refine ⟨(get_commitTreaps_self c.ldb c.cached k).trans hp.visible, fun _ _ => ?_⟩
    exact (get?_commitTreaps c.ldb c.cached k).trans hp.visible
  | clear c tx => exact ⟨(get_of_silent c.ldb (silent_empty k)).trans (hp.stored tx rfl), by simp⟩
  | direct c tx =>
    have hsame : (commitTreaps c.ldb tx).get? k = c.ldb.get? k :=
      (get?_commitTreaps c.ldb tx k).trans (get_of_silent c.ldb (hq.1 tx (.inr rfl)))
    exact ⟨(get_congr c.cached hsame).trans hp.visible, by simp⟩
  | failed c => exact hp
  | abandoned c tx => exact ⟨hp.visible, by simp⟩

theorem silent_step (hs : Silent s.cache.cached k) (hq : Quiet s (a :: as) k) (h : Step s a t) :
    Silent t.cache.cached k := by
  cases h with
  | swap c tx => exact silent_mergePending hs (hq.2 tx false mem_cons_self)
  | clear c tx => exact silent_empty k
  | _ => exact hs

/-- The schedule comes to the point where a flush replaces the treaps. -/
def Clears : WriterState → List Act → Prop
  | _, [] => False
  | s, a :: as => (∃ tx, s.writer = .clearing tx) ∨ ∃ t, s.next a = some t ∧ Clears t as

theorem silent_of_run : ∀ {as} {s},
    runSchedule next s as = some t → Quiet s as k → Silent s.cache.cached k →
    Silent t.cache.cached k
  | [], s, h, _, hs => by
    cases h
    exact hs
  | a :: as, s, h, hq, hs => by
    obtain ⟨s', hs', hrun⟩ := runSchedule_cons h
    have hstep := next_step hs'
    exact silent_of_run hrun (hq.step hstep) (silent_step hs hq hstep)

theorem silent_of_clears : ∀ {as} {s},
    runSchedule next s as = some t → Quiet s as k → Clears s as → Silent t.cache.cached k
  | [], _, _, _, hc => hc.elim
  | a :: as, s, h, hq, hc => by
    obtain ⟨s', hs', hrun⟩ := runSchedule_cons h
    have hstep := next_step hs'
    rcases hc with ⟨tx, hw⟩ | ⟨s'', hs'', hc⟩
    · refine silent_of_run hrun (hq.step hstep) ?_
      -- The step a writer takes there leaves the treaps empty.
      cases hstep with
      | clear c tx => exact silent_empty k
      | _ => simp at hw
    · obtain rfl : s' = s'' := by
        rw [hs'] at hs''
        exact Option.some.inj hs''
      exact silent_of_clears hrun (hq.step hstep) hc

theorem present_of_mem_trace {x : WriterState} :
    ∀ {as} {s}, Quiet s as k → Present s k v → x ∈ trace s as →
    Present x k v
  | [], s, _, hp, hx => by
    obtain rfl : x = s := by simpa [trace] using hx
    exact hp
  | a :: as, s, hq, hp, hx => by
    cases hs' : s.next a with
    | none =>
      obtain rfl : x = s := by simpa [trace, hs'] using hx
      exact hp
    | some s' =>
      have hstep := next_step hs'
      rw [trace_cons hs', mem_cons] at hx
      rcases hx with rfl | hx
      · exact hp
      · exact present_of_mem_trace (hq.step hstep) (hp.step hq hstep) hx

/-- **What is flushed between the reader's two steps is missing from its snapshot**: a key that is
only in the treaps when the reader looks at leveldb, and that nobody touches, is there at
every instant and the reader does not see it. -/
theorem snapshot_misses_flushed (h : runSchedule next s as = some t) (hidle : s.writer = .idle) (hc : Clears s as)
    (hq : ∀ tx f, .commitTx tx f ∈ as → Silent tx k) (hldb : s.cache.ldb.get? k = none)
    (hcached : s.cache.content.get k = some v) :
    (snapshot s t).get k = none ∧ ∀ x ∈ trace s as, x.cache.content.get k = some v := by
  have hquiet : Quiet s as k := ⟨fun tx htx => by simp [hidle] at htx, hq⟩
  refine ⟨?_, fun x hx => ?_⟩
  · rw [snapshot, get_of_silent _ (silent_of_clears h hquiet hc), hldb]
  · exact (present_of_mem_trace hquiet ⟨hcached, fun tx htx => by simp [hidle] at htx⟩ hx).visible

/-- The two ways to be torn. A key in the treaps is flushed between the reader's steps, and the
reader sees it nowhere; and of two commits, the first of which a flush takes to leveldb, the
reader sees the second only. -/
theorem snapshot_torn :
    let p : Pending := ⟨.insert .empty [1] [10], .empty⟩
    let q : Pending := ⟨.insert .empty [2] [20], .empty⟩
    (let s : WriterState := ⟨⟨.empty, p⟩, .idle⟩
      let as : List Act := [.commitTx .empty true, .advance]
      ∃ t, runSchedule next s as = some t ∧ (snapshot s t).get [1] = none ∧
        (∀ x ∈ trace s as, x.cache.content.get [1] = some [10]) ∧ ¬ SnapshotConsistent s as t) ∧
    (let s : WriterState := ⟨⟨.empty, .empty⟩, .idle⟩
      let as : List Act := [.commitTx p true, .advance, .commitTx q false]
      ∃ t, runSchedule next s as = some t ∧ (snapshot s t).get [1] = none ∧
        (snapshot s t).get [2] = some [20] ∧ ¬ SnapshotConsistent s as t) := by
  intro p q
  refine ⟨⟨_, rfl, ?_⟩, ⟨_, rfl, by decide, by decide, ?_⟩⟩
  · obtain ⟨hnone, hall⟩ := snapshot_misses_flushed (k := [1]) (v := [10])
      (show runSchedule next ⟨⟨.empty, p⟩, .idle⟩ [.commitTx .empty true, .advance] = some _ from rfl) rfl
      (.inr ⟨_, rfl, .inl ⟨_, rfl⟩⟩)
      (fun tx f htx => by
        simp only [mem_cons, Act.commitTx.injEq, reduceCtorEq, not_mem_nil, or_false] at htx
        exact htx.1 ▸ silent_empty _)
      rfl (by decide)
    refine ⟨hnone, hall, fun hcons => ?_⟩
    obtain ⟨x, hx, heq⟩ := hcons
    have := (heq [1]).1
    rw [hnone, hall x hx] at this
    cases this
  · rintro ⟨x, hx, heq⟩
    have hall : ∀ x ∈ trace ⟨⟨.empty, .empty⟩, .idle⟩
        [.commitTx p true, .advance, .commitTx q false],
        ¬ (none = x.cache.content.get [1] ∧ some [20] = x.cache.content.get [2]) := by
      decide
    exact hall x hx ⟨(heq [1]).1, (heq [2]).1⟩

end WriterState
end NogoCommons.Ffldb
