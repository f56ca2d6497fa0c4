import NogoCommons.Ffldb.Bucket
import NogoCommons.Lib.TwoWay
import NogoCommons.Treap.Reseek

/-!
# `database/ffldb/db.go` — moving a cursor both ways

The same two iterators laid over each other as in `Ffldb.Cursor`, twice, but with all five calls of a cursor
and in both directions. What leveldb does is not in this repository: its iterator is an argument, and that
it is a right cursor on the snapshot's entries in the range is what is assumed of it (`LevelIter`). The
cached treap has its shape here, since its iterator is one of `treapiter.go`.

A cursor moves only the iterator it stands on. After `First`, `Seek` and `Next` the other iterator is ahead of
it, and a `Prev` then finds it there, takes its key for the larger one, and goes forwards. A cursor is right
as long as the iterators it does not move are where the direction needs them (`Aligned`, for the cursor and
for the snapshot's iterator under it), which they always are if there is no change of direction.
-/

namespace NogoCommons.Ffldb
open Lib List
open Treap (TreapNode)
open Treap.Iterator (Agrees inside)

/-! ## The iterators -/

/-- A `treap.Iterator` over a treap that does not change. -/
def treapTwoWay (root : TreapNode) : TwoWay Treap.Iterator Bytes Bytes where
  entry it := it.node.map fun k => (k, (root.find? k).getD [])
  start forwards it := it.reset forwards root
  step forwards it := it.advance forwards root
  seek key it := it.seekTo root key
  size _ := root.entries.length

/-- Where such an iterator stands, in its range. -/
def Still (root : TreapNode) (range : KeyRange) (it : Treap.Iterator) (k? : Option Bytes) : Prop :=
  ∃ pos, Agrees root (some range.start) range.limit it pos ∧ pos.key? = k?

/-- The entries of a treap in a range. -/
def treapIn (root : TreapNode) (h : root.Ordered) (range : KeyRange) : SortedMap Bytes Bytes :=
  inside root h (some range.start) range.limit

variable {d : Bool} {k? : Option Bytes}
section Treap
variable {root : TreapNode} {range : KeyRange} {it : Treap.Iterator} {k : Bytes}

theorem still_new (root : TreapNode) (range : KeyRange) : Still root range (.new (some range.start) range.limit) none :=
  ⟨.fresh, Treap.Iterator.agrees_new root .., rfl⟩

theorem Still.agrees (h : Still root range it (some k)) :
    Agrees root (some range.start) range.limit it (.standing k) := by
  obtain ⟨pos, hpos, hkey⟩ := h
  cases pos with
  | fresh => cases hkey
  | exhausted => cases hkey
  | standing k' =>
    cases hkey
    exact hpos

/-- What such an iterator shows is what its node holds. -/
theorem treap_key (h : it.node = k?) : ((treapTwoWay root).entry it).map Prod.fst = k? := by
  simp only [treapTwoWay, h, Option.map_map]
  cases k? <;> rfl

variable (hroot : root.Ordered)

theorem treap_value {e : Bytes × Bytes} (h : it.node = some e.1) (he : e ∈ (treapIn root hroot range).entries) :
    (treapTwoWay root).entry it = some e := by
  have hfind : root.find? e.1 = some e.2 := (SearchTree.find?_eq_some hroot).mpr (mem_filter.mp he).1
  simp only [treapTwoWay, h, Option.map_some, hfind, Option.getD_some]

theorem treap_walks : (treapTwoWay root).Walks (treapIn root hroot range) fun _ => Still root range where
  key := by
    rintro d s k? ⟨pos, hpos, rfl⟩
    exact treap_key hpos.node
  value := by
    intro d s e h he
    exact treap_value hroot h.agrees.node he
  step := by
    intro d s k h
    exact ⟨_, h.agrees.advance d hroot (by simp), Position.key?_ofEntry _⟩
  size := by
    intro d s k? _
    exact length_filter_le ..

/-- It is sent to an end of its range, if there is a key to seek there. -/
theorem Still.start (hbound : (Treap.Iterator.new (some range.start) range.limit).bound d ≠ none)
    (h : Still root range it k?) :
    Still root range ((treapTwoWay root).start d it) ((treapIn root hroot range).nearestKey? d fun _ => true) := by
  obtain ⟨pos, hpos, -⟩ := h
  exact ⟨_, hpos.reset d hroot fun hb => absurd hb hbound, Position.key?_ofEntry _⟩

theorem treap_starts (hlimit : range.limit ≠ none) :
    (treapTwoWay root).Starts (treapIn root hroot range) (fun _ => Still root range)
      fun key => range.start ≤ key where
  start := by
    intro d d' s k? h
    refine h.start hroot ?_
    cases d with
    | false => exact hlimit
    | true => exact Option.some_ne_none _
  seek := by
    rintro d' s k? key ⟨pos, hpos, -⟩ hkey
    refine ⟨_, hpos.call (c := .seek key) hroot ?_ (by simp [Treap.Iterator.opens]), Position.key?_ofEntry _⟩
    rintro key' ⟨rfl⟩ start ⟨rfl⟩
    exact hkey

end Treap

/-- The documented behaviour of a leveldb iterator: in both directions it is a cursor on the entries of its
snapshot in its range. Where it goes from a position that is not valid is left open. -/
structure LevelIter {σ : Type} (L : TwoWay σ Bytes Bytes) (m : SortedMap Bytes Bytes) (start : Bytes)
    (on : σ → Option Bytes → Prop) (s₀ : σ) : Prop where
  walks : L.Walks m fun _ => on
  starts : L.Starts m (fun _ => on) fun key => start ≤ key
  mem : ∀ {s k}, on s (some k) → ∃ v, (k, v) ∈ m.entries
  new : on s₀ none

/-! ## The cursor -/

/-- A transaction, with the treap that holds the keys its snapshot has cached. -/
structure ScanTx where
  tx : TreapTx
  cachedKeys : TreapNode
  ordered : cachedKeys.Ordered
  shows : cachedKeys.toMap ordered = tx.snapshot.pending.keys

/-- `dbCacheIterator`, over a leveldb iterator. -/
abbrev CacheIter (σ : Type) := Overlay σ Treap.Iterator

/-- `cursor`. -/
abbrev ScanCursor (σ : Type) := Overlay (CacheIter σ) Treap.Iterator

namespace ScanTx
variable {σ : Type} (L : TwoWay σ Bytes Bytes) (t : ScanTx)

/-- The calls of `dbCacheIterator`. -/
def cacheIter : TwoWay (CacheIter σ) Bytes Bytes :=
  .overlay L (treapTwoWay t.cachedKeys) t.tx.snapshot.updated

/-- The calls of `cursor`. -/
def cursor : TwoWay (ScanCursor σ) Bytes Bytes :=
  .overlay (t.cacheIter L) (treapTwoWay t.tx.pendingKeys.root) t.tx.updated

/-- `newCursor` for the keys in a range. None of the iterators has been positioned. -/
def newCursor (range : KeyRange) (s₀ : σ) : ScanCursor σ :=
  ⟨⟨s₀, .new (some range.start) range.limit, none⟩, .new (some range.start) range.limit, none⟩

/-! ### What there is to go through -/

def ldbIn (range : KeyRange) : SortedMap Bytes Bytes := t.tx.snapshot.dbSnapshot.filter range.contains

/-- The snapshot's entries in the range. -/
def snapshotIn (range : KeyRange) : SortedMap Bytes Bytes :=
  (commitTreaps t.tx.snapshot.dbSnapshot t.tx.snapshot.pending).filter range.contains

/-- The live entries in the range: those of the snapshot, overlaid by the pending ones. -/
def liveIn (range : KeyRange) : SortedMap Bytes Bytes :=
  (commitTreaps (commitTreaps t.tx.snapshot.dbSnapshot t.tx.snapshot.pending)
    ⟨t.tx.pendingKeys.toMap, t.tx.pendingRemove⟩).filter range.contains

def cachedIn (range : KeyRange) : SortedMap Bytes Bytes := treapIn t.cachedKeys t.ordered range

def pendingIn (range : KeyRange) : SortedMap Bytes Bytes :=
  treapIn t.tx.pendingKeys.root t.tx.pendingKeys.ordered range

variable {t} {range : KeyRange} {e : Bytes × Bytes}

/-- Entries laid over others, if no key is both to be put and to be removed. -/
theorem mem_commitTreaps {ldb : SortedMap Bytes Bytes} {p : Pending} (hp : p.Disjoint) :
    e ∈ (commitTreaps ldb p).entries ↔
      e ∈ p.keys.entries ∨ e ∈ ldb.entries ∧ (p.remove.has e.1 || p.keys.has e.1) = false := by
  obtain ⟨k, v⟩ := e
  rw [← SortedMap.get?_eq_some, ← SortedMap.get?_eq_some, ← SortedMap.get?_eq_some, get?_commitTreaps,
    DbCacheSnapshot.get]
  have hdisjoint := hp k
  have hkeys : p.keys.has k = (p.keys.get? k).isSome := rfl
  cases hget : p.keys.get? k with
  | none =>
    rw [hget] at hkeys
    cases hr : p.remove.has k <;> simp [hkeys]
  | some w =>
    rw [hget] at hkeys
    simp [hdisjoint hkeys, hkeys]

theorem mem_filter {m : SortedMap Bytes Bytes} {q : Bytes → Bool} :
    e ∈ (m.filter q).entries ↔ e ∈ m.entries ∧ q e.1 = true := List.mem_filter

theorem mem_snapshotIn : e ∈ (t.snapshotIn range).entries ↔
    e ∈ (t.cachedIn range).entries ∨ e ∈ (TwoWay.kept t.tx.snapshot.updated (t.ldbIn range)).entries := by
  have hcached : e ∈ (t.cachedIn range).entries ↔ e ∈ t.tx.snapshot.pending.keys.entries ∧
      range.contains e.1 = true := by
    rw [← t.shows]
    exact mem_filter
  rw [hcached, TwoWay.mem_kept, snapshotIn, ldbIn, mem_filter, mem_filter, mem_commitTreaps t.tx.cached]
  tauto

theorem mem_liveIn : e ∈ (t.liveIn range).entries ↔
    e ∈ (t.pendingIn range).entries ∨ e ∈ (TwoWay.kept t.tx.updated (t.snapshotIn range)).entries := by
  have hpending : e ∈ (t.pendingIn range).entries ↔ e ∈ t.tx.pendingKeys.toMap.entries ∧
      range.contains e.1 = true := mem_filter
  have hdisjoint : (⟨t.tx.pendingKeys.toMap, t.tx.pendingRemove⟩ : Pending).Disjoint := by
    intro k hk
    rw [← Treap.Mutable.has_eq] at hk
    exact t.tx.disjoint k hk
  have hupdated : (t.tx.pendingRemove.has e.1 || t.tx.pendingKeys.toMap.has e.1) = t.tx.updated e.1 := by
    rw [TreapTx.updated, Treap.Mutable.has_eq]
  rw [hpending, TwoWay.mem_kept, liveIn, snapshotIn, mem_filter, mem_filter, mem_commitTreaps hdisjoint]
  rw [hupdated]
  tauto

theorem updated_cachedIn : ∀ e ∈ (t.cachedIn range).entries, t.tx.snapshot.updated e.1 = true := by
  intro e he
  have hmem : e ∈ t.tx.snapshot.pending.keys.entries := by
    rw [← t.shows]
    exact (mem_filter.mp he).1
  rw [DbCacheSnapshot.updated, SortedMap.has_iff.mpr ⟨e.2, hmem⟩, Bool.or_true]

theorem updated_pendingIn : ∀ e ∈ (t.pendingIn range).entries, t.tx.updated e.1 = true := by
  intro e he
  exact TreapTx.updated_of_pending (SearchTree.mem_keys.mpr ⟨e.2, (mem_filter.mp he).1⟩)

/-! ### Where the iterators stand -/

/-- Where the snapshot's iterator stands, ready to be moved in a direction. -/
def CacheOn (t : ScanTx) (range : KeyRange) (on : σ → Option Bytes → Prop) : Bool → CacheIter σ → Option Bytes → Prop :=
  TwoWay.On (t.ldbIn range) (t.cachedIn range) t.tx.snapshot.updated (fun _ => on)
    fun _ => Still t.cachedKeys range

/-- Where the cursor stands, ready to be moved in a direction. -/
def CursorOn (t : ScanTx) (range : KeyRange) (on : σ → Option Bytes → Prop) :
    Bool → ScanCursor σ → Option Bytes → Prop :=
  TwoWay.On (t.snapshotIn range) (t.pendingIn range) t.tx.updated (t.CacheOn range on)
    fun _ => Still t.tx.pendingKeys.root range

section Laws
variable {L} {on : σ → Option Bytes → Prop} {s₀ : σ} (hL : LevelIter L (t.ldbIn range) range.start on s₀)

include hL

theorem cache_walks : (t.cacheIter L).Walks (t.snapshotIn range) (t.CacheOn range on) :=
  TwoWay.walks_overlay hL.walks hL.mem (treap_walks t.ordered) updated_cachedIn fun _ => mem_snapshotIn

theorem cache_starts (hlimit : range.limit ≠ none) :
    (t.cacheIter L).Starts (t.snapshotIn range) (t.CacheOn range on) fun key => range.start ≤ key :=
  TwoWay.starts_overlay hL.walks hL.mem (treap_walks t.ordered) updated_cachedIn (fun _ => mem_snapshotIn)
    hL.starts (treap_starts t.ordered hlimit)

omit hL in
theorem cache_mem {s : CacheIter σ} {k : Bytes} (h : t.CacheOn range on d s (some k)) :
    ∃ v, (k, v) ∈ (t.snapshotIn range).entries :=
  TwoWay.On.mem (fun _ => mem_snapshotIn) h

theorem cursor_walks : (t.cursor L).Walks (t.liveIn range) (t.CursorOn range on) :=
  TwoWay.walks_overlay (cache_walks hL) cache_mem (treap_walks t.tx.pendingKeys.ordered) updated_pendingIn
    fun _ => mem_liveIn

theorem cursor_starts (hlimit : range.limit ≠ none) :
    (t.cursor L).Starts (t.liveIn range) (t.CursorOn range on) fun key => range.start ≤ key :=
  TwoWay.starts_overlay (cache_walks hL) cache_mem (treap_walks t.tx.pendingKeys.ordered) updated_pendingIn
    (fun _ => mem_liveIn) (cache_starts hL hlimit) (treap_starts t.tx.pendingKeys.ordered hlimit)

theorem newCursor_on (d : Bool) : t.CursorOn range on d (newCursor range s₀) none :=
  have hcache : t.CacheOn range on true ⟨s₀, .new (some range.start) range.limit, none⟩ none :=
    .nowhere (d := true) (e := true) rfl hL.new (still_new ..)
  .nowhere (d := true) (e := true) rfl hcache (still_new ..)

end Laws

/-! ### The calls -/

/-- What is shown after a call: its result, and `Key` and `Value`. -/
structure Shown where
  ok : Bool
  key : Option Bytes
  value : Option Bytes
deriving DecidableEq

/-- A slice from an index on, if the index is in range. -/
def sliceFrom (n : Nat) (bs : Bytes) : Option Bytes := if n ≤ bs.length then some (bs.drop n) else none

/-- `cursor.Key` and `cursor.Value` on an entry. There is nothing if they panic. -/
def shown (ok : Bool) : Option (Bytes × Bytes) → Option Shown
  | none => some ⟨ok, none, none⟩
  | some e =>
    if bucketIndexPrefix.isPrefixOf e.1 then
      (sliceFrom (bucketIndexPrefix.length + 4) e.1).map fun key => ⟨ok, some key, none⟩
    else (sliceFrom 4 e.1).map fun key => ⟨ok, some key, some e.2⟩

/-- A call of a cursor of the bucket with this ID. -/
def call (t : ScanTx) (L : TwoWay σ Bytes Bytes) (id : Bytes) (c : ScanCursor σ) : CursorCall Bytes → ScanCursor σ
  | .first => (t.cursor L).start true c
  | .last => (t.cursor L).start false c
  | .next => (t.cursor L).step true c
  | .prev => (t.cursor L).step false c
  | .seek key => (t.cursor L).seek (bucketizedKey id key) c

def answers (t : ScanTx) (L : TwoWay σ Bytes Bytes) (id : Bytes) :
    ScanCursor σ → List (CursorCall Bytes) → Option (List Shown)
  | _, [] => some []
  | c, call :: calls => do
    let c := t.call L id c call
    let head ← shown c.current.isSome ((t.cursor L).entry c)
    let rest ← answers t L id c calls
    return head :: rest

/-- A call with the bucket's ID before the key that is sought. -/
def rawCall (id : Bytes) : CursorCall Bytes → CursorCall Bytes
  | .seek key => .seek (bucketizedKey id key)
  | call => call

/-- What a cursor shows that goes through the entries of a bucket, whose keys begin with its ID. -/
def referenceAnswers (m : SortedMap Bytes Bytes) (id : Bytes) : Position Bytes → List (CursorCall Bytes) → List Shown
  | _, [] => []
  | pos, call :: calls =>
    let pos := pos.call m (rawCall id call)
    ⟨pos.key?.isSome, pos.key?.map (·.drop id.length), (pos.entry? m).map Prod.snd⟩ ::
      referenceAnswers m id pos calls

/-- The iterators that a step does not move are where its direction needs them. -/
def Straight (t : ScanTx) (L : TwoWay σ Bytes Bytes) (range : KeyRange) (forwards : Bool) (c : ScanCursor σ) : Prop :=
  c.current ≠ none →
    TwoWay.Aligned (t.cacheIter L) (treapTwoWay t.tx.pendingKeys.root) (t.snapshotIn range) (t.pendingIn range)
      t.tx.updated forwards c ∧
    TwoWay.Aligned L (treapTwoWay t.cachedKeys) (t.ldbIn range) (t.cachedIn range) t.tx.snapshot.updated forwards
      c.base

/-- The condition on a call. -/
def Fit (t : ScanTx) (L : TwoWay σ Bytes Bytes) (range : KeyRange) (c : ScanCursor σ) : CursorCall Bytes → Prop
  | .next => t.Straight L range true c
  | .prev => t.Straight L range false c
  | _ => True

/-- The calls of a run are all fit. -/
def FitRun (t : ScanTx) (L : TwoWay σ Bytes Bytes) (id : Bytes) : ScanCursor σ → List (CursorCall Bytes) → Prop
  | _, [] => True
  | c, call :: calls => t.Fit L (bytesPrefix id) c call ∧ FitRun t L id (t.call L id c call) calls

section Runs
variable {L} {on : σ → Option Bytes → Prop} {s₀ : σ} (hL : LevelIter L (t.ldbIn range) range.start on s₀)
  {forwards : Bool} {c : ScanCursor σ}

include hL

theorem CursorOn.straight (h : t.CursorOn range on forwards c k?) : t.Straight L range forwards c := by
  intro hcur
  refine ⟨TwoWay.On.aligned (cache_walks hL) (treap_walks _) h, ?_⟩
  cases h with
  | nowhere hnone => exact absurd hnone hcur
  | base _ hbase => exact TwoWay.On.aligned hL.walks (treap_walks t.ordered) hbase
  | upper _ _ _ hbase => exact TwoWay.On.aligned hL.walks (treap_walks t.ordered) hbase

theorem CursorOn.turn (h : t.CursorOn range on d c k?) (hstraight : t.Straight L range forwards c) :
    t.CursorOn range on forwards c k? := by
  by_cases hcur : c.current = none
  · cases h with
    | nowhere _ hbase hupper => exact .nowhere (e := d) hcur hbase hupper
    | base hsome => exact absurd (hcur.symm.trans hsome) (by simp)
    | upper hsome => exact absurd (hcur.symm.trans hsome) (by simp)
  · obtain ⟨houter, hinner⟩ := hstraight hcur
    refine TwoWay.On.turn (cache_walks hL) (treap_walks _) h houter (fun b? _ hb => ?_) fun u? hu => hu
    exact TwoWay.On.turn hL.walks (treap_walks t.ordered) hb hinner (fun _ _ hl => hl) fun _ hu => hu

/-- A cursor and the reference stand on the same key. -/
def Follows (t : ScanTx) (range : KeyRange) (on : σ → Option Bytes → Prop) (c : ScanCursor σ) (pos : Position Bytes) :
    Prop :=
  pos ≠ .fresh ∧ ∃ d, t.CursorOn range on d c pos.key?

variable {pos : Position Bytes}
variable (h : t.Follows range on c pos)
include h

theorem Follows.step (hfit : t.Straight L range forwards c) :
    t.Follows range on ((t.cursor L).step forwards c) (pos.move (t.liveIn range) forwards) := by
  obtain ⟨hfresh, d, hon⟩ := h
  have hon := CursorOn.turn hL hon hfit
  cases pos with
  | fresh => exact absurd rfl hfresh
  | exhausted =>
    refine ⟨hfresh, forwards, ?_⟩
    have hcur : c.current = none := by
      cases hon with
      | nowhere hcur => exact hcur
    have hstep : (t.cursor L).step forwards c = c := by simp only [cursor, TwoWay.overlay, hcur]
    rwa [hstep]
  | standing k =>
    refine ⟨Position.ofEntry_ne_fresh _, forwards, ?_⟩
    have hstep := (cursor_walks hL).step hon
    rwa [Position.move, Position.key?_ofEntry]

theorem Follows.start (hlimit : range.limit ≠ none) :
    t.Follows range on ((t.cursor L).start forwards c) (.start (t.liveIn range) forwards) := by
  obtain ⟨-, d, hon⟩ := h
  refine ⟨Position.ofEntry_ne_fresh _, forwards, ?_⟩
  rw [Position.start, Position.key?_ofEntry]
  exact (cursor_starts hL hlimit).start hon

theorem Follows.seek (hlimit : range.limit ≠ none) {key : Bytes} (hkey : range.start ≤ key) :
    t.Follows range on ((t.cursor L).seek key c) (pos.call (t.liveIn range) (.seek key)) := by
  obtain ⟨-, d, hon⟩ := h
  refine ⟨Position.ofEntry_ne_fresh _, true, ?_⟩
  rw [Position.call, Position.key?_ofEntry]
  exact (cursor_starts hL hlimit).seek hon hkey

/-- Standing on the same key they have the same entry to show. -/
theorem Follows.entry : (t.cursor L).entry c = pos.entry? (t.liveIn range) ∧ c.current.isSome = pos.key?.isSome ∧
      ∀ k ∈ pos.key?, ∃ v, (k, v) ∈ (t.liveIn range).entries := by
  obtain ⟨-, d, hon⟩ := h
  have hmem : ∀ k ∈ pos.key?, ∃ v, (k, v) ∈ (t.liveIn range).entries := by
    intro k hk
    rw [hk] at hon
    exact TwoWay.On.mem (fun _ => mem_liveIn) hon
  refine ⟨?_, ?_, hmem⟩
  · cases hk : pos.key? with
    | none =>
      rw [hk] at hon
      have hentry : (t.cursor L).entry c = none := Option.map_eq_none_iff.mp ((cursor_walks hL).key hon)
      rw [hentry, Position.entry?, hk]
      rfl
    | some k =>
      obtain ⟨v, hv⟩ := hmem k hk
      rw [hk] at hon
      rw [(cursor_walks hL).value (e := (k, v)) hon hv, Position.entry?, hk, Option.bind_some,
        SortedMap.get?_eq_some.mpr hv]
      rfl
  · generalize pos.key? = k? at hon
    cases hon with
    | nowhere hcur => simp [hcur]
    | base hcur => simp [hcur]
    | upper hcur => simp [hcur]

end Runs

section Bucket
variable {L} {id : Bytes} {on : σ → Option Bytes → Prop} {s₀ : σ}
  (hL : LevelIter L (t.ldbIn (bytesPrefix id)) id on s₀) (hlen : id.length = 4) (hname : id ≠ bucketIndexPrefix)
  (hlast : id ≠ [0xff, 0xff, 0xff, 0xff])

theorem prefixLimit_ne_none (hlen : id.length = 4) (hlast : id ≠ [0xff, 0xff, 0xff, 0xff]) : prefixLimit id ≠ none := by
  -- Only a prefix of bytes that cannot be incremented has no limit.
  have hall : ∀ {p}, prefixLimit p = none → ∀ b ∈ p, b = 0xff := by
    intro p
    induction p with
    | nil =>
      intro _ b hb
      cases hb
    | cons c cs ih =>
      intro hnone b hb
      rw [prefixLimit] at hnone
      cases hcs : prefixLimit cs with
      | some limit =>
        rw [hcs] at hnone
        cases hnone
      | none =>
        simp only [hcs] at hnone
        split_ifs at hnone with hc
        rcases mem_cons.mp hb with rfl | hb
        · exact le_antisymm (byte_le_max b) (not_lt.mp hc)
        · exact ih hcs b hb
  intro hnone
  refine hlast ?_
  rw [eq_replicate_of_mem (hall hnone), hlen]
  rfl

include hlen hname

/-- A key in the bucket's range is shown without the ID. -/
theorem shown_bucket (he : e ∈ (t.liveIn (bytesPrefix id)).entries) (ok : Bool) :
    shown ok (some e) = some ⟨ok, some (e.1.drop id.length), some e.2⟩ := by
  obtain ⟨rest, hrest⟩ := contains_bytesPrefix.mp (mem_filter.mp he).2
  have hnot : bucketIndexPrefix.isPrefixOf e.1 = false := by
    rw [Bool.eq_false_iff]
    intro hbegins
    rw [ isPrefixOf_iff_prefix, ← hrest] at hbegins
    have heq := prefix_of_prefix_length_le hbegins (prefix_append id rest) (by rw [hlen]; decide)
    exact hname (heq.eq_of_length (by rw [hlen]; rfl)).symm
  have hle : 4 ≤ e.1.length := by
    rw [← hrest, length_append]
    omega
  simp [shown, hnot, sliceFrom, hle, hlen]

include hL hlast

theorem Follows.answers {calls : List (CursorCall Bytes)} : ∀ {c} {pos},
    t.Follows (bytesPrefix id) on c pos → t.FitRun L id c calls →
    t.answers L id c calls = some (referenceAnswers (t.liveIn (bytesPrefix id)) id pos calls) := by
  have hlimit : (bytesPrefix id).limit ≠ none := prefixLimit_ne_none hlen hlast
  induction calls with
  | nil =>
    intro c pos h hfit
    rfl
  | cons call calls ih =>
    intro c pos h hfit
    obtain ⟨hcall, hrest⟩ := hfit
    have hfollows : t.Follows (bytesPrefix id) on (t.call L id c call)
        (pos.call (t.liveIn (bytesPrefix id)) (rawCall id call)) := by
      cases call with
      | first => exact Follows.start hL h hlimit
      | last => exact Follows.start hL h hlimit
      | next => exact Follows.step hL h hcall
      | prev => exact Follows.step hL h hcall
      | seek key =>
        exact Follows.seek hL h hlimit (prefix_iff_range.mp (prefix_append id key)).1
    obtain ⟨hentry, hok, hmem⟩ := Follows.entry hL hfollows
    rw [ScanTx.answers, referenceAnswers, ih hfollows hrest, hentry, hok]
    generalize pos.call (t.liveIn (bytesPrefix id)) (rawCall id call) = pos' at hmem
    cases hk : pos'.key? with
    | none => simp [Position.entry?, hk, shown]
    | some k =>
      obtain ⟨v, hv⟩ := hmem k hk
      simp [Position.entry?, hk, SortedMap.get?_eq_some.mpr hv, shown_bucket hlen hname hv]

end Bucket

/-- In every run whose steps are taken with the iterators where the direction needs them, a cursor over the
keys of a bucket is a cursor on the bucket's live entries. -/
theorem answers_eq_of_fitRun (t : ScanTx) {σ : Type} (L : TwoWay σ Bytes Bytes) (on : σ → Option Bytes → Prop)
    (s₀ : σ) (id : Bytes) (hL : LevelIter L (t.ldbIn (bytesPrefix id)) id on s₀) (hlen : id.length = 4)
    (hname : id ≠ bucketIndexPrefix) (hlast : id ≠ [0xff, 0xff, 0xff, 0xff]) (calls : List (CursorCall Bytes))
    (hfit : t.FitRun L id (newCursor (bytesPrefix id) s₀) calls) :
    t.answers L id (newCursor (bytesPrefix id) s₀) calls =
      some (referenceAnswers (t.liveIn (bytesPrefix id)) id .exhausted calls) :=
  Follows.answers hL hlen hname hlast ⟨by simp, true, newCursor_on hL true⟩ hfit

/-! ### One direction at a time -/

/-- Between two calls that position the cursor, all steps go the way it was positioned for. -/
def OneWay : Bool → List (CursorCall Bytes) → Bool
  | _, [] => true
  | _, .first :: calls => OneWay true calls
  | _, .last :: calls => OneWay false calls
  | _, .seek _ :: calls => OneWay true calls
  | d, .next :: calls => d && OneWay d calls
  | d, .prev :: calls => !d && OneWay d calls

section OneWay
variable {σ : Type} {t : ScanTx} {L : TwoWay σ Bytes Bytes} {on : σ → Option Bytes → Prop} {s₀ : σ} {id : Bytes}
  (hL : LevelIter L (t.ldbIn (bytesPrefix id)) id on s₀) (hlimit : (bytesPrefix id).limit ≠ none)

include hL

theorem CursorOn.step {c : ScanCursor σ} (h : t.CursorOn (bytesPrefix id) on d c k?) :
    ∃ k?, t.CursorOn (bytesPrefix id) on d ((t.cursor L).step d c) k? := by
  cases k? with
  | none =>
    have hcur : c.current = none := by
      cases h with
      | nowhere hcur => exact hcur
    have hstep : (t.cursor L).step d c = c := by simp only [cursor, TwoWay.overlay, hcur]
    rw [hstep]
    exact ⟨none, h⟩
  | some k => exact ⟨_, (cursor_walks hL).step h⟩

include hlimit

/-- A cursor that does not turn has its iterators where it needs them. -/
theorem fitRun_of_oneWay {calls : List (CursorCall Bytes)} : ∀ {d} {c} {k?},
    t.CursorOn (bytesPrefix id) on d c k? → OneWay d calls = true → t.FitRun L id c calls := by
  induction calls with
  | nil =>
    intro d c k? h hway
    trivial
  | cons call calls ih =>
    intro d c k? h hway
    cases call with
    | first => exact ⟨trivial, ih ((cursor_starts hL hlimit).start h) hway⟩
    | last => exact ⟨trivial, ih ((cursor_starts hL hlimit).start h) hway⟩
    | seek key =>
      have hkey : id ≤ bucketizedKey id key := (prefix_iff_range.mp (prefix_append id key)).1
      exact ⟨trivial, ih ((cursor_starts hL hlimit).seek h hkey) hway⟩
    | next =>
      obtain ⟨rfl, hway⟩ := Bool.and_eq_true_iff.mp hway
      obtain ⟨k', hstep⟩ := CursorOn.step hL h
      exact ⟨CursorOn.straight hL h, ih hstep hway⟩
    | prev =>
      obtain ⟨hd, hway⟩ := Bool.and_eq_true_iff.mp hway
      obtain rfl : d = false := by simpa using hd
      obtain ⟨k', hstep⟩ := CursorOn.step hL h
      exact ⟨CursorOn.straight hL h, ih hstep hway⟩

end OneWay

/-- The cursor on a map serves as a leveldb iterator. -/
theorem levelIter_ofMap (m : SortedMap Bytes Bytes) (start : Bytes) :
    LevelIter (.ofMap m) m start (TwoWay.OnMap m) .fresh where
  walks := TwoWay.walks_ofMap m
  starts := TwoWay.starts_ofMap m _
  mem h := h.2 _ rfl
  new := ⟨rfl, by simp⟩

theorem ordered_nilNode : (SearchTree.nil : TreapNode).Ordered := SearchTree.ordered_nil
theorem toMap_nilNode : (SearchTree.nil : TreapNode).toMap ordered_nilNode = .empty := rfl

/-- In a bucket, a key of leveldb and a pending one that is greater. -/
def oneEach : ScanTx where
  tx := (TreapTx.ofLdb (.insert .empty [0, 0, 0, 2, 1] [10])).putKey [0, 0, 0, 2, 2] [20] 0
  cachedKeys := .nil
  ordered := ordered_nilNode
  shows := toMap_nilNode

theorem answers_eq_of_fitRun_oneEach : oneEach.answers (.ofMap (oneEach.ldbIn (bytesPrefix [0, 0, 0, 2]))) [0, 0, 0, 2]
        (newCursor (bytesPrefix [0, 0, 0, 2]) .fresh) [.first, .next, .last, .prev, .prev] =
      some (referenceAnswers (oneEach.liveIn (bytesPrefix [0, 0, 0, 2])) [0, 0, 0, 2] .exhausted
        [.first, .next, .last, .prev, .prev]) := by
  have hL := levelIter_ofMap (oneEach.ldbIn (bytesPrefix [0, 0, 0, 2])) [0, 0, 0, 2]
  refine answers_eq_of_fitRun oneEach _ _ Position.fresh [0, 0, 0, 2] hL rfl (by decide) (by decide) _ ?_
  exact fitRun_of_oneWay hL (by decide) (newCursor_on hL true) rfl

/-- From the first key, a `Prev` goes to the second one. -/
theorem prev_goes_forwards : oneEach.answers (.ofMap (oneEach.ldbIn (bytesPrefix [0, 0, 0, 2]))) [0, 0, 0, 2]
        (newCursor (bytesPrefix [0, 0, 0, 2]) .fresh) [.first, .prev] =
      some [⟨true, some [1], some [10]⟩, ⟨true, some [2], some [20]⟩] ∧
    referenceAnswers (oneEach.liveIn (bytesPrefix [0, 0, 0, 2])) [0, 0, 0, 2] .exhausted [.first, .prev] =
      [⟨true, some [1], some [10]⟩, ⟨false, none, none⟩] := by
  constructor
  · decide
  · decide

end ScanTx
end NogoCommons.Ffldb
