import NogoCommons.Lib.TreeWalk
import NogoCommons.Treap.Iterator

/-!
# Where an iterator goes

`treapiter.go` has four ways to a node: the descent of `seek`, the two sides of the tree, and the step to
a neighbour. Each is a walk of `Lib.TreeWalk`, so that each comes to the nearest entry of some kind, with
the stack of its parents. What differs is where the limits are applied, and they are not applied
everywhere: `First` without a start key does not look at the limit key, and `Last` without a limit key does
not look at the start key. `answers_eq_iff` says for which treaps and calls this can be seen.
-/

namespace NogoCommons.Treap.Iterator
open Lib List

/-! ## The walks -/

theorem descend_eq (t : TreapNode) : ∀ k parents,
    descend t k parents = SearchTree.descend false t k parents := by
  induction t with
  | nil =>
    intro k parents
    rfl
  | node k' v p l r ihl ihr =>
    intro k parents
    exact ihl k' (k :: parents)

theorem descendRight_eq (t : TreapNode) : ∀ k parents,
    descendRight t k parents = SearchTree.descend true t k parents := by
  induction t with
  | nil =>
    intro k parents
    rfl
  | node k' v p l r ihl ihr =>
    intro k parents
    exact ihr k' (k :: parents)

theorem climb_eq (root : TreapNode) (parents : List Bytes) : ∀ k : Bytes,
    climb root k parents = SearchTree.climb true root k parents := by
  induction parents with
  | nil =>
    intro k
    rfl
  | cons parent parents ih =>
    intro k
    rw [climb, SearchTree.climb, ih]
    by_cases hside : (root.nodeAt parent).right.rootKey? = some k
    · exact (if_pos hside).trans (if_pos hside).symm
    · exact (if_neg hside).trans (if_neg hside).symm

theorem climbLeft_eq (root : TreapNode) (parents : List Bytes) : ∀ k : Bytes,
    climbLeft root k parents = SearchTree.climb false root k parents := by
  induction parents with
  | nil =>
    intro k
    rfl
  | cons parent parents ih =>
    intro k
    rw [climbLeft, SearchTree.climb, ih]
    by_cases hside : (root.nodeAt parent).left.rootKey? = some k
    · exact (if_pos hside).trans (if_pos hside).symm
    · exact (if_neg hside).trans (if_neg hside).symm

variable {key : Bytes} {root : TreapNode} {forwards : Bool} {it : Iterator}
section Seek
open SearchTree

/-- What a seek is for: the key itself if it is to match, and everything ahead of it. -/
def wanted (key : Bytes) (exactMatch greater : Bool) (k : Bytes) : Bool :=
  (exactMatch && k = key) || decide (Ahead greater key k)

variable {exactMatch greater : Bool} {k : Bytes}

theorem seekFrom_node {v : Bytes} {p : Nat} {l r : TreapNode} (parents : List Bytes)
    (selected : Option (Bytes × List Bytes)) :
    seekFrom key exactMatch greater (.node k v p l r) parents selected =
      if Ahead greater key k then
        seekFrom key exactMatch greater ((SearchTree.node k v p l r).toward !greater) (k :: parents)
          (some (k, parents))
      else if k = key ∧ exactMatch then some (k, parents)
      else seekFrom key exactMatch greater ((SearchTree.node k v p l r).toward greater) (k :: parents) selected := by
  rw [seekFrom]
  rcases lt_trichotomy key k with hlt | rfl | hgt
  · rw [if_pos hlt]
    cases greater with
    | false =>
      rw [if_neg (show ¬ Ahead false key k from hlt.not_gt), if_neg (show ¬ (k = key ∧ exactMatch = true) from fun h => hlt.ne' h.1)]
      rfl
    | true =>
      rw [if_pos (show Ahead true key k from hlt)]
      rfl
  · rw [if_neg (lt_irrefl key), if_neg (lt_irrefl key), if_neg (Ahead.irrefl key)]
    cases exactMatch with
    | false => cases greater <;> simp [toward, left, right]
    | true => simp
  · rw [if_neg hgt.not_gt, if_pos hgt]
    cases greater with
    | false =>
      rw [if_pos (show Ahead false key k from hgt)]
      rfl
    | true =>
      rw [if_neg (show ¬ Ahead true key k from hgt.not_gt), if_neg (show ¬ (k = key ∧ exactMatch = true) from fun h => hgt.ne h.1)]
      rfl

theorem wanted_of_ahead (h : Ahead greater key k) : wanted key exactMatch greater k = true := by
  simp [wanted, h]

theorem not_wanted_of_behind (h : Ahead greater k key) : wanted key exactMatch greater k = false := by
  simp [wanted, h.ne, h.asymm]

/-- What the descent has found when it has come to a place in the tree: nothing wanted is behind, all that
is ahead is wanted, and the nearest of it is selected. -/
structure Selecting (root : TreapNode) (key : Bytes) (exactMatch greater : Bool) (fs : List (Frame Bytes Bytes Nat))
    (selected : Option (Bytes × List Bytes)) : Prop where
  behind : ∀ e ∈ SearchTree.ahead (!greater) fs, wanted key exactMatch greater e.1 = false
  ahead : ∀ e ∈ SearchTree.ahead greater fs, wanted key exactMatch greater e.1 = true
  nearest : selected.map Prod.fst = (SearchTree.ahead greater fs).head?.map Prod.fst
  stands : ∀ s ∈ selected, root.Stands s.1 s.2

/-- What has been selected in the end is the nearest key that is wanted. -/
def Selects {root : TreapNode} (h : root.Ordered) (key : Bytes) (exactMatch greater : Bool)
    (selected : Option (Bytes × List Bytes)) : Prop :=
  selected.map Prod.fst = ((root.toMap h).nearest? greater (wanted key exactMatch greater)).map Prod.fst ∧
    ∀ s ∈ selected, root.Stands s.1 s.2

theorem seekFrom_selects (h : root.Ordered) (c : TreapNode) :
    ∀ fs {selected}, root = plug fs c →
      Selecting root key exactMatch greater fs selected →
      Selects h key exactMatch greater (seekFrom key exactMatch greater c (fs.map Frame.key) selected) := by
  induction c with
  | nil =>
    intro fs selected hroot hsel
    refine ⟨?_, hsel.stands⟩
    have hwalk : (root.toMap h).walk greater = (SearchTree.ahead (!greater) fs).reverse ++ SearchTree.ahead greater fs := by
      show root.walk greater = _
      rw [hroot, walk_plug, walk_nil, append_nil]
    rw [seekFrom, hsel.nearest, SortedMap.nearest?_eq_head? hwalk ?_ hsel.ahead]
    intro e he
    exact hsel.behind e (mem_reverse.mp he)
  | node k v p l r ihl ihr =>
    intro fs selected hroot hsel
    have hsub : (SearchTree.node k v p l r).Ordered := ordered_of_plug fs (hroot ▸ h)
    -- Whichever side the descent takes, the subtree has been dealt with.
    have deeper : ∀ forwards {f} {sel},
        SearchTree.node k v p l r = f.plug ((SearchTree.node k v p l r).toward forwards) → f.key = k →
        Selecting root key exactMatch greater (f :: fs) sel →
        Selects h key exactMatch greater (seekFrom key exactMatch greater
          ((SearchTree.node k v p l r).toward forwards) (k :: fs.map Frame.key) sel) := by
      intro forwards f sel hplug hkey hsel'
      have hroot' : root = plug (f :: fs) ((SearchTree.node k v p l r).toward forwards) := by
        rw [hroot, plug, ← hplug]
      rw [← hkey, ← map_cons]
      cases forwards with
      | false => exact ihl _ hroot' hsel'
      | true => exact ihr _ hroot' hsel'
    rw [seekFrom_node]
    split_ifs with hahead hexact
    · obtain ⟨f, hplug, hkey, hnone, hsome⟩ := exists_frame (!greater) k v p l r
      rw [Bool.not_not] at hsome
      refine deeper (!greater) hplug hkey ⟨?_, ?_, ?_, ?_⟩
      · rw [ahead_cons, hnone]
        exact hsel.behind
      · rw [ahead_cons, hsome]
        intro e he
        rcases mem_append.mp he with he | he
        · rcases mem_cons.mp he with rfl | he
          · exact wanted_of_ahead hahead
          · exact wanted_of_ahead (hahead.trans (ahead_of_toward greater hsub e (mem_walk.mp he)))
        · exact hsel.ahead e he
      · rw [ahead_cons, hsome]
        rfl
      · rintro s ⟨rfl⟩
        exact ⟨fs, v, p, l, r, hroot, rfl⟩
    · obtain ⟨rfl, hexact⟩ := hexact
      have hwalk : (root.toMap h).walk greater = ((SearchTree.ahead (!greater) fs).reverse ++
          ((SearchTree.node k v p l r).toward !greater).walk greater) ++ (k, v) ::
            (((SearchTree.node k v p l r).toward greater).walk greater ++ SearchTree.ahead greater fs) := by
        show root.walk greater = _
        rw [hroot, walk_plug, walk_node]
        simp only [append_assoc, cons_append]
      rw [Selects, SortedMap.nearest?_of_walk hwalk ?_ (by simp [wanted, hexact])]
      · refine ⟨rfl, ?_⟩
        rintro s ⟨rfl⟩
        exact ⟨fs, v, p, l, r, hroot, rfl⟩
      · intro e he
        rcases mem_append.mp he with he | he
        · exact hsel.behind e (mem_reverse.mp he)
        · exact not_wanted_of_behind (ahead_not.mp (ahead_of_toward (!greater) hsub e (mem_walk.mp he)))
    · obtain ⟨f, hplug, hkey, hnone, hsome⟩ := exists_frame greater k v p l r
      -- Neither is the key wanted nor what is on the side left behind.
      have hnot : ∀ x, x = k ∨ Ahead greater x k → wanted key exactMatch greater x = false := by
        intro x hx
        rcases ahead_trichotomy greater k key with hk | rfl | hk
        · rcases hx with rfl | hx
          · exact not_wanted_of_behind hk
          · exact not_wanted_of_behind (hx.trans hk)
        · rcases hx with rfl | hx
          · have hno : exactMatch = false := by
              cases exactMatch with
              | false => rfl
              | true => exact absurd ⟨rfl, rfl⟩ hexact
            simp [wanted, hno, Ahead.irrefl]
          · exact not_wanted_of_behind hx
        · exact absurd hk hahead
      refine deeper greater hplug hkey ⟨?_, ?_, ?_, hsel.stands⟩
      · rw [ahead_cons, hsome]
        intro e he
        rcases mem_append.mp he with he | he
        · rcases mem_cons.mp he with rfl | he
          · exact hnot k (.inl rfl)
          · exact hnot e.1 (.inr (ahead_not.mp (ahead_of_toward (!greater) hsub e (mem_walk.mp he))))
        · exact hsel.behind e he
      · rw [ahead_cons, hnone]
        exact hsel.ahead
      · rw [ahead_cons, hnone]
        exact hsel.nearest

end Seek

/-! ## The steps of an iterator -/

/-- The iterator is moved to a key, with the stack of the nodes above it; or it is exhausted. -/
def Goes (root : TreapNode) (it : Iterator) (k? : Option Bytes) (it' : Iterator) : Prop :=
  ∃ parents, it' = { it with node := k?, parents } ∧ ∀ k ∈ k?, root.Stands k parents

/-- `First` and `Last`. -/
def reset (forwards : Bool) (root : TreapNode) (it : Iterator) : Iterator :=
  if forwards then it.first root else it.last root

/-- `Next` and `Prev`. -/
def advance (forwards : Bool) (root : TreapNode) (it : Iterator) : Iterator :=
  if forwards then it.next root else it.prev root

/-- The key that `First` or `Last` seeks. -/
def bound (forwards : Bool) (it : Iterator) : Option Bytes := if forwards then it.startKey else it.limitKey

section Steps
variable (h : root.Ordered)

/-- A move that ends with the limits. -/
theorem goes_limitIterator {k? : Option Bytes} {parents : List Bytes} (hk : ∀ k ∈ k?, root.Stands k parents) :
    Goes root it (k?.filter it.inRange) (limitIterator { it with node := k?, parents }) := by
  refine ⟨parents, rfl, fun k hk' => ?_⟩
  exact hk k (Option.filter_eq_some_iff.mp hk').1

theorem seek_goes (key : Bytes) (exactMatch greater : Bool) (it : Iterator) :
    Goes root it ((((root.toMap h).nearest? greater (wanted key exactMatch greater)).map Prod.fst).filter it.inRange)
      (seek root key exactMatch greater it) := by
  have hstart : Selecting root key exactMatch greater [] none :=
    ⟨by simp [SearchTree.ahead], by simp [SearchTree.ahead], rfl, by simp⟩
  obtain ⟨hkey, hstands⟩ := seekFrom_selects h root [] rfl hstart
  rw [← hkey, seek]
  cases hseek : seekFrom key exactMatch greater root [] none with
  | none => exact ⟨[], by simp [hseek], by simp [hseek]⟩
  | some s =>
    rw [map_nil, hseek] at hstands ⊢
    refine goes_limitIterator fun k hk => ?_
    cases hk
    exact hstands s rfl

theorem reset_of_bound (hb : it.bound forwards = some key) :
    it.reset forwards root = seek root key forwards forwards { it with isNew := false } := by
  cases forwards with
  | false =>
    have hlimit : it.limitKey = some key := hb
    simp [reset, last, hlimit]
  | true =>
    have hstart : it.startKey = some key := hb
    simp [reset, first, hstart]

theorem reset_empty (hb : it.bound forwards = none) :
    it.reset forwards .nil = { it with isNew := false, parents := [] } := by
  cases forwards with
  | false =>
    have hlimit : it.limitKey = none := hb
    simp [reset, last, hlimit]
  | true =>
    have hstart : it.startKey = none := hb
    simp [reset, first, hstart]

/-- Without a key to seek, it is the first node in the direction, whatever the limit on the other side. -/
theorem reset_goes (hb : it.bound forwards = none) (hroot : root.keys ≠ []) :
    Goes root { it with isNew := false } (((root.toMap h).nearest? forwards fun _ => true).map Prod.fst)
      (it.reset forwards root) := by
  cases root with
  | nil => exact absurd rfl hroot
  | node k v p l r =>
    obtain ⟨k', parents, hdescend, hnearest, hstands⟩ := SearchTree.descend_root forwards h rfl
    rw [hnearest]
    refine ⟨parents, ?_, fun x hx => ?_⟩
    · cases forwards with
      | false =>
        have hlimit : it.limitKey = none := hb
        have hright : descendRight r k [] = (k', parents) := (descendRight_eq r k []).trans hdescend
        simp [reset, last, hlimit, hright]
      | true =>
        have hstart : it.startKey = none := hb
        have hleft : descend l k [] = (k', parents) := (descend_eq l k []).trans hdescend
        simp [reset, first, hstart, hleft]
    · cases hx
      exact hstands

include h in
theorem reset_valid (hb : it.bound forwards = none) (hroot : root.keys ≠ []) :
    (it.reset forwards root).valid = true := by
  obtain ⟨parents, hgoes, -⟩ := reset_goes h hb hroot
  rw [hgoes, valid, Option.isSome_iff_ne_none]
  intro hnone
  obtain ⟨k, hk⟩ := exists_mem_of_ne_nil _ hroot
  obtain ⟨v, hv⟩ := SearchTree.mem_keys.mp hk
  cases SortedMap.nearest?_eq_none.mp (Option.map_eq_none_iff.mp hnone) (k, v) hv

theorem advance_new (forwards : Bool) (hnew : it.isNew = true) : it.advance forwards root = it.reset forwards root := by
  cases forwards <;> simp [advance, next, prev, reset, hnew]

theorem advance_exhausted (hnew : it.isNew = false) (hnode : it.node = none) : it.advance forwards root = it := by
  cases forwards <;> simp [advance, next, prev, hnew, hnode]

theorem advance_reseek (hnew : it.isNew = false) (hnode : it.node = some k) (hseek : it.seekKey = some key) :
    it.advance forwards root = seek root key false forwards { it with seekKey := none } := by
  cases forwards <;> simp [advance, next, prev, hnew, hnode, hseek]

/-- A step from a node comes to the nearest key ahead of it, unless that is out of range. -/
theorem advance_goes (forwards : Bool) (hnew : it.isNew = false) (hnode : it.node = some k)
    (hseek : it.seekKey = none) (hk : root.Stands k it.parents) :
    Goes root it ((((root.toMap h).nearest? forwards fun x => decide (Ahead forwards k x)).map Prod.fst).filter
      it.inRange) (it.advance forwards root) := by
  obtain ⟨hnext, hstands⟩ := SearchTree.nextTo_spec forwards h hk
  have hstep : it.advance forwards root = limitIterator { it with
      node := (root.nextTo forwards k it.parents).1
      parents := (root.nextTo forwards k it.parents).2 } := by
    cases forwards with
    | false =>
      simp only [advance, prev, hnew, hnode, hseek, Bool.false_eq_true, if_false, SearchTree.nextTo, SearchTree.toward]
      cases hl : (root.nodeAt k).left with
      | nil => simp only [climbLeft_eq]
      | node k' v' p' l' r' => simp [descendRight_eq, SearchTree.right]
    | true =>
      simp only [advance, next, hnew, hnode, hseek, Bool.false_eq_true, if_false, if_true, SearchTree.nextTo,
        SearchTree.toward]
      cases hr : (root.nodeAt k).right with
      | nil => simp only [climb_eq]
      | node k' v' p' l' r' => simp [descend_eq, SearchTree.left]
  rw [hstep, ← hnext]
  exact goes_limitIterator hstands

end Steps

/-! ## `First` of a range -/

section First
variable (start : Bytes) (limit : Option Bytes) (hroot : root.Ordered)
include hroot

theorem first_goes : Goes root { new (some start) limit with isNew := false }
    ((((root.toMap hroot).nearest? true (wanted start true true)).map Prod.fst).filter (new (some start) limit).inRange)
    ((new (some start) limit).first root) :=
  seek_goes hroot start true true { new (some start) limit with isNew := false }

theorem unaware_first : ((new (some start) limit).first root).Unaware := by
  obtain ⟨parents, hfirst, -⟩ := first_goes start limit hroot
  rw [hfirst]
  exact ⟨rfl, rfl, fun k hk => (Option.filter_eq_some_iff.mp hk).2⟩

theorem inRange_first : ((new (some start) limit).first root).inRange = (new (some start) limit).inRange := by
  obtain ⟨parents, hfirst, -⟩ := first_goes start limit hroot
  rw [hfirst]
  rfl

/-- What the iterator will stand on are different nodes of the tree. -/
theorem visits_first : ((new (some start) limit).first root).visits.Nodup ∧
    ∀ k ∈ ((new (some start) limit).first root).visits, k ∈ root.keys := by
  obtain ⟨parents, hfirst, hstands⟩ := first_goes start limit hroot
  have hsub : ((new (some start) limit).first root).visits.Subperm root.keys := by
    rw [hfirst]
    unfold visits
    split
    · exact nil_subperm
    · rename_i k hk
      exact (takeWhile_sublist _).subperm.trans (hstands k hk).subperm
  have hnodup : root.keys.Nodup := pairwise_map.mpr (hroot.imp fun h => h.ne)
  obtain ⟨keys, hperm, hkeys⟩ := hsub
  exact ⟨hperm.nodup_iff.mp (hnodup.sublist hkeys), fun k hk => hkeys.subset (hperm.mem_iff.mpr hk)⟩

variable {start limit}

/-- A tree with a key in the range has a first one. -/
theorem visits_first_ne_nil (hkey : key ∈ root.keys)
    (hin : (new (some start) limit).inRange key = true) : ((new (some start) limit).first root).visits ≠ [] := by
  rw [inRange_new] at hin
  obtain ⟨v, hv⟩ := SearchTree.mem_keys.mp hkey
  have hwanted : ∀ k, wanted start true true k = true ↔ start ≤ k := by
    intro k
    rw [le_iff_eq_or_lt, eq_comm (a := start)]
    simp [wanted, Ahead]
  cases hnearest : (root.toMap hroot).nearest? true (wanted start true true) with
  | none => exact absurd ((hwanted key).mpr hin.1) (by simp [SortedMap.nearest?_eq_none.mp hnearest (key, v) hv])
  | some e =>
    obtain ⟨-, he, hfirst⟩ := SortedMap.nearest?_eq_some.mp hnearest
    have hle : e.1 ≤ key := not_lt.mp (hfirst (key, v) hv ((hwanted key).mpr hin.1))
    have hrange := inRange_new.mpr ⟨(hwanted e.1).mp he, fun l hl => hle.trans_lt (hin.2 l hl)⟩
    obtain ⟨parents, hgoes, -⟩ := first_goes start limit hroot
    rw [hgoes, hnearest, Option.map_some, Option.filter_some_pos hrange, visits_some rfl]
    exact (takeWhile_cons_of_pos (l := parents) hrange).symm ▸ cons_ne_nil _ _
end First

/-! ## An unmodified treap -/

theorem inRange_iff : it.inRange k = true ↔ (∀ start ∈ it.startKey, start ≤ k) ∧ ∀ limit ∈ it.limitKey, k < limit := by
  unfold inRange
  cases it.startKey <;> cases it.limitKey <;> simp

/-- What is between a key in the range and another one is in the range. -/
theorem inRange_between {x y z : Bytes} (hx : it.inRange x = true) (hxy : Ahead forwards x y)
    (hyz : Ahead forwards y z) (hz : it.inRange z = true) : it.inRange y = true := by
  rw [inRange_iff] at hx hz ⊢
  cases forwards with
  | false => exact ⟨fun s hs => (hz.1 s hs).trans (le_of_lt hyz), fun l hl => lt_trans hxy (hx.2 l hl)⟩
  | true => exact ⟨fun s hs => (hx.1 s hs).trans (le_of_lt hxy), fun l hl => hyz.trans (hz.2 l hl)⟩

/-- What is shown after a call: its result, and `Valid`, `Key` and `Value`. -/
structure Shown where
  ok : Bool
  valid : Bool
  key : Option Bytes
  value : Option Bytes
deriving DecidableEq

def call (root : TreapNode) (it : Iterator) : CursorCall Bytes → Bool × Iterator
  | .first => (it.firstOk root, it.first root)
  | .last => (it.lastOk root, it.last root)
  | .next => (it.nextOk root, it.next root)
  | .prev => (it.prevOk root, it.prev root)
  | .seek key => ((it.seekTo root key).valid, it.seekTo root key)

def answers (root : TreapNode) : Iterator → List (CursorCall Bytes) → List Shown
  | _, [] => []
  | it, c :: cs =>
    let (ok, it) := it.call root c
    ⟨ok, it.valid, it.key, it.value root⟩ :: answers root it cs

/-- What a cursor on a map shows. -/
def referenceAnswers (m : SortedMap Bytes Bytes) : Position Bytes → List (CursorCall Bytes) → List Shown
  | _, [] => []
  | pos, c :: cs =>
    let pos := pos.call m c
    ⟨pos.key?.isSome, pos.key?.isSome, pos.key?, (pos.entry? m).map Prod.snd⟩ :: referenceAnswers m pos cs

/-- The entries of the treap in the range. -/
def inside (root : TreapNode) (h : root.Ordered) (startKey limitKey : Option Bytes) : SortedMap Bytes Bytes :=
  (root.toMap h).filter (new startKey limitKey).inRange

/-- If there is no key to seek on the side a walk starts from, the treap is empty or has a key in the range. -/
def StartsInside (forwards : Bool) (root : TreapNode) (startKey limitKey : Option Bytes) : Prop :=
  (new startKey limitKey).bound forwards = none → root.keys ≠ [] →
    ∃ k ∈ root.keys, (new startKey limitKey).inRange k = true

section Reference
variable {h : root.Ordered} {startKey limitKey : Option Bytes} {pos : Position Bytes}

/-- The iterator stands where the cursor on the entries in the range does. -/
structure Agrees (root : TreapNode) (startKey limitKey : Option Bytes) (it : Iterator) (pos : Position Bytes) :
    Prop where
  start : it.startKey = startKey
  limit : it.limitKey = limitKey
  seekKey : it.seekKey = none
  isNew : it.isNew = true ↔ pos = .fresh
  node : it.node = pos.key?
  stands : ∀ k ∈ it.node, root.Stands k it.parents
  inRange : ∀ k ∈ it.node, (new startKey limitKey).inRange k = true

theorem Agrees.node_nil (ha : Agrees .nil startKey limitKey it pos) : it.node = none := by
  cases hn : it.node with
  | none => rfl
  | some k => cases (ha.stands k hn).mem

theorem filter_nearest {p : Bytes → Bool} (hp : ∀ x y, p x = true → p y = true → Ahead forwards x y →
    (new startKey limitKey).inRange y = true → (new startKey limitKey).inRange x = true) :
    (((root.toMap h).nearest? forwards p).map Prod.fst).filter (new startKey limitKey).inRange =
      ((inside root h startKey limitKey).nearest? forwards p).map Prod.fst := by
  rw [inside, SortedMap.nearest?_filter_of_convex hp]
  cases (root.toMap h).nearest? forwards p with
  | none => rfl
  | some e => cases hq : (new startKey limitKey).inRange e.1 <;> simp [Option.filter, hq]

section
variable (ha : Agrees root startKey limitKey it pos)
include ha

theorem Agrees.inRange_eq : it.inRange = (new startKey limitKey).inRange := by
  funext k
  rw [Iterator.inRange, ha.start, ha.limit]
  rfl

theorem Agrees.bound_eq (forwards : Bool) : it.bound forwards = (new startKey limitKey).bound forwards := by
  rw [bound, ha.start, ha.limit]
  rfl

/-- A move to an entry in the range, or to none, of both. -/
theorem Agrees.goes {e : Option (Bytes × Bytes)} (he : ∀ x ∈ e, x ∈ (inside root h startKey limitKey).entries)
    {it' : Iterator} (hgoes : Goes root { it with isNew := false } (e.map Prod.fst) it') :
    Agrees root startKey limitKey it' (.ofEntry e) := by
  obtain ⟨parents, rfl, hstands⟩ := hgoes
  refine ⟨ha.start, ha.limit, ha.seekKey, ?_, (Position.key?_ofEntry e).symm, hstands, fun k hk => ?_⟩
  · cases e <;> simp [Position.ofEntry]
  · obtain ⟨x, hx, rfl⟩ := Option.mem_map.mp hk
    exact (mem_filter.mp (he x hx)).2

end

theorem mem_inside {p : Bytes → Bool} :
    ∀ e ∈ (inside root h startKey limitKey).nearest? forwards p, e ∈ (inside root h startKey limitKey).entries :=
  fun _ he => (SortedMap.nearest?_eq_some.mp he).1

variable {x : Bytes} {c : CursorCall Bytes}

theorem Agrees.seek (ha : Agrees root startKey limitKey it pos) (h : root.Ordered) {exactMatch : Bool}
    (hconvex : ∀ x y, wanted key exactMatch forwards x = true →
      wanted key exactMatch forwards y = true → Ahead forwards x y → (new startKey limitKey).inRange y = true →
      (new startKey limitKey).inRange x = true) :
    Agrees root startKey limitKey (Iterator.seek root key exactMatch forwards { it with isNew := false })
      (.ofEntry ((inside root h startKey limitKey).nearest? forwards (wanted key exactMatch forwards))) := by
  refine ha.goes mem_inside ?_
  rw [← filter_nearest hconvex, ← ha.inRange_eq]
  exact seek_goes h key exactMatch forwards { it with isNew := false }

/-- The limit on the side a walk starts from is kept. -/
def Past (forwards : Bool) (startKey limitKey : Option Bytes) (x : Bytes) : Prop :=
  ∀ b ∈ (new startKey limitKey).bound forwards, if forwards then b ≤ x else x < b

/-- The limit on the other side is kept if it is kept further on. -/
theorem inRange_of_past {y : Bytes} (hx : Past forwards startKey limitKey x) (hxy : ¬ Ahead forwards y x)
    (hy : (new startKey limitKey).inRange y = true) : (new startKey limitKey).inRange x = true := by
  rw [inRange_iff] at hy ⊢
  cases forwards with
  | false => exact ⟨fun s hs => (hy.1 s hs).trans (not_lt.mp hxy), hx⟩
  | true => exact ⟨hx, fun l hl => (not_lt.mp hxy).trans_lt (hy.2 l hl)⟩

theorem past_of_wanted (hb : (new startKey limitKey).bound forwards = some key)
    (hx : wanted key forwards forwards x = true) : Past forwards startKey limitKey x := by
  intro b hb'
  cases hb.symm.trans hb'
  cases forwards with
  | false => simpa [wanted, Ahead] using hx
  | true =>
    have hor : x = key ∨ key < x := by simpa [wanted, Ahead] using hx
    rcases hor with rfl | hlt
    · exact le_rfl
    · exact hlt.le

/-- Everything in the range is wanted by the seek that a walk starts with. -/
theorem wanted_of_inRange (hb : (new startKey limitKey).bound forwards = some key)
    (hx : (new startKey limitKey).inRange x = true) : wanted key forwards forwards x = true := by
  rw [inRange_iff] at hx
  cases forwards with
  | false => exact wanted_of_ahead (hx.2 key hb)
  | true =>
    rcases (hx.1 key hb).lt_or_eq with hlt | rfl
    · exact wanted_of_ahead hlt
    · simp [wanted]

/-- The direction in which a call starts a walk, if it does. -/
def opens (pos : Position Bytes) : CursorCall Bytes → Option Bool
  | .first => some true
  | .last => some false
  | .next => if pos = .fresh then some true else none
  | .prev => if pos = .fresh then some false else none
  | .seek _ => none

section
variable (ha : Agrees root startKey limitKey it pos)
include ha

/-- `First` and `Last` go where the cursor does, if the walk starts in the range. -/
theorem Agrees.reset (forwards : Bool) (h : root.Ordered) (hin : StartsInside forwards root startKey limitKey) :
    Agrees root startKey limitKey (it.reset forwards root)
      (.start (inside root h startKey limitKey) forwards) := by
  have hbound := ha.bound_eq forwards
  rw [Position.start]
  cases hb : (new startKey limitKey).bound forwards with
  | some key =>
    rw [reset_of_bound (hbound.trans hb)]
    have hkind : ((inside root h startKey limitKey).nearest? forwards fun _ => true) =
        (inside root h startKey limitKey).nearest? forwards (wanted key forwards forwards) := by
      refine SortedMap.nearest?_congr fun e he => ?_
      exact (wanted_of_inRange hb (mem_filter.mp he).2).symm
    rw [hkind]
    exact ha.seek h fun x y hx _ hxy hy => inRange_of_past (past_of_wanted hb hx) hxy.asymm hy
  | none =>
    have hpast : ∀ x, Past forwards startKey limitKey x := fun x b hb' => by rw [hb] at hb'; cases hb'
    by_cases hroot : root.keys = []
    · obtain rfl : root = .nil := SearchTree.keys_eq_nil.mp hroot
      rw [reset_empty (hbound.trans hb)]
      have hnone : ((inside .nil h startKey limitKey).nearest? forwards fun _ => true) = none :=
        SortedMap.nearest?_eq_none.mpr (by simp [inside, SortedMap.filter, SearchTree.toMap, SearchTree.entries])
      rw [hnone]
      refine ha.goes (h := h) (by simp) ⟨[], ?_, by simp⟩
      simp [ha.node_nil]
    · -- The first key of all is in the range, since there is one in the range after it.
      obtain ⟨k, hk, hkin⟩ := hin hb hroot
      obtain ⟨v, hv⟩ := SearchTree.mem_keys.mp hk
      have hconvex : ∀ x y : Bytes, true = true → true = true → Ahead forwards x y →
          (new startKey limitKey).inRange y = true → (new startKey limitKey).inRange x = true :=
        fun x y _ _ hxy hy => inRange_of_past (hpast x) hxy.asymm hy
      have hgoes := reset_goes h (hbound.trans hb) hroot
      have hall : (((root.toMap h).nearest? forwards fun _ => true).map Prod.fst) =
          (((root.toMap h).nearest? forwards fun _ => true).map Prod.fst).filter
            (new startKey limitKey).inRange := by
        cases hn : (root.toMap h).nearest? forwards fun _ => true with
        | none => rfl
        | some e =>
          have hfirst := (SortedMap.nearest?_eq_some.mp hn).2.2 (k, v) hv rfl
          have hein := inRange_of_past (hpast e.1) hfirst hkin
          simp [Option.filter, hein]
      rw [hall, filter_nearest hconvex] at hgoes
      exact ha.goes mem_inside hgoes

/-- `Next` and `Prev` go where the cursor does, if a walk that starts does so in the range. -/
theorem Agrees.advance (forwards : Bool) (h : root.Ordered)
    (hin : pos = .fresh → StartsInside forwards root startKey limitKey) :
    Agrees root startKey limitKey (it.advance forwards root) (pos.move (inside root h startKey limitKey) forwards) := by
  have hnew : pos ≠ .fresh → it.isNew = false := by
    intro hpos
    cases hn : it.isNew with
    | false => rfl
    | true => exact absurd (ha.isNew.mp hn) hpos
  cases pos with
  | fresh =>
    rw [advance_new forwards (ha.isNew.mpr rfl)]
    exact ha.reset forwards h (hin rfl)
  | exhausted =>
    rwa [advance_exhausted (hnew (by simp)) ha.node]
  | standing k =>
    have hk := ha.inRange k ha.node
    have hgoes := advance_goes h forwards (hnew (by simp)) ha.node ha.seekKey (ha.stands k ha.node)
    rw [ha.inRange_eq, filter_nearest ?_] at hgoes
    · refine ha.goes mem_inside ?_
      rwa [← hnew (by simp)]
    · intro x y hx _ hxy hy
      exact inRange_between hk (of_decide_eq_true hx) hxy hy

theorem Agrees.call (h : root.Ordered) (hseek : ∀ key, c = .seek key → ∀ start ∈ startKey, start ≤ key)
    (hin : ∀ forwards ∈ opens pos c, StartsInside forwards root startKey limitKey) :
    Agrees root startKey limitKey (it.call root c).2 (pos.call (inside root h startKey limitKey) c) := by
  cases c with
  | first => exact ha.reset true h (hin true rfl)
  | last => exact ha.reset false h (hin false rfl)
  | next => exact ha.advance true h fun hpos => hin true (by simp [opens, hpos])
  | prev => exact ha.advance false h fun hpos => hin false (by simp [opens, hpos])
  | seek key =>
    have hkind : (fun k => decide (key ≤ k)) = wanted key true true := by
      funext k
      simp [wanted, Ahead, le_iff_eq_or_lt, eq_comm]
    show Agrees _ _ _ _ (.ofEntry (SortedMap.nearest? true (fun k => decide (key ≤ k)) _))
    rw [hkind]
    refine ha.seek h fun x y hx _ hxy hy => inRange_of_past ?_ hxy.asymm hy
    intro start hstart
    rw [← hkind] at hx
    exact (hseek key rfl start hstart).trans (of_decide_eq_true hx)

/-- The result of a call is that the iterator has become valid. -/
theorem Agrees.ok (h : root.Ordered) (c : CursorCall Bytes) : (it.call root c).1 = (it.call root c).2.valid := by
  -- `First` and `Last` return whether there is a root, unless they seek.
  have hreset : ∀ forwards, it.bound forwards = none → root.rootKey?.isSome = (it.reset forwards root).valid := by
    intro forwards hb
    cases hr : root with
    | nil =>
      subst hr
      rw [reset_empty hb]
      simp [valid, ha.node_nil, SearchTree.rootKey?]
    | node k v p l r =>
      rw [← hr, reset_valid h hb (by simp [hr]), hr]
      rfl
  have hfirst : it.firstOk root = (it.first root).valid := by
    unfold firstOk
    cases hs : it.startKey with
    | some key => rfl
    | none => exact hreset true hs
  have hlast : it.lastOk root = (it.last root).valid := by
    unfold lastOk
    cases hl : it.limitKey with
    | some key => rfl
    | none => exact hreset false hl
  cases c with
  | first => exact hfirst
  | last => exact hlast
  | next =>
    show it.nextOk root = (it.next root).valid
    cases hnew : it.isNew <;> simp [nextOk, next, hnew, hfirst]
  | prev =>
    show it.prevOk root = (it.prev root).valid
    cases hnew : it.isNew <;> simp [prevOk, prev, hnew, hlast]
  | seek key => rfl

/-- A walk that does not start in the range stands on a key where the cursor is exhausted. -/
theorem Agrees.key_ne (h : root.Ordered) (hopens : opens pos c = some forwards)
    (hin : ¬ StartsInside forwards root startKey limitKey) :
    (it.call root c).2.key ≠ (pos.call (inside root h startKey limitKey) c).key? := by
  obtain ⟨hb, hroot, hout⟩ : (new startKey limitKey).bound forwards = none ∧ root.keys ≠ [] ∧
      ∀ k ∈ root.keys, (new startKey limitKey).inRange k = false := by
    unfold StartsInside at hin
    push Not at hin
    obtain ⟨hb, hroot, hout⟩ := hin
    exact ⟨hb, hroot, fun k hk => by simpa using hout k hk⟩
  have hempty : ∀ e ∈ (inside root h startKey limitKey).entries, False := by
    intro e he
    obtain ⟨hmem, hq⟩ := mem_filter.mp he
    exact Bool.false_ne_true ((hout e.1 (SearchTree.mem_keys.mpr ⟨e.2, hmem⟩)).symm.trans hq)
  have hpos : (Position.start (inside root h startKey limitKey) forwards).key? = none := by
    rw [Position.start, SortedMap.nearest?_eq_none.mpr fun e he => (hempty e he).elim]
    rfl
  have hkey : (it.reset forwards root).key ≠ none :=
    Option.isSome_iff_ne_none.mp (reset_valid h ((ha.bound_eq forwards).trans hb) hroot)
  -- It is `First` or `Last` that is carried out.
  have hcall : (it.call root c).2 = it.reset forwards root ∧
      pos.call (inside root h startKey limitKey) c = .start (inside root h startKey limitKey) forwards := by
    cases c with
    | first | last =>
      cases hopens
      exact ⟨rfl, rfl⟩
    | next =>
      rw [opens] at hopens
      split_ifs at hopens with hfresh
      cases hopens
      subst hfresh
      exact ⟨advance_new true (ha.isNew.mpr rfl), rfl⟩
    | prev =>
      rw [opens] at hopens
      split_ifs at hopens with hfresh
      cases hopens
      subst hfresh
      exact ⟨advance_new false (ha.isNew.mpr rfl), rfl⟩
    | seek key => cases hopens
  rwa [hcall.1, hcall.2, hpos]

/-- What is shown is the same where the positions agree. -/
theorem Agrees.shown (h : root.Ordered) : it.valid = pos.key?.isSome ∧ it.key = pos.key? ∧
      it.value root = (pos.entry? (inside root h startKey limitKey)).map Prod.snd := by
  refine ⟨by rw [valid, ha.node], ha.node, ?_⟩
  rw [value, Position.entry?, ← ha.node]
  cases hnode : it.node with
  | none => rfl
  | some k =>
    have hget : (inside root h startKey limitKey).get? k = root.find? k := by
      rw [inside, SortedMap.get?_filter, if_pos (ha.inRange k hnode), SearchTree.get?_toMap]
    simp only [Option.bind_some, hget, Option.map_map]
    cases root.find? k <;> rfl

end

/-- The calls of a sequence that start a walk in a direction, from a position on. -/
def Opens (forwards : Bool) (pos : Position Bytes) (calls : List (CursorCall Bytes)) : Prop :=
  (if forwards then CursorCall.first else .last) ∈ calls ∨
    pos = .fresh ∧ calls.head? = some (if forwards then .next else .prev)

theorem opens_cons {m : SortedMap Bytes Bytes} {cs : List (CursorCall Bytes)} :
    Opens forwards pos (c :: cs) ↔ opens pos c = some forwards ∨ Opens forwards (pos.call m c) cs := by
  have hfresh := Position.call_ne_fresh (m := m) pos c
  simp only [Opens, hfresh, false_and, or_false, mem_cons, head?_cons, Option.some.injEq]
  cases forwards <;> cases c <;> by_cases hpos : pos = .fresh <;> simp [opens, hpos]

theorem Agrees.answers_eq_iff (h : root.Ordered) {calls : List (CursorCall Bytes)} :
    ∀ {it} {pos}, Agrees root startKey limitKey it pos →
      (∀ key, .seek key ∈ calls → ∀ start ∈ startKey, start ≤ key) →
      (it.answers root calls = referenceAnswers (inside root h startKey limitKey) pos calls ↔
        ∀ forwards, Opens forwards pos calls → StartsInside forwards root startKey limitKey) := by
  induction calls with
  | nil =>
    intro it pos ha hseek
    refine iff_of_true rfl fun forwards hopens => ?_
    rcases hopens with hopens | ⟨-, hopens⟩ <;> cases hopens
  | cons c cs ih =>
    intro it pos ha hseek
    simp only [opens_cons (m := inside root h startKey limitKey)]
    by_cases hin : ∀ forwards ∈ opens pos c, StartsInside forwards root startKey limitKey
    · have ha' := ha.call h (fun key hkey => hseek key (hkey ▸ mem_cons_self)) hin
      obtain ⟨hvalid, hkey, hvalue⟩ := ha'.shown h
      have hhead := ha.ok h c
      rw [answers, referenceAnswers]
      simp only [hhead, hvalid, hkey, hvalue, List.cons.injEq, true_and]
      rw [ih ha' fun key hmem => hseek key (mem_cons_of_mem _ hmem)]
      constructor
      · rintro hrest forwards (hopens | hopens)
        · exact hin forwards hopens
        · exact hrest forwards hopens
      · intro hall forwards hopens
        exact hall forwards (.inr hopens)
    · push Not at hin
      obtain ⟨forwards, hopens, hout⟩ := hin
      refine iff_of_false (fun heq => ?_) fun hall => hout (hall forwards (.inl hopens))
      rw [answers, referenceAnswers] at heq
      exact ha.key_ne h hopens hout (congrArg Shown.key (List.cons.inj heq).1)

end Reference

theorem agrees_new (root : TreapNode) (startKey limitKey : Option Bytes) :
    Agrees root startKey limitKey (new startKey limitKey) .fresh :=
  ⟨rfl, rfl, rfl, iff_of_true rfl rfl, rfl, by simp [new], by simp [new]⟩

/-- An iterator over an unmodified treap is a cursor on the entries in its range exactly if every walk
that is started without a key to seek starts in the range. -/
theorem answers_eq_referenceAnswers_iff (root : TreapNode) (h : root.Ordered) (startKey limitKey : Option Bytes)
    (calls : List (CursorCall Bytes)) (hseek : ∀ key, .seek key ∈ calls → ∀ start ∈ startKey, start ≤ key) :
    (new startKey limitKey).answers root calls = referenceAnswers (inside root h startKey limitKey) .fresh calls ↔
      ∀ forwards, Opens forwards .fresh calls → StartsInside forwards root startKey limitKey :=
  (agrees_new root startKey limitKey).answers_eq_iff h hseek

/-- A treap of two nodes, with one of them in the range. -/
theorem answers_eq_referenceAnswers_two :
    let root : TreapNode := .node [3] [30] 0 .nil (.node [7] [70] 1 .nil .nil)
    ∃ h : root.Ordered, (new none (some [5])).answers root [.next, .next, .seek [3], .prev, .first] =
      referenceAnswers (inside root h none (some [5])) .fresh [.next, .next, .seek [3], .prev, .first] := by
  intro root
  have h : root.Ordered := by
    show Pairwise _ [([3], [30]), ([7], [70])]
    decide
  refine ⟨h, (answers_eq_referenceAnswers_iff _ h none (some [5]) _ (by simp)).mpr ?_⟩
  intro forwards _ _ _
  exact ⟨[3], by decide, by decide⟩

/-- A treap of one node that is not in the range: `First` stands on it, and so does `Next` on a new iterator;
the other way round it is `Last` and `Prev`. -/
theorem stands_out_of_range :
    let root : TreapNode := .node [7] [70] 0 .nil .nil
    (∃ h : root.Ordered, ∀ c ∈ [CursorCall.first, .next],
      (new none (some [5])).answers root [c] = [⟨true, true, some [7], some [70]⟩] ∧
      referenceAnswers (inside root h none (some [5])) .fresh [c] = [⟨false, false, none, none⟩]) ∧
    ∃ h : root.Ordered, ∀ c ∈ [CursorCall.last, .prev],
      (new (some [8]) none).answers root [c] = [⟨true, true, some [7], some [70]⟩] ∧
      referenceAnswers (inside root h (some [8]) none) .fresh [c] = [⟨false, false, none, none⟩] := by
  refine ⟨⟨pairwise_singleton .., ?_⟩, ⟨pairwise_singleton .., ?_⟩⟩
  · decide
  · decide

end NogoCommons.Treap.Iterator
