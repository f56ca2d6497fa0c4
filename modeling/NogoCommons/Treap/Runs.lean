import NogoCommons.Lib.HeapOrder
import NogoCommons.Lib.Transition
import NogoCommons.Treap.Immutable

/-!
# Treaps over whole runs

What `Put` and `Delete` do to a heap has been said once, in `Shows` and `Extends`. Three things follow for
whoever goes on calling them.

A treap of either kind is a finite map, whatever priorities are drawn and however deep it gets. Its nodes
are in heap order as long as no `Delete` meets subtrees that are not `Even`; the first one that does
breaks the order, because the loop that rotates the doomed node down asks for the child of the *higher*
priority. And the versions of an immutable treap stay what they were: no later call writes a node that one
of them has, and none of these nodes is in the pool.
-/

namespace NogoCommons.Treap.Linked
open Lib List

/-! ## The tree a header leads to -/

/-- The nodes from a pointer on, as a tree. -/
def readNode (cells : Cells) : Nat → Option Loc → TreapNode
  | 0, _ => .nil
  | _ + 1, none => .nil
  | n + 1, some node =>
    .node (cells node).key (cells node).value (cells node).priority (readNode cells n (cells node).left)
      (readNode cells n (cells node).right)

def Header.tree (t : Header) (h : NodeHeap) : TreapNode := readNode h.cells (rounds h) t.root

variable {t : Header} {s : PlacedNode}

theorem readNode_root {cells : Cells} (hs : s.Holds cells) :
    ∀ {n}, s.addrs.length < n → readNode cells n s.root = s.plain := by
  induction s with
  | nil =>
    intro n hn
    cases n <;> rfl
  | node k va p l r ihl ihr =>
    intro n hn
    obtain ⟨hcell, hl, hr⟩ := hs
    cases n with
    | zero => exact absurd hn (Nat.not_lt_zero _)
    | succ n =>
      rw [SearchTree.addrs_node, length_append, length_cons] at hn
      rw [SearchTree.root_node, readNode, hcell]
      rw [ihl hl (by omega), ihr hr (by omega), SearchTree.plain]

theorem Header.Shows.tree {h : NodeHeap} (ht : t.Shows h s) : t.tree h = s.plain := by
  have hlen := ht.length_le
  rw [Header.tree, ht.root]
  exact readNode_root ht.holds (by rw [rounds]; omega)

/-! ## One call after the other -/

inductive Op where
  | put (kvPairs : List Immutable.KVPair)
  | delete (key : Bytes)
  | get (key : Bytes)
  | has (key : Bytes)
  | len
  | size
  /-- The function that is called for the entries goes on or not, by the calls it has had. -/
  | forEach (goOn : List (Bytes × Bytes) → Bool)

inductive Answer where
  | done
  | value (value : Option Bytes)
  | has (found : Bool)
  | len (count : Nat)
  | size (totalSize : UInt64)
  | calls (entries : List (Bytes × Bytes))
deriving DecidableEq

/-- The calls that change a treap. -/
structure Updates where
  put : Header → List Immutable.KVPair → NodeHeap → Option (Header × NodeHeap)
  delete : Header → Bytes → NodeHeap → Option (Header × NodeHeap)

/-- `Put` of a mutable treap, for one pair after the other. -/
def Mutable.putEach (t : Header) : List Immutable.KVPair → NodeHeap → Option (Header × NodeHeap)
  | [], h => some (t, h)
  | kv :: kvPairs, h =>
    match Mutable.put t kv.key kv.value kv.priority h with
    | none => none
    | some (t, h) => putEach t kvPairs h

def Mutable.updates : Updates := ⟨putEach, delete⟩
def Immutable.updates : Updates := ⟨putAll, delete⟩

/-- The function handed to `ForEach` notes its calls. -/
def noteCall (goOn : List (Bytes × Bytes) → Bool) (k v : Bytes) (calls : List (Bytes × Bytes)) :
    Bool × List (Bytes × Bytes) :=
  (goOn (calls ++ [(k, v)]), calls ++ [(k, v)])

/-- One call, on the treap that the last one left or returned. -/
def Updates.apply (u : Updates) (t : Header) (h : NodeHeap) : Op → Option (Answer × Header × NodeHeap)
  | .put kvPairs => (u.put t kvPairs h).map fun r => (.done, r)
  | .delete key => (u.delete t key h).map fun r => (.done, r)
  | .get key => (t.get h key).map fun value => (.value value, t, h)
  | .has key => (t.has h key).map fun found => (.has found, t, h)
  | .len => some (.len t.len, t, h)
  | .size => some (.size t.size, t, h)
  | .forEach goOn => (t.forEach h (noteCall goOn) []).map fun calls => (.calls calls, t, h)

/-- The answers of a sequence of calls. -/
def Updates.answers (u : Updates) : List Op → Header → NodeHeap → Option (List Answer)
  | [], _, _ => some []
  | op :: ops, t, h =>
    match u.apply t h op with
    | none => none
    | some (answer, t, h) => (u.answers ops t h).map (answer :: ·)

/-! ## The finite map -/

/-- The entries from the first on, up to the one after which the caller has seen enough. -/
def shownTo (goOn : List (Bytes × Bytes) → Bool) (seen : List (Bytes × Bytes)) :
    List (Bytes × Bytes) → List (Bytes × Bytes)
  | [] => seen
  | e :: es => if goOn (seen ++ [e]) then shownTo goOn (seen ++ [e]) es else seen ++ [e]

/-- What a finite map answers, and the map after the call. -/
def mapApply (m : SortedMap Bytes Bytes) : Op → Answer × SortedMap Bytes Bytes
  | .put kvPairs => (.done, kvPairs.foldl (fun m kv => m.insert kv.key (kv.value.getD [])) m)
  | .delete key => (.done, m.erase key)
  | .get key => (.value (m.get? key), m)
  | .has key => (.has (m.has key), m)
  | .len => (.len m.entries.length, m)
  | .size => (.size (UInt64.ofNat (entriesSize m.entries)), m)
  | .forEach goOn => (.calls (shownTo goOn [] m.entries), m)

def mapAnswers : List Op → SortedMap Bytes Bytes → List Answer
  | [], _ => []
  | op :: ops, m => (mapApply m op).1 :: mapAnswers ops (mapApply m op).2

section Map
open SearchTree Immutable

theorem visit_noteCall (goOn : List (Bytes × Bytes) → Bool) (es : List (Bytes × Bytes)) :
    ∀ seen, visit (noteCall goOn) es seen = shownTo goOn seen es := by
  induction es with
  | nil =>
    intro seen
    rfl
  | cons e es ih =>
    intro seen
    rw [visit, shownTo, noteCall]
    cases goOn (seen ++ [e]) with
    | false => rfl
    | true => exact ih _

theorem Ordered.putPlain {kvPairs : List KVPair} : ∀ {s}, s.Ordered → (putPlain s kvPairs).Ordered := by
  induction kvPairs with
  | nil =>
    intro s hs
    exact hs
  | cons kv kvPairs ih =>
    intro s hs
    exact ih (hs.put kv.key _ kv.priority _)

theorem toMap_putPlain {kvPairs : List KVPair} : ∀ {s} hs,
    (putPlain s kvPairs).toMap (Ordered.putPlain hs) =
      kvPairs.foldl (fun m kv => m.insert kv.key (kv.value.getD [])) (s.toMap hs) := by
  induction kvPairs with
  | nil =>
    intro s hs
    rfl
  | cons kv kvPairs ih =>
    intro s hs
    rw [foldl_cons, ← toMap_put hs kv.key (kv.value.getD []) kv.priority (s.find? kv.key).isNone]
    exact ih (hs.put kv.key _ kv.priority _)

end Map

/-- The calls return, and leave the trees of the recursive `put` and `delete`. -/
structure Updates.Correct (u : Updates) : Prop where
  put : ∀ {t : Header} {h : NodeHeap} {s : PlacedNode}, h.Sound → t.Shows h s → ∀ kvPairs,
    ∃ t' h' s', u.put t kvPairs h = some (t', h') ∧ h'.Sound ∧ t'.Shows h' s' ∧
      s'.plain = putPlain s.plain kvPairs
  delete : ∀ {t : Header} {h : NodeHeap} {s : PlacedNode}, h.Sound → t.Shows h s → ∀ key,
    ∃ t' h' s', u.delete t key h = some (t', h') ∧ h'.Sound ∧ t'.Shows h' s' ∧ s'.plain = s.plain.delete key

variable {kvPairs : List Immutable.KVPair}

theorem Mutable.putEach_shows : ∀ {t} {h} {s}, h.Sound → t.Shows h s →
      ∃ t' h' s', putEach t kvPairs h = some (t', h') ∧ h'.Sound ∧ t'.Shows h' s' ∧
        s'.plain = putPlain s.plain kvPairs := by
  induction kvPairs with
  | nil =>
    intro t h s hs ht
    exact ⟨t, h, s, rfl, hs, ht, rfl⟩
  | cons kv kvPairs ih =>
    intro t h s hs ht
    obtain ⟨t₁, h₁, s₁, hput, ht₁, hplain, hext⟩ := put_shows hs ht kv.key kv.value kv.priority
    obtain ⟨t', h', s', hrest, hs', ht', hplain'⟩ := ih hext.sound ht₁
    refine ⟨t', h', s', ?_, hs', ht', ?_⟩
    · rwa [putEach, hput]
    · rw [hplain', hplain]
      rfl

theorem Mutable.correct : updates.Correct where
  put := by
    intro t h s hs ht kvPairs
    exact putEach_shows hs ht
  delete := by
    intro t h s hs ht key
    obtain ⟨t', h', s', hdelete, ht', hplain, hext⟩ := delete_shows hs ht key
    exact ⟨t', h', s', hdelete, hext.sound, ht', hplain⟩

theorem Immutable.correct : updates.Correct where
  put := by
    intro t h s hs ht kvPairs
    obtain ⟨t', h', s', hput, ht', hplain, hext⟩ := putAll_shows hs ht kvPairs
    exact ⟨t', h', s', hput, hext.sound, ht', hplain⟩
  delete := by
    intro t h s hs ht key
    obtain ⟨t', h', s', hdelete, ht', hplain, hext⟩ := delete_shows hs ht key
    exact ⟨t', h', s', hdelete, hext.sound, ht', hplain⟩

section Answers
open SearchTree
variable {u : Updates} {h : NodeHeap}

/-- One call answers what the map of the entries does, and leaves the map's new entries. -/
theorem Updates.Correct.apply (hu : u.Correct) (hs : h.Sound) (ht : t.Shows h s) {m : SortedMap Bytes Bytes}
    (hm : s.plain.entries = m.entries) (op : Op) :
    ∃ t' h' s', u.apply t h op = some ((mapApply m op).1, t', h') ∧ h'.Sound ∧ t'.Shows h' s' ∧
      s'.plain.entries = (mapApply m op).2.entries := by
  have hordered := ordered_plain.mpr ht.ordered
  obtain rfl : s.plain.toMap hordered = m := SortedMap.ext hm
  cases op with
  | put kvPairs =>
    obtain ⟨t', h', s', hput, hs', ht', hplain⟩ := hu.put hs ht kvPairs
    refine ⟨t', h', s', ?_, hs', ht', ?_⟩
    · rw [Updates.apply, hput]
      rfl
    · rw [hplain]
      exact congrArg SortedMap.entries (toMap_putPlain hordered)
  | delete key =>
    obtain ⟨t', h', s', hdelete, hs', ht', hplain⟩ := hu.delete hs ht key
    refine ⟨t', h', s', ?_, hs', ht', ?_⟩
    · rw [Updates.apply, hdelete]
      rfl
    · rw [hplain]
      exact congrArg SortedMap.entries (toMap_delete hordered key)
  | get key =>
    refine ⟨t, h, s, ?_, hs, ht, rfl⟩
    rw [Updates.apply, ht.get, mapApply, get?_toMap]
    rfl
  | has key =>
    refine ⟨t, h, s, ?_, hs, ht, rfl⟩
    rw [Updates.apply, ht.has, mapApply, SortedMap.has, get?_toMap]
    rfl
  | len =>
    refine ⟨t, h, s, ?_, hs, ht, rfl⟩
    rw [Updates.apply, Header.len, ht.count]
    rfl
  | size =>
    refine ⟨t, h, s, ?_, hs, ht, rfl⟩
    rw [Updates.apply, Header.size, ht.totalSize]
    rfl
  | forEach goOn =>
    refine ⟨t, h, s, ?_, hs, ht, rfl⟩
    rw [Updates.apply, ht.forEach, visit_noteCall]
    rfl

theorem Updates.Correct.answers (hu : u.Correct) {ops : List Op} :
    ∀ {t} {h} {s} {m}, h.Sound → t.Shows h s →
      s.plain.entries = m.entries → u.answers ops t h = some (mapAnswers ops m) := by
  induction ops with
  | nil =>
    intro t h s m hs ht hm
    rfl
  | cons op ops ih =>
    intro t h s m hs ht hm
    obtain ⟨t', h', s', happly, hs', ht', hm'⟩ := hu.apply hs ht hm op
    rw [Updates.answers, happly, mapAnswers]
    simp only [ih hs' ht' hm', Option.map_some]

end Answers

/-- Both treaps are finite maps, on every heap and for all priorities. -/
theorem answers_eq_mapAnswers (h : NodeHeap) (hs : h.Sound) (ops : List Op) :
    Mutable.updates.answers ops .empty h = some (mapAnswers ops .empty) ∧
      Immutable.updates.answers ops .empty h = some (mapAnswers ops .empty) :=
  ⟨Mutable.correct.answers hs (.empty h) rfl, Immutable.correct.answers hs (.empty h) rfl⟩

/-- A treap of three nodes, the first of them from the pool. -/
theorem answers_eq_mapAnswers_three :
    let h : NodeHeap := ⟨fun _ => ⟨[], [], 0, none, none⟩, 1, [0], [0]⟩
    let ops : List Op := [.put [⟨[2], some [20], 0⟩, ⟨[1], none, 1⟩, ⟨[3], some [30], 2⟩], .delete [2], .get [3],
      .size, .forEach fun _ => true]
    Mutable.updates.answers ops .empty h = some (mapAnswers ops .empty) ∧
      Immutable.updates.answers ops .empty h = some (mapAnswers ops .empty) :=
  answers_eq_mapAnswers _ ⟨by simp, by simp⟩ _

/-! ## Runs -/

/-- The calls that make a treap another one. -/
inductive Change where
  | put (kvPairs : List Immutable.KVPair)
  | delete (key : Bytes)

def Updates.change (u : Updates) (t : Header) (h : NodeHeap) : Change → Option (Header × NodeHeap)
  | .put kvPairs => u.put t kvPairs h
  | .delete key => u.delete t key h

/-- What the recursive `put` and `delete` make of a tree. -/
def Change.plain (s : TreapNode) : Change → TreapNode
  | .put kvPairs => putPlain s kvPairs
  | .delete key => s.delete key

/-- The subtrees of the node that a `Delete` is for are even. -/
def Change.EvenDelete (s : TreapNode) : Change → Prop
  | .put _ => True
  | .delete key => SearchTree.Even (s.nodeAt key).left (s.nodeAt key).right

/-- A mutable treap, changed in place. -/
def Mutable.next (m : Header × NodeHeap) (c : Change) : Option (Header × NodeHeap) := updates.change m.1 m.2 c

/-- All versions of an immutable treap that have been returned. -/
structure Versions where
  heap : NodeHeap
  versions : List Header

namespace Versions

/-- A new version, made from the one with this number. -/
def next (w : Versions) (l : Nat × Change) : Option Versions :=
  match w.versions[l.1]? with
  | none => none
  | some t => (Immutable.updates.change t w.heap l.2).map fun r => ⟨r.2, w.versions ++ [r.1]⟩

/-- A run starts with the empty version, on whatever heap there is. -/
def start (h : NodeHeap) : Versions := ⟨h, [.empty]⟩

def EvenDelete (w : Versions) (l : Nat × Change) : Prop :=
  ∀ t ∈ w.versions[l.1]?, l.2.EvenDelete (t.tree w.heap)

/-- Every version shows a tree. -/
structure Fits (w : Versions) : Prop where
  sound : w.heap.Sound
  shows : ∀ t ∈ w.versions, ∃ s, t.Shows w.heap s

end Versions

section Steps
open SearchTree
variable {h : NodeHeap} {l : Nat × Change}

theorem Updates.Correct.change {u : Updates} (hu : u.Correct) (hs : h.Sound) (ht : t.Shows h s) (c : Change) :
    ∃ t' h' s', u.change t h c = some (t', h') ∧ h'.Sound ∧ t'.Shows h' s' ∧ s'.plain = c.plain s.plain := by
  cases c with
  | put kvPairs => exact hu.put hs ht kvPairs
  | delete key => exact hu.delete hs ht key

theorem Immutable.change_shows (hs : h.Sound) (ht : t.Shows h s) (c : Change) :
    ∃ t' h' s', updates.change t h c = some (t', h') ∧ t'.Shows h' s' ∧
      s'.plain = c.plain s.plain ∧ NodeHeap.Extends [] h h' := by
  cases c with
  | put kvPairs => exact putAll_shows hs ht kvPairs
  | delete key => exact delete_shows hs ht key

/-- A header shows the same tree after calls that write none of its nodes. -/
theorem Header.Shows.extend {h' : NodeHeap} (ht : t.Shows h s) (he : NodeHeap.Extends [] h h') : t.Shows h' s := by
  refine ⟨ht.root, ht.holds.congr fun a ha => ?_, ht.nodup, fun a ha => he.live a (ht.live a ha), ht.ordered,
    ht.count, ht.totalSize⟩
  exact he.keeps a (ht.live a ha) not_mem_nil

variable {w w' : Versions}

theorem Versions.start_fits (hs : h.Sound) : (start h).Fits := by
  refine ⟨hs, fun t ht => ⟨nil, ?_⟩⟩
  rw [mem_singleton.mp ht]
  exact .empty h

/-- A call for a version that there is returns a new one. What it does to the heap, no version can tell. -/
theorem Versions.next_spec (hw : w.Fits) {i : Nat} (hi : w.versions[i]? = some t) (c : Change) :
    ∃ t' h', w.next (i, c) = some ⟨h', w.versions ++ [t']⟩ ∧ NodeHeap.Extends [] w.heap h' ∧
      (∃ s', t'.Shows h' s') ∧ t'.tree h' = c.plain (t.tree w.heap) := by
  obtain ⟨s, ht⟩ := hw.shows t (mem_of_getElem? hi)
  obtain ⟨t', h', s', hchange, ht', hplain, hext⟩ := Immutable.change_shows hw.sound ht c
  refine ⟨t', h', ?_, hext, ⟨s', ht'⟩, ?_⟩
  · simp only [next, hi, hchange, Option.map_some]
  · rw [ht'.tree, ht.tree, hplain]

theorem Versions.next_cases (hw : w.Fits) (h : w.next l = some w') :
    ∃ t t', w.versions[l.1]? = some t ∧ w'.versions = w.versions ++ [t'] ∧
      NodeHeap.Extends [] w.heap w'.heap ∧ (∃ s', t'.Shows w'.heap s') ∧
      t'.tree w'.heap = l.2.plain (t.tree w.heap) := by
  cases hi : w.versions[l.1]? with
  | none =>
    rw [next, hi] at h
    cases h
  | some t =>
    obtain ⟨t', h', hnext, hrest⟩ := next_spec hw hi l.2
    cases hnext.symm.trans h
    exact ⟨t, t', rfl, rfl, hrest⟩

theorem Versions.Fits.next (hw : w.Fits) (h : w.next l = some w') : w'.Fits := by
  obtain ⟨t, t', -, hversions, hext, ht', -⟩ := next_cases hw h
  refine ⟨hext.sound, fun v hv => ?_⟩
  rw [hversions] at hv
  rcases mem_append.mp hv with hv | hv
  · obtain ⟨s, hs⟩ := hw.shows v hv
    exact ⟨s, hs.extend hext⟩
  · rwa [mem_singleton.mp hv]

theorem Versions.tree_next (hw : w.Fits) (h : w.next l = some w') (ht : t ∈ w.versions) :
    t.tree w'.heap = t.tree w.heap := by
  obtain ⟨-, -, -, -, hext, -⟩ := next_cases hw h
  obtain ⟨s, hs⟩ := hw.shows t ht
  rw [(hs.extend hext).tree, hs.tree]

theorem Updates.Correct.run {u : Updates} (hu : u.Correct) (cs : List Change) : ∀ {t h s}, h.Sound → t.Shows h s →
    ∃ m, runSchedule (fun m => u.change m.1 m.2) (t, h) cs = some m ∧ m.1.tree m.2 = cs.foldl Change.plain s.plain := by
  induction cs with
  | nil =>
    intro t h s hs ht
    exact ⟨_, rfl, ht.tree⟩
  | cons c cs ih =>
    intro t h s hs ht
    obtain ⟨t', h', s', hchange, hs', ht', hplain⟩ := hu.change hs ht c
    obtain ⟨m, hrun, htree⟩ := ih hs' ht'
    refine ⟨m, ?_, ?_⟩
    · show (u.change t h c).bind _ = _
      rw [hchange]
      exact hrun
    · rw [htree, hplain, foldl_cons]

/-- **A mutable and an immutable treap are one tree**, node for node, after the same changes and priorities. -/
theorem trees_agree (h : NodeHeap) (hs : h.Sound) (cs : List Change) :
    ∃ m i, runSchedule Mutable.next (.empty, h) cs = some m ∧
      runSchedule (fun i => Immutable.updates.change i.1 i.2) (.empty, h) cs = some i ∧
      m.1.tree m.2 = i.1.tree i.2 := by
  obtain ⟨m, hm, htree⟩ := Mutable.correct.run cs hs (.empty h)
  obtain ⟨i, hi, htree'⟩ := Immutable.correct.run cs hs (.empty h)
  exact ⟨m, i, hm, hi, htree.trans htree'.symm⟩

theorem trees_agree_one :
    let h : NodeHeap := ⟨fun _ => ⟨[], [], 0, none, none⟩, 0, [], []⟩
    let cs : List Change := [.put [⟨[1], none, 0⟩], .delete [1]]
    ∃ m i, runSchedule Mutable.next (.empty, h) cs = some m ∧
      runSchedule (fun i => Immutable.updates.change i.1 i.2) (.empty, h) cs = some i ∧
      m.1.tree m.2 = i.1.tree i.2 :=
  trees_agree _ ⟨by simp, by simp⟩ _

end Steps

/-! ## Heap order -/

section HeapOrder
open SearchTree

theorem heapOrdered_putPlain : ∀ {s}, s.HeapOrdered → (putPlain s kvPairs).HeapOrdered := by
  induction kvPairs with
  | nil =>
    intro s hs
    exact hs
  | cons kv kvPairs ih =>
    intro s hs
    exact ih (hs.put kv.key _ kv.priority)

/-- A change keeps the heap order if it is one of the even ones, and no other does. -/
theorem heapOrdered_change {s : TreapNode} (hs : s.HeapOrdered) (c : Change) :
    (c.plain s).HeapOrdered ↔ c.EvenDelete s := by
  cases c with
  | put kvPairs => exact iff_of_true (heapOrdered_putPlain hs) trivial
  | delete key => exact heapOrdered_delete hs key

/-- In every run whose deletions find even subtrees, all treaps are in heap order. -/
theorem heapOrdered_of_evenDelete (h : NodeHeap) (hs : h.Sound) :
    (∀ t h', ReachesWhen Mutable.next (fun m c => c.EvenDelete (m.1.tree m.2)) (Header.empty, h) (t, h') →
      (t.tree h').HeapOrdered) ∧
    ∀ w, ReachesWhen Versions.next Versions.EvenDelete (.start h) w →
      ∀ t ∈ w.versions, (t.tree w.heap).HeapOrdered := by
  constructor
  · intro t h' hreach
    refine (hreach.invariant (I := fun m => m.2.Sound ∧ (∃ s, m.1.Shows m.2 s) ∧ (m.1.tree m.2).HeapOrdered)
      ?_ ⟨hs, ⟨.nil, .empty h⟩, ?_⟩).2.2
    · rintro m c m' ⟨hsound, ⟨s, hm⟩, hheap⟩ heven hnext
      obtain ⟨t', h', s', hchange, hsound', ht', hplain⟩ := Mutable.correct.change hsound hm c
      cases hchange.symm.trans hnext
      refine ⟨hsound', ⟨s', ht'⟩, ?_⟩
      rw [ht'.tree, hplain, ← hm.tree]
      exact (heapOrdered_change hheap c).mpr heven
    · rw [Header.Shows.tree (.empty h)]
      trivial
  · intro w hreach
    refine (hreach.invariant (I := fun w => w.Fits ∧ ∀ t ∈ w.versions, (t.tree w.heap).HeapOrdered)
      ?_ ⟨Versions.start_fits hs, fun t ht => ?_⟩).2
    · rintro w l w' ⟨hw, hheap⟩ heven hnext
      refine ⟨hw.next hnext, fun v hv => ?_⟩
      obtain ⟨t, t', ht, hversions, -, -, htree⟩ := Versions.next_cases hw hnext
      rw [hversions] at hv
      rcases mem_append.mp hv with hv | hv
      · rw [Versions.tree_next hw hnext hv]
        exact hheap v hv
      · rw [mem_singleton.mp hv, htree]
        exact (heapOrdered_change (hheap t (mem_of_getElem? ht)) l.2).mpr (heven t ht)
    · rw [mem_singleton.mp ht, Header.Shows.tree (.empty _)]
      trivial

/-- Two pairs are put and the leaf is deleted. -/
theorem heapOrdered_of_evenDelete_leaf :
    let h : NodeHeap := ⟨fun _ => ⟨[], [], 0, none, none⟩, 0, [], []⟩
    (∃ t h', ReachesWhen Mutable.next (fun m c => c.EvenDelete (m.1.tree m.2)) (Header.empty, h) (t, h') ∧
      (t.tree h').keys = [[2]] ∧ (t.tree h').HeapOrdered) ∧
    ∃ w, ReachesWhen Versions.next Versions.EvenDelete (.start h) w ∧ w.versions.length = 3 ∧
      ∀ t ∈ w.versions, (t.tree w.heap).HeapOrdered := by
  intro h
  let pairs : Change := .put [⟨[2], none, 0⟩, ⟨[1], none, 1⟩]
  have hs : h.Sound := ⟨by simp [h], by simp [h]⟩
  constructor
  · obtain ⟨t, h', hreach, hkeys⟩ : ∃ t h', ReachesWhen Mutable.next (fun m c => c.EvenDelete (m.1.tree m.2))
        (Header.empty, h) (t, h') ∧ (t.tree h').keys = [[2]] := by
      refine ⟨_, _, (Relation.ReflTransGen.refl.tail ⟨pairs, ?_, rfl⟩).tail ⟨.delete [1], ?_, rfl⟩, rfl⟩
      · exact True.intro
      · exact True.intro
    exact ⟨t, h', hreach, hkeys, (heapOrdered_of_evenDelete h hs).1 t h' hreach⟩
  · obtain ⟨w, hreach, hlen⟩ : ∃ w, ReachesWhen Versions.next Versions.EvenDelete (.start h) w ∧
        w.versions.length = 3 := by
      refine ⟨_, (Relation.ReflTransGen.refl.tail ⟨(0, pairs), ?_, rfl⟩).tail ⟨(1, .delete [1]), ?_, rfl⟩, rfl⟩
      · intro t ht
        cases ht
        exact True.intro
      · intro t ht
        exact True.intro
    exact ⟨w, hreach, hlen, (heapOrdered_of_evenDelete h hs).2 w hreach⟩

/-- Three nodes, of which the root is deleted: its right child, of priority 2, is rotated up and stands
above the left one, of priority 1. -/
theorem not_heapOrdered_after_delete :
    let h : NodeHeap := ⟨fun _ => ⟨[], [], 0, none, none⟩, 0, [], []⟩
    let changes : List Change := [.put [⟨[2], none, 0⟩], .put [⟨[1], none, 1⟩], .put [⟨[3], none, 2⟩], .delete [2]]
    (∃ m ∈ runSchedule Mutable.next (Header.empty, h) changes,
      m.1.tree m.2 = .node [3] [] 2 (.node [1] [] 1 .nil .nil) .nil ∧ ¬ (m.1.tree m.2).HeapOrdered) ∧
    ∃ w ∈ runSchedule Versions.next (.start h) (changes.mapIdx fun i c => (i, c)), ∃ t ∈ w.versions,
      t.tree w.heap = .node [3] [] 2 (.node [1] [] 1 .nil .nil) .nil ∧ ¬ (t.tree w.heap).HeapOrdered := by
  have hnot : ¬ (.node [3] [] 2 (.node [1] [] 1 .nil .nil) .nil : TreapNode).HeapOrdered := by
    intro horder
    exact absurd (horder.1 1 rfl) (by decide)
  constructor
  · exact ⟨_, rfl, rfl, hnot⟩
  · exact ⟨_, rfl, _, mem_of_getLast? rfl, rfl, hnot⟩

end HeapOrder

/-! ## Persistence -/

/-- The nodes that can be reached from a pointer. -/
inductive Points (cells : Cells) : Option Loc → Loc → Prop
  | here (a : Loc) : Points cells (some a) a
  | left {a b : Loc} (h : Points cells (cells a).left b) : Points cells (some a) b
  | right {a b : Loc} (h : Points cells (cells a).right b) : Points cells (some a) b

/-- The entries as `ForEach` goes through them. -/
def Header.list (t : Header) (h : NodeHeap) : Option (List (Bytes × Bytes)) :=
  t.forEach h (noteCall fun _ => true) []

/-- `Put` for one pair after the other, each with a call of its own. -/
def Immutable.putSingly (t : Header) : List Immutable.KVPair → NodeHeap → Option (Header × NodeHeap)
  | [], h => some (t, h)
  | kv :: kvPairs, h =>
    match putAll t [kv] h with
    | none => none
    | some (t, h) => putSingly t kvPairs h

/-- What the caller gives of a pair; the priority is drawn. -/
def Immutable.KVPair.entry (kv : KVPair) : Bytes × Option Bytes := (kv.key, kv.value)

section Persistence
open SearchTree

theorem Points.mem_addrs {cells : Cells} (hs : s.Holds cells) {b : Loc} (h : Points cells s.root b) : b ∈ s.addrs := by
  induction s with
  | nil => cases h
  | node k va p l r ihl ihr =>
    obtain ⟨hcell, hl, hr⟩ := hs
    rw [root_node] at h
    rw [addrs_node]
    cases h with
    | here => simp
    | left h =>
      rw [hcell] at h
      exact mem_append_left _ (ihl hl h)
    | right h =>
      rw [hcell] at h
      exact mem_append_right _ (mem_cons_of_mem _ (ihr hr h))

theorem shownTo_true (es : List (Bytes × Bytes)) : ∀ seen, shownTo (fun _ => true) seen es = seen ++ es := by
  induction es with
  | nil =>
    intro seen
    exact (append_nil seen).symm
  | cons e es ih =>
    intro seen
    rw [shownTo, if_pos rfl, ih, append_assoc, singleton_append]

theorem Header.Shows.list {h : NodeHeap} (ht : t.Shows h s) : t.list h = some (t.tree h).entries := by
  rw [Header.list, ht.forEach, visit_noteCall, shownTo_true, ht.tree]
  rfl

theorem Immutable.putSingly_shows (kvPairs : List Immutable.KVPair) :
    ∀ {t} {h} {s}, h.Sound → t.Shows h s →
      ∃ t' h' s', putSingly t kvPairs h = some (t', h') ∧ t'.Shows h' s' ∧ s'.plain = putPlain s.plain kvPairs := by
  induction kvPairs with
  | nil =>
    intro t h s hs ht
    exact ⟨t, h, s, rfl, ht, rfl⟩
  | cons kv kvPairs ih =>
    intro t h s hs ht
    obtain ⟨t₁, h₁, s₁, hput, ht₁, hplain, hext⟩ := putAll_shows hs ht [kv]
    obtain ⟨t', h', s', hrest, ht', hplain'⟩ := ih hext.sound ht₁
    refine ⟨t', h', s', ?_, ht', ?_⟩
    · rwa [putSingly, hput]
    · rw [hplain', hplain]
      rfl

/-- The priorities do not show in the entries. -/
theorem entries_putPlain {s : TreapNode} (hs : s.Ordered) {kvPairs' : List Immutable.KVPair}
    (h : kvPairs.map Immutable.KVPair.entry = kvPairs'.map Immutable.KVPair.entry) :
    (putPlain s kvPairs).entries = (putPlain s kvPairs').entries := by
  have hfold : ∀ (kvs : List Immutable.KVPair) (m : SortedMap Bytes Bytes),
      kvs.foldl (fun m kv => m.insert kv.key (kv.value.getD [])) m =
        (kvs.map Immutable.KVPair.entry).foldl (fun m e => m.insert e.1 (e.2.getD [])) m := by
    intro kvs m
    rw [foldl_map]
    rfl
  have hmap : (putPlain s kvPairs).toMap (Ordered.putPlain hs) =
      (putPlain s kvPairs').toMap (Ordered.putPlain hs) := by
    rw [toMap_putPlain hs, toMap_putPlain hs, hfold, hfold, h]
  exact congrArg SortedMap.entries hmap

variable {w w' : Versions}

theorem Versions.Fits.reaches (hw : w.Fits) (h : Reaches Versions.next w w') : w'.Fits :=
  h.invariant (fun _ _ _ hw hnext => hw.next hnext) hw

/-- A version keeps its number and its tree. -/
theorem Versions.tree_reaches (hw : w.Fits) (h : Reaches Versions.next w w') {i : Nat} (hi : w.versions[i]? = some t) :
    w'.versions[i]? = some t ∧ t.tree w'.heap = t.tree w.heap := by
  refine (h.invariant (I := fun v => v.Fits ∧ v.versions[i]? = some t ∧ t.tree v.heap = t.tree w.heap)
    ?_ ⟨hw, hi, rfl⟩).2
  rintro v l v' ⟨hv, hvi, htree⟩ hnext
  refine ⟨hv.next hnext, ?_, ?_⟩
  · obtain ⟨-, t', -, hversions, -⟩ := next_cases hv hnext
    rw [hversions]
    rw [getElem?_append_left (List.getElem?_eq_some_iff.mp hvi).1, hvi]
  · rw [tree_next hv hnext (mem_of_getElem? hvi), htree]

/-- The versions of an immutable treap are persistent. Every call returns; every version keeps its
entries, whatever is called later; a `Put` of several pairs is as good as a `Put` for each of them;
and from no version can a node of the pool be reached. -/
theorem versions_persist (h : NodeHeap) (hs : h.Sound) (w : Versions) (hw : Reaches Versions.next (.start h) w) :
    (∀ i, i < w.versions.length → ∀ c, (w.next (i, c)).isSome) ∧
    (∀ t ∈ w.versions, t.list w.heap = some (t.tree w.heap).entries) ∧
    (∀ w', Reaches Versions.next w w' → ∀ (i : Nat) (t : Header), w.versions[i]? = some t →
      w'.versions[i]? = some t ∧ t.tree w'.heap = t.tree w.heap) ∧
    (∀ t ∈ w.versions, ∀ kvPairs kvPairs' : List Immutable.KVPair,
      kvPairs.map Immutable.KVPair.entry = kvPairs'.map Immutable.KVPair.entry →
      ∃ t₁ h₁ t₂ h₂, Immutable.putAll t kvPairs w.heap = some (t₁, h₁) ∧
        Immutable.putSingly t kvPairs' w.heap = some (t₂, h₂) ∧
        (t₁.tree h₁).entries = (t₂.tree h₂).entries) ∧
    ∀ t ∈ w.versions, ∀ a ∈ w.heap.treapNodePool, ¬ Points w.heap.cells t.root a := by
  have hfits : w.Fits := (Versions.start_fits hs).reaches hw
  refine ⟨?_, ?_, ?_, ?_, ?_⟩
  · intro i hi c
    obtain ⟨t', h', hnext, -⟩ := Versions.next_spec hfits (getElem?_eq_getElem hi) c
    rw [hnext]
    rfl
  · intro t ht
    obtain ⟨s, hshows⟩ := hfits.shows t ht
    exact hshows.list
  · intro w' hw' i t hi
    exact Versions.tree_reaches hfits hw' hi
  · intro t ht kvPairs kvPairs' hentries
    obtain ⟨s, hshows⟩ := hfits.shows t ht
    obtain ⟨t₁, h₁, s₁, hput, ht₁, hplain₁, -⟩ := Immutable.putAll_shows hfits.sound hshows kvPairs
    obtain ⟨t₂, h₂, s₂, hsingly, ht₂, hplain₂⟩ :=
      Immutable.putSingly_shows kvPairs' hfits.sound hshows
    refine ⟨t₁, h₁, t₂, h₂, hput, hsingly, ?_⟩
    rw [ht₁.tree, ht₂.tree, hplain₁, hplain₂]
    exact entries_putPlain (ordered_plain.mpr hshows.ordered) hentries
  · intro t ht a hpool hpoints
    obtain ⟨s, hshows⟩ := hfits.shows t ht
    rw [hshows.root] at hpoints
    exact (hshows.live a (hpoints.mem_addrs hshows.holds)).2 hpool

/-- After a `Put` of three pairs and a `Delete`. -/
theorem versions_persist_two :
    let h : NodeHeap := ⟨fun _ => ⟨[], [], 0, none, none⟩, 0, [], []⟩
    ∃ w, Reaches Versions.next (.start h) w ∧ w.versions.length = 3 ∧ w.heap.treapNodePool ≠ [] ∧
      ∀ t ∈ w.versions, ∀ a ∈ w.heap.treapNodePool, ¬ Points w.heap.cells t.root a := by
  intro h
  obtain ⟨w, hw, hlen, hpool⟩ : ∃ w, runSchedule Versions.next (.start h)
      [(0, .put [⟨[2], none, 0⟩, ⟨[1], none, 1⟩, ⟨[3], none, 2⟩]), (1, .delete [2])] = some w ∧
      w.versions.length = 3 ∧ w.heap.treapNodePool ≠ [] := ⟨_, rfl, rfl, by decide⟩
  have hreach := Reaches.of_runSchedule hw
  exact ⟨w, hreach, hlen, hpool, (versions_persist h ⟨by simp [h], by simp [h]⟩ w hreach).2.2.2.2⟩

end Persistence
end NogoCommons.Treap.Linked
