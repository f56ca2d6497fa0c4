import NogoCommons.Treap.Links

/-!
# `Mutable`, node by node

`Mutable` and `Immutable` are the same three fields: a pointer to the root, the number of items and the
estimated size. What a heap and a header show is a placed tree (`Shows`), and this is all that the
operations on them need to know: the reading ones answer what the tree has, and `put_shows` and
`delete_shows` say which tree is there after a call. The trees are those of the recursive `put` and
`delete`, so that the treaps of `Mutable.lean` are what a mutable treap looks like to its caller.
-/

namespace NogoCommons.Treap.Linked
open Lib
open List hiding find? nil

/-- The fields of `Mutable` and of `Immutable`. -/
structure Header where
  root : Option Loc
  count : Nat
  totalSize : UInt64

namespace Header

/-- `NewMutable` and `NewImmutable`. -/
def empty : Header := ⟨none, 0, 0⟩

variable (t : Header) (h : NodeHeap)

/-- The rounds a walk through the nodes is given. -/
def rounds (h : NodeHeap) : Nat := h.top + 1

def get (key : Bytes) : Option (Option Bytes) :=
  (getNode h.cells key (rounds h) t.root none).map fun found =>
    found.1.map fun node => (h.cells node).value

def has (key : Bytes) : Option Bool :=
  (getNode h.cells key (rounds h) t.root none).map fun found => found.1.isSome

def len : Nat := t.count
def size : UInt64 := t.totalSize

end Header

/-- A node and the nodes down its left side, pushed one after the other. -/
def pushLeft (cells : Cells) : Nat → Option Loc → ParentStack Loc → Option (ParentStack Loc)
  | 0, _, _ => none
  | _ + 1, none, parents => some parents
  | n + 1, some node, parents => pushLeft cells n (cells node).left (parents.push node)

/-- The loop of `ForEach`. The function has a state to work on and answers whether to go on. -/
def forEachLoop {σ : Type} (fn : Bytes → Bytes → σ → Bool × σ) (h : NodeHeap) : Nat → ParentStack Loc → σ → Option σ
  | 0, _, _ => none
  | n + 1, parents, s =>
    match parents.pop with
    | (none, _) => some s
    | (some node, parents) =>
      match fn (h.cells node).key (h.cells node).value s with
      | (false, s) => some s
      | (true, s) =>
        match pushLeft h.cells (Header.rounds h) (h.cells node).right parents with
        | none => none
        | some parents => forEachLoop fn h n parents s

def Header.forEach {σ : Type} (t : Header) (h : NodeHeap) (fn : Bytes → Bytes → σ → Bool × σ) (s : σ) : Option σ :=
  match pushLeft h.cells (rounds h) t.root .empty with
  | none => none
  | some parents => forEachLoop fn h (rounds h) parents s

namespace Mutable

/-- `Put`, when `rand.Int` answers `priority`. -/
def put (t : Header) (key : Bytes) (value : Option Bytes) (priority : Nat) (h : NodeHeap) :
    Option (Header × NodeHeap) :=
  let value := value.getD []
  match t.root with
  | none =>
    let (node, h) := h.newTreapNode key value priority
    some (⟨some node, 1, nodeSize key value⟩, h)
  | some _ =>
    match findParents h.cells key (Header.rounds h) t.root .empty false with
    | none => none
    | some (some node, _, _) =>
      let old := (h.cells node).value
      some ({ t with totalSize := t.totalSize - UInt64.ofNat old.length + UInt64.ofNat value.length },
        h.write node { h.cells node with value })
    | some (none, parents, less) =>
      (insertNode key value priority parents less t.root h).map fun (_, root, h) =>
        (⟨root, t.count + 1, t.totalSize + nodeSize key value⟩, h)

def delete (t : Header) (key : Bytes) (h : NodeHeap) : Option (Header × NodeHeap) :=
  match getNode h.cells key (Header.rounds h) t.root none with
  | none => none
  | some (none, _) => some (t, h)
  | some (some node, parent) =>
    if parent = none ∧ (h.cells node).left = none ∧ (h.cells node).right = none then
      some (⟨none, 0, 0⟩, h)
    else
      match rotateDown (fun child h => (child, h)) (Header.rounds h) h t.root node parent with
      | some (h, root, some parent) =>
        some (⟨root, t.count - 1, t.totalSize - nodeSize (h.cells node).key (h.cells node).value⟩,
          { h with cells := disconnect h.cells parent node })
      | _ => none

end Mutable

/-! ## What a header shows -/

/-- The estimated size of a treap with these entries. -/
def entriesSize (es : List (Bytes × Bytes)) : Nat :=
  (es.map fun e => 72 + e.1.length + e.2.length).sum

/-- The tree that the nodes from the root on make up, with everything the header says of it. -/
structure Header.Shows (t : Header) (h : NodeHeap) (s : PlacedNode) : Prop where
  root : t.root = s.root
  holds : s.Holds h.cells
  nodup : s.addrs.Nodup
  live : ∀ a ∈ s.addrs, h.Live a
  ordered : s.Ordered
  count : t.count = s.plain.entries.length
  totalSize : t.totalSize = UInt64.ofNat (entriesSize s.plain.entries)

variable {key old : Bytes} {fs : List NodeFrame} {s c : PlacedNode}
section Sizes

theorem nodeSize_eq (key value : Bytes) : nodeSize key value = UInt64.ofNat (72 + key.length + value.length) := by
  rw [nodeSize, Nat.add_assoc, UInt64.ofNat_add 72]
  rfl

theorem entriesSize_perm {es es' : List (Bytes × Bytes)} (h : es.Perm es') : entriesSize es = entriesSize es' :=
  (h.map _).sum_eq

@[simp] theorem entriesSize_cons (e : Bytes × Bytes) (es : List (Bytes × Bytes)) :
    entriesSize (e :: es) = 72 + e.1.length + e.2.length + entriesSize es := by
  simp [entriesSize]

section Updates
variable {t : TreapNode} (ht : t.Ordered)

include ht

/-- An update leaves one entry under its key, with everything under the other keys. -/
theorem perm_put (key value : Bytes) (priority : Nat) (fresh : Bool) :
    (t.put key value priority fresh).entries.Perm ((key, value) :: ((t.toMap ht).erase key).entries) := by
  have hmap : (t.put key value priority fresh).entries = ((t.toMap ht).insert key value).entries :=
    congrArg SortedMap.entries (SearchTree.toMap_put ht key value priority fresh)
  rw [hmap]
  exact SortedMap.perm_insert (t.toMap ht) key value

theorem erase_of_not_found (hfind : t.find? key = none) : ((t.toMap ht).erase key).entries = t.entries :=
  congrArg SortedMap.entries (SortedMap.erase_of_get?_none ((SearchTree.get?_toMap ht key).trans hfind))

theorem counters_put_new (hfind : t.find? key = none) (value : Bytes) (priority : Nat) (fresh : Bool) :
    (t.put key value priority fresh).entries.length = t.entries.length + 1 ∧
      UInt64.ofNat (entriesSize (t.put key value priority fresh).entries) =
        UInt64.ofNat (entriesSize t.entries) + nodeSize key value := by
  have hperm := perm_put ht key value priority fresh
  rw [erase_of_not_found ht hfind] at hperm
  rw [hperm.length_eq, entriesSize_perm hperm, entriesSize_cons, nodeSize_eq, Nat.add_comm (72 + _ + _),
    UInt64.ofNat_add (entriesSize t.entries)]
  exact ⟨rfl, rfl⟩

variable (hfind : t.find? key = some old)
include hfind

theorem perm_found : t.entries.Perm ((key, old) :: ((t.toMap ht).erase key).entries) :=
  SortedMap.perm_of_get? (m := t.toMap ht) ((SearchTree.get?_toMap ht key).trans hfind)

theorem counters_put_old (value : Bytes) (priority : Nat) (fresh : Bool) :
    (t.put key value priority fresh).entries.length = t.entries.length ∧
      UInt64.ofNat (entriesSize (t.put key value priority fresh).entries) =
        UInt64.ofNat (entriesSize t.entries) - UInt64.ofNat old.length + UInt64.ofNat value.length := by
  have hperm := perm_put ht key value priority fresh
  have hold := perm_found ht hfind
  rw [hperm.length_eq, hold.length_eq, entriesSize_perm hperm, entriesSize_perm hold, entriesSize_cons,
    entriesSize_cons]
  have hsplit : ∀ n : Nat, 72 + key.length + n + entriesSize ((t.toMap ht).erase key).entries =
      72 + key.length + entriesSize ((t.toMap ht).erase key).entries + n := by
    intro n
    omega
  refine ⟨rfl, ?_⟩
  simp only [hsplit]
  rw [UInt64.ofNat_add _ value.length, UInt64.ofNat_add _ old.length, UInt64.add_sub_cancel]

theorem counters_delete : (t.delete key).entries.length = t.entries.length - 1 ∧
      UInt64.ofNat (entriesSize (t.delete key).entries) =
        UInt64.ofNat (entriesSize t.entries) - nodeSize key old := by
  have hold := perm_found ht hfind
  have hmap : (t.delete key).entries = ((t.toMap ht).erase key).entries :=
    congrArg SortedMap.entries (SearchTree.toMap_delete ht key)
  rw [hold.length_eq, entriesSize_perm hold, entriesSize_cons, nodeSize_eq, hmap, Nat.add_comm (72 + _ + _),
    UInt64.ofNat_add (entriesSize _), UInt64.add_sub_cancel]
  exact ⟨rfl, rfl⟩

end Updates
end Sizes

/-! ## The recursive operations, along a way down -/

section Ways
open SearchTree
variable (hfs : ∀ f ∈ fs, f.Leads key)

include hfs

theorem leads_map_plain : ∀ f ∈ fs.map Frame.plain, f.Leads key := by
  intro f hf
  obtain ⟨g, hg, rfl⟩ := mem_map.mp hf
  exact Frame.leads_plain.mpr (hfs g hg)

theorem find?_plug (c : PlacedNode) : (plug fs c).plain.find? key = c.plain.find? key := by
  rw [find?, plain_plug, nodeAt_plug (leads_map_plain hfs)]
  rfl

theorem put_plug_old (va : Bytes × Loc) (a : Loc) (value : Bytes) (p priority : Nat) (l r : PlacedNode) :
    (plug fs (node key va p l r)).plain.put key value priority
        ((plug fs (node key va p l r)).plain.find? key).isNone =
      (plug fs (node key (value, a) p l r)).plain := by
  rw [find?_plug hfs]
  simp only [find?, nodeAt, plain, lt_irrefl, if_false, rootValue?, Option.isNone_some]
  rw [plain_plug, put_plug (leads_map_plain hfs), rise_of_not_fresh (by simp) (by simp), plain_plug]
  simp [plain, put]

/-- A new node is `fresh` and no other is. -/
theorem put_plug_new : ∃ fresh : Bytes → Bool, fresh key = true ∧ (∀ f ∈ fs, fresh f.key = false) ∧
    ∀ n value priority, (plug fs (nil : PlacedNode)).plain.put key value priority
        ((plug fs (nil : PlacedNode)).plain.find? key).isNone =
      (rise fresh fs (node key (value, n) priority nil nil)).plain := by
  obtain ⟨fresh, hkey, hkeys, hput⟩ := exists_fresh (V := Bytes) (P := Nat) (leads_map_plain hfs)
  refine ⟨fresh, hkey, fun f hf => ?_, fun n value priority => ?_⟩
  · have hplain := hkeys f.plain (mem_map_of_mem hf)
    cases f <;> exact hplain
  · rw [find?_plug hfs, plain_plug, plain_rise]
    exact hput value priority

theorem find?_plug_found (va : Bytes × Loc) (p : Nat) (l r : PlacedNode) :
    (plug fs (node key va p l r)).plain.find? key = some va.1 := by
  rw [find?_plug hfs]
  simp [find?, nodeAt, plain, rootValue?]

theorem delete_plug_found (va : Bytes × Loc) (p : Nat) (l r : PlacedNode) :
    (plug fs (node key va p l r)).plain.delete key = (plug fs (sink l r)).plain := by
  rw [plain_plug, delete_plug (leads_map_plain hfs), plain_plug, plain_sink]
  simp [plain, delete]

omit hfs in
/-- A node without a parent and without children is the only one. -/
theorem only_node {l r : PlacedNode} (h : fs.head?.map Frame.addr = none ∧ l.root = none ∧ r.root = none) :
    fs = [] ∧ l = nil ∧ r = nil :=
  ⟨by simpa using h.1, root_eq_none.mp h.2.1, root_eq_none.mp h.2.2⟩

end Ways

namespace Header.Shows
open SearchTree
variable {t : Header} {h : NodeHeap}

theorem empty (h : NodeHeap) : Header.empty.Shows h nil :=
  ⟨rfl, trivial, nodup_nil, by simp, ordered_nil, rfl, rfl⟩

/-- The first node. -/
theorem single {value : Bytes} {priority : Nat} {n : Loc} (hcell : h.cells n = ⟨key, value, priority, none, none⟩)
    (hlive : h.Live n) : (⟨some n, 1, nodeSize key value⟩ : Header).Shows h (node key (value, n) priority nil nil) := by
  refine ⟨rfl, ⟨hcell, trivial, trivial⟩, by simp, ?_, pairwise_singleton .., rfl, ?_⟩
  · intro a ha
    simp at ha
    exact ha ▸ hlive
  · simp [plain, entries, entriesSize, nodeSize_eq]

section Updates
variable {own : List Loc} {h₀ h' : NodeHeap} {root : Option Loc} {value : Bytes} {priority : Nat} {fresh : Bool}
  (ht : t.Shows h s) (w : Working own h₀ h' root fs c)

include ht w

/-- A tree that an update has built, with the counters as the update changes them. -/
theorem inserted (hplain : (plug fs c).plain = s.plain.put key value priority fresh)
    (hfind : s.plain.find? key = none) :
    (⟨root, t.count + 1, t.totalSize + nodeSize key value⟩ : Header).Shows h' (plug fs c) := by
  have hordered := ordered_plain.mpr ht.ordered
  obtain ⟨hcount, hsize⟩ := counters_put_new hordered hfind value priority fresh
  have hordered' := hordered.put key value priority fresh
  rw [← hplain] at hcount hsize hordered'
  exact ⟨w.root, w.holds, w.nodup, w.live, ordered_plain.mp hordered', by rw [hcount, ht.count],
    by rw [hsize, ht.totalSize]⟩

theorem replaced (hplain : (plug fs c).plain = s.plain.put key value priority fresh)
    (hfind : s.plain.find? key = some old) :
    (⟨root, t.count, t.totalSize - UInt64.ofNat old.length + UInt64.ofNat value.length⟩ : Header).Shows h'
      (plug fs c) := by
  have hordered := ordered_plain.mpr ht.ordered
  obtain ⟨hcount, hsize⟩ := counters_put_old hordered hfind value priority fresh
  have hordered' := hordered.put key value priority fresh
  rw [← hplain] at hcount hsize hordered'
  exact ⟨w.root, w.holds, w.nodup, w.live, ordered_plain.mp hordered', by rw [hcount, ht.count],
    by rw [hsize, ht.totalSize]⟩

theorem deleted (hplain : (plug fs c).plain = s.plain.delete key) (hfind : s.plain.find? key = some old) :
    (⟨root, t.count - 1, t.totalSize - nodeSize key old⟩ : Header).Shows h' (plug fs c) := by
  have hordered := ordered_plain.mpr ht.ordered
  obtain ⟨hcount, hsize⟩ := counters_delete hordered hfind
  have hordered' := hordered.delete key
  rw [← hplain] at hcount hsize hordered'
  exact ⟨w.root, w.holds, w.nodup, w.live, ordered_plain.mp hordered', by rw [hcount, ht.count],
    by rw [hsize, ht.totalSize]⟩

end Updates

theorem length_le (ht : t.Shows h s) : s.addrs.length ≤ h.top :=
  NodeHeap.length_le_top ht.nodup ht.live

/-- The rounds are enough for the way to a place and for what is below it. -/
theorem rounds_eq (ht : t.Shows h (plug fs c)) : ∃ n, rounds h = n + 1 + fs.length ∧ c.addrs.length ≤ n := by
  have hlen := ht.length_le
  rw [(addrs_plug fs c).length_eq, length_append] at hlen
  have hfs := length_le_around fs
  refine ⟨h.top - fs.length, ?_, by omega⟩
  rw [rounds]
  omega

/-- A search finds the value that the tree has under the key. -/
theorem getNode_root (ht : t.Shows h s) (key : Bytes) :
    ∃ parent, getNode h.cells key (rounds h) t.root none = some ((s.nodeAt key).root, parent) := by
  obtain ⟨fs, c, rfl, hfs, hc⟩ := exists_way key s
  obtain ⟨n, hrounds, -⟩ := ht.rounds_eq
  rw [ht.root, hrounds, getNode_plug ht.holds hfs, nodeAt_plug hfs]
  rcases hc with rfl | ⟨va, p, l, r, rfl⟩
  · exact ⟨none, rfl⟩
  · obtain ⟨hcell, -, -⟩ := (holds_plug.mp ht.holds).1
    refine ⟨(fs.head?.map Frame.addr).or none, ?_⟩
    rw [root_node, getNode, hcell]
    simp [nodeAt]

theorem get (ht : t.Shows h s) (key : Bytes) : t.get h key = some (s.plain.find? key) := by
  obtain ⟨parent, hget⟩ := ht.getNode_root key
  rw [Header.get, hget, find?, nodeAt_plain]
  have hnode := ht.holds.nodeAt key
  cases hs : s.nodeAt key with
  | nil => rfl
  | node k va p l r =>
    rw [hs] at hnode
    simp [plain, rootValue?, hnode.1]

theorem has (ht : t.Shows h s) (key : Bytes) : t.has h key = some (s.plain.has key) := by
  obtain ⟨parent, hget⟩ := ht.getNode_root key
  rw [Header.has, hget, SearchTree.has, find?, nodeAt_plain]
  cases s.nodeAt key <;> rfl

end Header.Shows

/-! ## `ForEach` -/

section ForEach
open SearchTree
variable {σ : Type} {fn : Bytes → Bytes → σ → Bool × σ} {h : NodeHeap}

/-- The function called for one entry after the other, for as long as it wants to go on. -/
def visit (fn : Bytes → Bytes → σ → Bool × σ) : List (Bytes × Bytes) → σ → σ
  | [], s => s
  | (k, v) :: es, s =>
    match fn k v s with
    | (false, s) => s
    | (true, s) => visit fn es s

/-- A node on the stack of `ForEach`: it is still to be visited, and so is its right subtree. -/
structure Pending (h : NodeHeap) where
  addr : Loc
  right : PlacedNode
  root : (h.cells addr).right = right.root
  holds : right.Holds h.cells

namespace Pending

def entries (t : Pending h) : List (Bytes × Bytes) :=
  ((h.cells t.addr).key, (h.cells t.addr).value) :: t.right.plain.entries

theorem length_entries (t : Pending h) : t.entries.length = t.right.addrs.length + 1 := by
  simp [entries, entries_plain, addrs]

end Pending

/-- A tree's entries are what is pending once its left side has been pushed. -/
theorem pushLeft_spec (hs : s.Holds h.cells) :
    ∀ {n} {parents} (todo : List (Pending h)), s.addrs.length < n →
      parents.Stacks (todo.map Pending.addr) →
      ∃ (parents' : ParentStack Loc) (todo' : List (Pending h)),
        pushLeft h.cells n s.root parents = some parents' ∧
        parents'.Stacks (todo'.map Pending.addr) ∧
        todo'.flatMap Pending.entries = s.plain.entries ++ todo.flatMap Pending.entries := by
  induction s with
  | nil =>
    intro n parents todo hn hparents
    cases n with
    | zero => exact absurd hn (Nat.not_lt_zero _)
    | succ n => exact ⟨parents, todo, rfl, hparents, rfl⟩
  | node k va p l r ihl ihr =>
    intro n parents todo hn hparents
    obtain ⟨hcell, hl, hr⟩ := hs
    cases n with
    | zero => exact absurd hn (Nat.not_lt_zero _)
    | succ n =>
      rw [addrs_node, length_append, length_cons] at hn
      let here : Pending h := ⟨va.2, r, by rw [hcell], hr⟩
      obtain ⟨parents', todo', hpush, hstacks, hentries⟩ :=
        ihl hl (n := n) (here :: todo) (by omega) (hparents.push va.2)
      refine ⟨parents', todo', ?_, hstacks, ?_⟩
      · rwa [root_node, pushLeft, hcell]
      · rw [hentries, plain, SearchTree.entries, flatMap_cons, append_assoc]
        simp [here, Pending.entries, hcell]

/-- The loop visits everything that is pending, in this order. -/
theorem forEachLoop_spec {n : Nat} : ∀ {parents} {todo : List (Pending h)} (s : σ),
      parents.Stacks (todo.map Pending.addr) → (todo.flatMap Pending.entries).length < n →
      (todo.flatMap Pending.entries).length < Header.rounds h →
      forEachLoop fn h n parents s = some (visit fn (todo.flatMap Pending.entries) s) := by
  induction n with
  | zero =>
    intro parents todo s hparents hn
    exact absurd hn (Nat.not_lt_zero _)
  | succ n ih =>
    intro parents todo s hparents hn hrounds
    obtain ⟨hpop, hrest⟩ := hparents.pop
    cases todo with
    | nil =>
      have hpop' : parents.pop = (none, parents.pop.2) := Prod.ext hpop rfl
      rw [forEachLoop, hpop']
      rfl
    | cons t todo =>
      have hpop' : parents.pop = (some t.addr, parents.pop.2) := Prod.ext hpop rfl
      rw [forEachLoop, hpop', flatMap_cons, Pending.entries, cons_append, visit]
      cases hfn : fn (h.cells t.addr).key (h.cells t.addr).value s with
      | mk go s' =>
        cases go with
        | false => simp only [hfn]
        | true =>
          have hlen := t.length_entries
          rw [flatMap_cons, length_append] at hn hrounds
          obtain ⟨parents', todo', hpush, hstacks, hentries⟩ :=
            pushLeft_spec t.holds (n := Header.rounds h) todo (by omega) hrest
          have hlen' : (todo'.flatMap Pending.entries).length + 1 =
              t.entries.length + (todo.flatMap Pending.entries).length := by
            rw [hentries, length_append, Pending.entries, length_cons]
            omega
          simp only [hfn, t.root, hpush]
          rw [ih s' hstacks (by omega) (by omega), hentries]

theorem Header.Shows.forEach {t : Header} (ht : t.Shows h s) (fn : Bytes → Bytes → σ → Bool × σ) (init : σ) :
    t.forEach h fn init = some (visit fn s.plain.entries init) := by
  have hlen := ht.length_le
  have hentries : s.plain.entries.length = s.addrs.length := by simp [entries_plain, addrs]
  obtain ⟨parents, todo, hpush, hstacks, htodo⟩ := pushLeft_spec (h := h) ht.holds (n := rounds h)
    [] (by rw [rounds]; omega) ParentStack.stacks_empty
  rw [flatMap_nil, append_nil] at htodo
  rw [Header.forEach, ht.root, hpush]
  show forEachLoop fn h (rounds h) parents init = _
  rw [forEachLoop_spec init hstacks, htodo]
  all_goals
    rw [htodo, hentries, rounds]
    omega

end ForEach

/-! ## `Put` and `Delete` -/

section Mutable
open SearchTree
variable {t : Header} {h : NodeHeap}

/-- A tree taken apart, all of whose nodes may be written. -/
theorem Header.Shows.working (ht : t.Shows h (plug fs c)) (hs : h.Sound) : Working (plug fs c).addrs h h t.root fs c :=
  ⟨.refl hs, ht.holds, ht.nodup, ht.live, ht.root⟩

theorem owned_frame (c : PlacedNode) {f : NodeFrame} (hf : f ∈ fs) : Owned (plug fs c).addrs h f.addr := by
  refine .inl (mem_addrs_plug.mpr (.inr ?_))
  induction fs with
  | nil => cases hf
  | cons g fs ih =>
    rw [around, mem_append]
    rcases mem_cons.mp hf with rfl | hf
    · exact .inl mem_cons_self
    · exact .inr (ih hf)

theorem Mutable.put_shows (hs : h.Sound) (ht : t.Shows h s) (key : Bytes) (value : Option Bytes)
    (priority : Nat) : ∃ t' h' s', Mutable.put t key value priority h = some (t', h') ∧ t'.Shows h' s' ∧
      s'.plain = s.plain.put key (value.getD []) priority (s.plain.find? key).isNone ∧
      NodeHeap.Extends s.addrs h h' := by
  rcases hv : value.getD [] with v
  unfold Mutable.put
  simp only [hv]
  cases hroot : t.root with
  | none =>
    obtain rfl : s = nil := root_eq_none.mp (ht.root.symm.trans hroot)
    rcases hget : h.get with ⟨n, h₁⟩
    obtain ⟨-, hstep, hlive, hcell⟩ := NodeHeap.get_write_spec hs hget ⟨key, v, priority, none, none⟩
    simp only [NodeHeap.newTreapNode, hget]
    exact ⟨_, _, _, rfl, .single hcell hlive, rfl, hstep.weaken⟩
  | some r =>
    obtain ⟨fs, c, rfl, hfs, hc⟩ := exists_way key s
    obtain ⟨n, hrounds, -⟩ := ht.rounds_eq
    obtain ⟨parents, hparents, hfind⟩ :=
      findParents_plug ht.holds hfs (n + 1) ParentStack.stacks_empty false
    rw [← hrounds, ← ht.root, hroot] at hfind
    simp only [hfind]
    rcases hc with rfl | ⟨va, p, l, r, rfl⟩
    · cases fs with
      | nil => cases ht.root.symm.trans hroot
      | cons f fs =>
        obtain ⟨fresh, hkey, hkeys, hput⟩ := put_plug_new hfs
        obtain ⟨n', root', h', hinsert, w, -⟩ := insertNode_spec key v priority
          (ht.working hs) (fun g hg => owned_frame nil hg) hkey hkeys (by simpa using hparents)
        have hplain := (hput n' v priority).symm
        rw [hroot] at hinsert
        refine ⟨_, h', _, ?_, ht.inserted w hplain (find?_plug hfs nil), hplain, w.extends₀⟩
        simp only [root_nil, findParents, head?_cons, Option.map_some, Option.getD_some, hinsert]
    · obtain ⟨hcell, -, -⟩ := (holds_plug.mp ht.holds).1
      have hplain := (put_plug_old hfs va va.2 v p priority l r).symm
      have w := (ht.working hs).setValue (.inl (mem_addrs_plug.mpr (.inl (by simp)))) v
      refine ⟨_, _, _, ?_, ht.replaced w hplain (find?_plug_found hfs va p l r), hplain, w.extends₀⟩
      simp only [root_node, findParents, hcell, lt_irrefl, if_false, hroot]

theorem Mutable.delete_shows (hs : h.Sound) (ht : t.Shows h s) (key : Bytes) :
    ∃ t' h' s', Mutable.delete t key h = some (t', h') ∧ t'.Shows h' s' ∧
      s'.plain = s.plain.delete key ∧ NodeHeap.Extends s.addrs h h' := by
  obtain ⟨fs, c, rfl, hfs, hc⟩ := exists_way key s
  obtain ⟨n, hrounds, hn⟩ := ht.rounds_eq
  have hget := getNode_plug ht.holds hfs (n + 1) none
  rw [← hrounds, ← ht.root] at hget
  unfold Mutable.delete
  rw [hget]
  rcases hc with rfl | ⟨va, p, l, r, rfl⟩
  · refine ⟨t, h, _, rfl, ht, ?_, .refl hs⟩
    rw [plain_plug, delete_plug (leads_map_plain hfs)]
    rfl
  · obtain ⟨hcell, -, -⟩ := (holds_plug.mp ht.holds).1
    have hdelete := delete_plug_found hfs va p l r
    simp only [root_node, getNode, hcell, lt_irrefl, if_false, Option.or_none]
    by_cases honly : fs.head?.map Frame.addr = none ∧ l.root = none ∧ r.root = none
    · -- The root is the only node.
      rw [if_pos honly]
      obtain ⟨rfl, rfl, rfl⟩ := only_node honly
      refine ⟨_, h, nil, rfl, .empty h, ?_, .refl hs⟩
      rw [hdelete, plug, sink]
    · rw [if_neg honly]
      rw [addrs_node, length_append, length_cons] at hn
      have howned : ∀ a ∈ l.addrs ++ r.addrs, a ∈ (plug fs (node key va p l r)).addrs := by
        intro a ha
        refine mem_addrs_plug.mpr (.inl ?_)
        rw [addrs_node]
        rcases mem_append.mp ha with ha | ha
        · simp [ha]
        · simp [ha]
      obtain ⟨h', root', fs', hdown, w, hhead, hplain, hnil⟩ := rotateDown_spec (n := Header.rounds h)
        (fun child h => (child, h)) (.inl (mem_addrs_plug.mpr (.inl (by simp)))) (by omega) (ht.working hs)
        (fun a ha => .inl (mem_addrs_plug.mpr (.inr (head_mem_around ha))))
        (fun a ha => copies_self (howned a ha))
      cases fs' with
      | nil =>
        obtain ⟨rfl, rfl, rfl⟩ := hnil rfl
        exact absurd ⟨rfl, rfl, rfl⟩ honly
      | cons f fs' =>
        obtain ⟨hleaf, -, -⟩ := (holds_plug.mp w.holds).1
        have w' := w.disconnect (hhead f.addr rfl)
        have hplain' := hplain.trans hdelete.symm
        rw [hdown]
        simp only [head?_cons, Option.map_some, hleaf]
        exact ⟨_, _, _, rfl, ht.deleted w' hplain' (find?_plug_found hfs va p l r), hplain', w'.extends₀⟩

end Mutable
end NogoCommons.Treap.Linked
