import NogoCommons.Treap.Linked

/-!
# `database/internal/treap/immutable.go` — the immutable treap, node by node

An update of an immutable treap makes copies of the nodes on its way and changes only those. The other
nodes are shared with the version it started from, which its holders go on reading.

`Put` takes any number of pairs. Between two of them it looks at the copies it made for the first: the
ones that the second has replaced again are of no use to anybody and go back to the pool. It finds out by
looking the node's key up in the newer treap and comparing pointers. What this rests on is that such a
node was made in this call (`Fresh`), so that no version handed out before has it, and that a node of a
search tree is found under its key, so that the newer treap does not have it either.
-/

namespace NogoCommons.Treap.Linked
open Lib
open List hiding nil
namespace Immutable

/-- A new node is kept for recycling if there is room for it. -/
def keepForRecycling (recycle : List Loc) (node : Loc) : List Loc :=
  if recycle.length < staticDepth then recycle ++ [node] else recycle

/-- The parent at the top of the stack, if there is one, is made to point to the copy of a node. -/
def linkCopy (h : NodeHeap) (parents : ParentStack Loc) (node nodeCopy : Loc) : NodeHeap :=
  match parents.peek 0 with
  | none => h
  | some oldParent => { h with cells := h.cells.relink oldParent node (some nodeCopy) }

/-- The way down of `put`: the node of the key with its copy, if there is one, the heap, the copies on
the stack, those kept for recycling, and whether the last comparison was for the smaller. -/
def cloneParents (key : Bytes) : Nat → NodeHeap → Option Loc → ParentStack Loc → List Loc → Bool →
    Option (Option (Loc × Loc) × NodeHeap × ParentStack Loc × List Loc × Bool)
  | 0, _, _, _, _, _ => none
  | _ + 1, h, none, parents, recycle, less => some (none, h, parents, recycle, less)
  | n + 1, h, some node, parents, recycle, _ =>
    let (nodeCopy, h) := h.cloneTreapNode node
    let recycle := keepForRecycling recycle nodeCopy
    let h := linkCopy h parents node nodeCopy
    let parents := parents.push nodeCopy
    if key < (h.cells node).key then cloneParents key n h (h.cells node).left parents recycle true
    else if (h.cells node).key < key then cloneParents key n h (h.cells node).right parents recycle false
    else some (some (node, nodeCopy), h, parents, recycle, false)

/-- `put`, when `rand.Int` answers `priority`. The nodes it answers are those it has made. -/
def put (t : Header) (key : Bytes) (value : Option Bytes) (priority : Nat) (h : NodeHeap) :
    Option (Header × List Loc × NodeHeap) :=
  let value := value.getD []
  match t.root with
  | none =>
    let (root, h) := h.newTreapNode key value priority
    some (⟨some root, 1, nodeSize key value⟩, [root], h)
  | some _ =>
    match cloneParents key (Header.rounds h) h t.root .empty [] false with
    | none => none
    | some (some (node, nodeCopy), h, parents, recycle, _) =>
      let old := (h.cells node).value
      some (⟨parents.peek (parents.len - 1), t.count,
          t.totalSize - UInt64.ofNat old.length + UInt64.ofNat value.length⟩, recycle,
        h.write nodeCopy { h.cells nodeCopy with value })
    | some (none, h, parents, recycle, less) =>
      (insertNode key value priority parents less (parents.peek (parents.len - 1)) h).map
        fun (node, root, h) =>
          (⟨root, t.count + 1, t.totalSize + nodeSize key value⟩, keepForRecycling recycle node, h)

/-- The nodes of the version before that the new one does not use go back to the pool. -/
def recycleUnused (newTreap : Header) : List Loc → NodeHeap → Option NodeHeap
  | [], h => some h
  | node :: prevTreapNodes, h =>
    match getNode h.cells (h.cells node).key (Header.rounds h) newTreap.root none with
    | none => none
    | some (got, _) =>
      if got = some node then recycleUnused newTreap prevTreapNodes h
      else recycleUnused newTreap prevTreapNodes (h.recycle node)

/-- `KVPair`, with the priority that `rand.Int` answers if the key is new. -/
structure KVPair where
  key : Bytes
  value : Option Bytes
  priority : Nat

/-- The loop of `Put`. -/
def putLoop : List KVPair → Header → List Loc → NodeHeap → Option (Header × NodeHeap)
  | [], treap, _, h => some (treap, h)
  | kvPair :: kvPairs, treap, prevTreapNodes, h =>
    match put treap kvPair.key kvPair.value kvPair.priority h with
    | none => none
    | some (newTreap, newTreapNodes, h) =>
      match recycleUnused newTreap prevTreapNodes h with
      | none => none
      | some h => putLoop kvPairs newTreap newTreapNodes h

/-- `Put`. -/
def putAll (t : Header) (kvPairs : List KVPair) (h : NodeHeap) : Option (Header × NodeHeap) :=
  putLoop kvPairs t [] h

/-- The loop of `Delete` that replaces the parents, from the root down to the node to delete. -/
def copyParents (parents : ParentStack Loc) : Nat → NodeHeap → ParentStack Loc → Option (NodeHeap × ParentStack Loc)
  | 0, h, newParents => some (h, newParents)
  | i + 1, h, newParents =>
    match parents.peek i with
    | none => none
    | some node =>
      let (nodeCopy, h) := h.cloneTreapNode node
      copyParents parents i (linkCopy h newParents node nodeCopy) (newParents.push nodeCopy)

def delete (t : Header) (key : Bytes) (h : NodeHeap) : Option (Header × NodeHeap) :=
  match findParents h.cells key (Header.rounds h) t.root .empty false with
  | none => none
  | some (none, _, _) => some (t, h)
  | some (some delNode, parents, _) =>
    if parents.peek 1 = none ∧ (h.cells delNode).left = none ∧ (h.cells delNode).right = none then
      some (⟨none, 0, 0⟩, h)
    else
      match copyParents parents parents.len h .empty with
      | none => none
      | some (h, newParents) =>
        match newParents.pop with
        | (none, _) => none
        | (some delNode, newParents) =>
          match rotateDown NodeHeap.cloneTreapNode (Header.rounds h) h
              (newParents.peek (newParents.len - 1)) delNode (newParents.peek 0) with
          | some (h, root, some parent) =>
            some (⟨root, t.count - 1, t.totalSize - nodeSize (h.cells delNode).key (h.cells delNode).value⟩,
              { h with cells := disconnect h.cells parent delNode })
          | _ => none

end Immutable

/-! ## Copying a way down -/

variable {h₀ h : NodeHeap} {t : Header} {s : PlacedNode}
section Copying
open SearchTree Immutable
variable {own : List Loc} {h' : NodeHeap} {gs : List NodeFrame}

/-- The nodes are new since `h₀`, and all different. -/
structure Fresh (h₀ h : NodeHeap) (nodes : List Loc) : Prop where
  nodup : nodes.Nodup
  live : ∀ a ∈ nodes, h.Live a
  new : ∀ a ∈ nodes, ¬ h₀.Live a

variable {nodes : List Loc} {fs : List NodeFrame}

theorem Fresh.mono (hf : Fresh h₀ h nodes) (hlive : ∀ a, h.Live a → h'.Live a) : Fresh h₀ h' nodes :=
  ⟨hf.nodup, fun a ha => hlive a (hf.live a ha), hf.new⟩

variable {c : Loc} {parents : ParentStack Loc}

theorem Fresh.keep (hf : Fresh h₀ h nodes) (hnot : ¬ h.Live c) (hnew : ¬ h₀.Live c) (hc : h'.Live c)
    (hlive : ∀ a, h.Live a → h'.Live a) : Fresh h₀ h' (keepForRecycling nodes c) := by
  unfold keepForRecycling
  split_ifs
  · refine ⟨?_, ?_, ?_⟩
    · rw [nodup_append]
      refine ⟨hf.nodup, nodup_singleton c, fun a ha b hb hab => hnot ?_⟩
      rw [← mem_singleton.mp hb, ← hab]
      exact hf.live a ha
    · intro a ha
      rcases mem_append.mp ha with ha | ha
      · exact hlive a (hf.live a ha)
      · exact mem_singleton.mp ha ▸ hc
    · intro a ha
      rcases mem_append.mp ha with ha | ha
      · exact hf.new a ha
      · exact mem_singleton.mp ha ▸ hnew
  · exact hf.mono hlive

theorem owned_head (hgs : ∀ g ∈ gs, Owned own h₀ g.addr) : ∀ a ∈ gs.head?.map Frame.addr, Owned own h₀ a := by
  intro a ha
  cases gs with
  | nil => cases ha
  | cons g gs =>
    cases ha
    exact hgs g mem_cons_self

/-- One round: the root of the subtree is copied and linked to the copies above it. -/
theorem clone_root {k : Bytes} {va : Bytes × Loc} {p : Nat} {l r : PlacedNode} {root : Option Loc}
    (w : Working own h₀ h root gs (node k va p l r)) (hgs : ∀ g ∈ gs, Owned own h₀ g.addr)
    (hparents : parents.Stacks (gs.map Frame.addr)) (hclone : h.cloneTreapNode va.2 = (c, h')) :
    ∃ root', Working own h₀ (linkCopy h' parents va.2 c) root' gs (node k (va.1, c) p l r) ∧
      Owned own h₀ c ∧ ¬ h.Live c ∧ (linkCopy h' parents va.2 c).Live c ∧
      (∀ b, h.Live b → (linkCopy h' parents va.2 c).Live b) ∧
      (linkCopy h' parents va.2 c).cells va.2 = h.cells va.2 := by
  obtain ⟨⟨cells, root'⟩, hrelink⟩ : ∃ x, relinkGrandparent h'.cells root c va.2 (gs.head?.map Frame.addr) = x :=
    ⟨_, rfl⟩
  have hlink : linkCopy h' parents va.2 c = { h' with cells } := by
    unfold linkCopy
    rw [hparents.peek, ← head?_eq_getElem?, head?_map]
    cases hhead : gs.head?.map Frame.addr with
    | none | some a =>
      rw [hhead] at hrelink
      cases hrelink
      rfl
  have hva : h.Live va.2 := w.live _ (mem_addrs_plug.mpr (.inl (by simp)))
  obtain ⟨w', howned, hlive, hkeep⟩ := w.copyRoot (owned_head hgs) (copies_clone va.2) hclone hrelink
  rw [hlink]
  refine ⟨root', w', howned, not_live_clone w.extends₀.sound hclone, hlive, fun b hb => (hkeep b hb).1,
    (hkeep va.2 hva).2 fun hmem => ?_⟩
  exact (nodup_plug.mp w.nodup).2.2 va.2 (by simp) (head_mem_around hmem)

/-- The node of a frame, copied with what is above it. -/
theorem clone_frame {g : NodeFrame} {root : Option Loc} (w : Working own h₀ h root gs (g.plug s))
    (hgs : ∀ g ∈ gs, Owned own h₀ g.addr) (hparents : parents.Stacks (gs.map Frame.addr))
    (hclone : h.cloneTreapNode g.addr = (c, h')) :
    ∃ root', Working own h₀ (linkCopy h' parents g.addr c) root' (g.moved c :: gs) s ∧
      Owned own h₀ c ∧ ¬ h.Live c ∧ (linkCopy h' parents g.addr c).Live c ∧
      (∀ b, h.Live b → (linkCopy h' parents g.addr c).Live b) ∧
      (linkCopy h' parents g.addr c).cells g.addr = g.cell s.root := by
  have hcell := (Frame.holds_plug.mp (holds_plug.mp w.holds).1).2.1
  cases g with
  | left k va p r | right k va p l =>
    obtain ⟨root', w', howned, hnot, hlive, hkeep, hsame⟩ := clone_root w hgs hparents hclone
    exact ⟨root', ⟨w'.extends₀, w'.holds, w'.nodup, w'.live, w'.root⟩, howned, hnot, hlive, hkeep, hsame.trans hcell⟩

/-- The way down of `put` copies the frames that lead to its key. -/
theorem cloneParents_plug {key : Bytes} (hfs : ∀ f ∈ fs, f.Leads key) (n : Nat) {c : PlacedNode} :
    ∀ {h} {root} {gs} {parents}
      {recycle : List Loc} (less : Bool), Working own h₀ h root gs (plug fs c) →
      (∀ g ∈ gs, Owned own h₀ g.addr) → parents.Stacks (gs.map Frame.addr) → Fresh h₀ h recycle →
      ∃ h' root' fs' parents' recycle', cloneParents key (n + fs.length) h (plug fs c).root parents recycle less =
          cloneParents key n h' c.root parents' recycle' ((fs.head?.map isLeft).getD less) ∧
        Working own h₀ h' root' (fs' ++ gs) c ∧ fs'.map Frame.plain = fs.map Frame.plain ∧
        (∀ g ∈ fs' ++ gs, Owned own h₀ g.addr) ∧ parents'.Stacks ((fs' ++ gs).map Frame.addr) ∧
        Fresh h₀ h' recycle' := by
  induction fs using List.reverseRecOn with
  | nil =>
    intro h root gs parents recycle less w hgs hparents hfresh
    exact ⟨h, root, [], parents, recycle, rfl, w, rfl, hgs, hparents, hfresh⟩
  | append_singleton fs g ih =>
    intro h root gs parents recycle less w hgs hparents hfresh
    have hg : g.Leads key := hfs g (by simp)
    rw [plug_append] at w ⊢
    rcases hclone : h.cloneTreapNode g.addr with ⟨a, h₁⟩
    obtain ⟨root₁, w₁, howned, hnot, hlive, hkeep, hcell⟩ := clone_frame w hgs hparents hclone
    have hnew : ¬ h₀.Live a := fun hl => hnot (w.extends₀.live a hl)
    obtain ⟨h', root', fs', parents', recycle', hrest, w', hplain, howned', hstacks, hfresh'⟩ :=
      ih (fun f hf => hfs f (by simp [hf])) (isLeft g) w₁
        (forall_mem_cons.mpr ⟨by simpa using howned, hgs⟩)
        (by simpa using hparents.push a) (hfresh.keep hnot hnew hlive hkeep)
    refine ⟨h', root', fs' ++ [g.moved a], parents', recycle', ?_, by simpa using w', by simp [hplain],
      by simpa using howned', by simpa using hstacks, hfresh'⟩
    rw [isLeft_concat, ← hrest, length_append, length_singleton, ← Nat.add_assoc]
    show cloneParents key _ h (g.plug (plug fs c)).root parents recycle less = _
    rw [Frame.root_plug, cloneParents, hclone]
    simp only [hcell]
    cases g with
    | left k va p r => exact if_pos hg
    | right k va p l => exact (if_neg (not_lt_of_gt hg)).trans (if_pos hg)

/-- The root of the new tree is at the bottom of the stack. -/
theorem peek_bottom {a : Loc} (hparents : parents.Stacks (a :: gs.map Frame.addr)) :
    parents.peek (parents.len - 1) = rootAbove gs (some a) := by
  have hlast : ∀ (gs : List NodeFrame) a, (a :: gs.map Frame.addr)[gs.length]? = rootAbove gs (some a) := by
    intro gs
    induction gs with
    | nil =>
      intro a
      rfl
    | cons g gs ih =>
      intro a
      rw [length_cons, getElem?_cons_succ, map_cons]
      exact ih g.addr
  rw [hparents.peek, hparents.len, length_cons, length_map, Nat.add_sub_cancel]
  exact hlast gs a

theorem leads_of_map_plain {key : Bytes} {fs' : List NodeFrame} (hfs : ∀ f ∈ fs, f.Leads key)
    (hplain : fs'.map Frame.plain = fs.map Frame.plain) : ∀ f ∈ fs', f.Leads key := by
  intro f hf
  have hmem : f.plain ∈ fs.map Frame.plain := hplain ▸ mem_map_of_mem hf
  exact Frame.leads_plain.mp (leads_map_plain hfs _ hmem)

end Copying

/-! ## `put` -/

section Put
open SearchTree Immutable

/-- A tree taken as it is: none of its nodes may be written. -/
theorem Header.Shows.shared (ht : t.Shows h s) (hs : h.Sound) : Working [] h h t.root [] s :=
  ⟨.refl hs, ht.holds, ht.nodup, ht.live, ht.root⟩

theorem Immutable.put_shows (hs : h.Sound) (ht : t.Shows h s) (key : Bytes) (value : Option Bytes)
    (priority : Nat) : ∃ t' nodes h' s', Immutable.put t key value priority h = some (t', nodes, h') ∧
      t'.Shows h' s' ∧ s'.plain = s.plain.put key (value.getD []) priority (s.plain.find? key).isNone ∧
      NodeHeap.Extends [] h h' ∧ Fresh h h' nodes := by
  rcases hv : value.getD [] with v
  unfold Immutable.put
  simp only [hv]
  cases hroot : t.root with
  | none =>
    obtain rfl : s = nil := root_eq_none.mp (ht.root.symm.trans hroot)
    rcases hget : h.get with ⟨n, h₁⟩
    obtain ⟨hnot, hstep, hlive, hcell⟩ := NodeHeap.get_write_spec hs hget ⟨key, v, priority, none, none⟩
    simp only [NodeHeap.newTreapNode, hget]
    refine ⟨_, _, _, _, rfl, .single hcell hlive, rfl, hstep, nodup_singleton n, ?_, ?_⟩
    · intro a ha
      exact mem_singleton.mp ha ▸ hlive
    · intro a ha
      exact mem_singleton.mp ha ▸ hnot
  | some r =>
    obtain ⟨fs, c, rfl, hfs, hc⟩ := exists_way key s
    obtain ⟨n, hrounds, -⟩ := ht.rounds_eq
    obtain ⟨h', root', fs', parents, recycle, hclone, w, hplain, howned, hparents, hfresh⟩ :=
      cloneParents_plug hfs (n + 1) false (ht.shared hs) (by simp) ParentStack.stacks_empty
        ⟨nodup_nil, by simp, by simp⟩
    rw [← hrounds, ← ht.root, hroot] at hclone
    rw [append_nil] at w howned hparents
    have hfs' := leads_of_map_plain hfs hplain
    have hsame : (plug fs' c).plain = (plug fs c).plain := by rw [plain_plug, hplain, ← plain_plug]
    simp only [hclone]
    rcases hc with rfl | ⟨va, p, l, r, rfl⟩
    · cases fs with
      | nil => cases ht.root.symm.trans hroot
      | cons f fs =>
        cases fs' with
        | nil => cases hplain
        | cons f' fs' =>
          have hside : isLeft f = isLeft f' := by
            have hf : f'.plain = f.plain := (List.cons.inj hplain).1
            cases f <;> cases f' <;> first | rfl | cases hf
          obtain ⟨fresh, hkey, hkeys, hput⟩ := put_plug_new hfs'
          have hnewRoot : parents.peek (parents.len - 1) = (plug (f' :: fs') (nil : PlacedNode)).root := by
            rw [peek_bottom hparents, root_plug]
            rfl
          obtain ⟨n', root₂, h₂, hinsert, w₂, hnot, hlive, hkeep⟩ := insertNode_spec key v priority w.self
            howned hkey hkeys hparents
          have hplain₂ := (hput n' v priority).symm
          rw [hsame] at hplain₂
          refine ⟨_, keepForRecycling recycle n', h₂, _, ?_, ht.inserted w₂ hplain₂ (find?_plug hfs nil), hplain₂,
            w₂.extends₀, hfresh.keep hnot (fun hl => hnot (w.extends₀.live n' hl)) hlive hkeep⟩
          simp only [root_nil, cloneParents, head?_cons, Option.map_some, Option.getD_some, hnewRoot, hside, hinsert]
    · rcases hcopy : h'.cloneTreapNode va.2 with ⟨a, h₁⟩
      obtain ⟨root₁, w₁, ha, hnot, hlive, hkeep, hcell⟩ := clone_root w howned hparents hcopy
      rw [(holds_plug.mp w.holds).1.1] at hcell
      have w₂ := w₁.setValue ha v
      have hplain₂ := (put_plug_old hfs' va a v p priority l r).symm
      rw [hsame] at hplain₂
      refine ⟨_, keepForRecycling recycle a, _, _, ?_,
        ht.replaced w₂.self hplain₂ (find?_plug_found hfs va p l r), hplain₂, w₂.extends₀,
        hfresh.keep hnot (fun hl => hnot (w.extends₀.live a hl)) hlive hkeep⟩
      simp only [root_node, cloneParents, hcopy, hcell, lt_irrefl, if_false, peek_bottom (hparents.push a), root_plug]

end Put

/-! ## `Put` -/

section PutAll
open SearchTree Immutable
variable {a : Loc}

theorem live_recycle {b : Loc} : (h.recycle a).Live b ↔ h.Live b ∧ b ≠ a := by
  unfold NodeHeap.Live NodeHeap.recycle
  simp only [NodeHeap.write, mem_cons, not_or]
  constructor
  · rintro ⟨hlt, hne, hnot⟩
    exact ⟨⟨hlt, hnot⟩, hne⟩
  · rintro ⟨⟨hlt, hnot⟩, hne⟩
    exact ⟨hlt, hne, hnot⟩

theorem extends_recycle (he : NodeHeap.Extends [] h₀ h) (ha : h.Live a) (hnew : ¬ h₀.Live a) :
    NodeHeap.Extends [] h₀ (h.recycle a) := by
  have hne : ∀ b, h₀.Live b → b ≠ a := by
    rintro b hb rfl
    exact hnew hb
  refine ⟨⟨nodup_cons.mpr ⟨ha.2, he.sound.nodup⟩, ?_⟩, ?_, ?_⟩
  · intro b hb
    rcases mem_cons.mp hb with rfl | hb
    · exact ha.1
    · exact he.sound.below b hb
  · intro b hb
    exact live_recycle.mpr ⟨he.live b hb, hne b hb⟩
  · intro b hb hown
    exact (Memory.write_ne (hne b hb) _).trans (he.keeps b hb hown)

theorem Fresh.recycle (hf : Fresh h₀ h nodes) (ha : a ∉ nodes) : Fresh h₀ (h.recycle a) nodes := by
  refine ⟨hf.nodup, fun b hb => live_recycle.mpr ⟨hf.live b hb, ?_⟩, hf.new⟩
  rintro rfl
  exact ha hb

theorem Header.Shows.recycle (ht : t.Shows h s) (ha : a ∉ s.addrs) : t.Shows (h.recycle a) s := by
  have hne : ∀ b ∈ s.addrs, b ≠ a := by
    rintro b hb rfl
    exact ha hb
  exact ⟨ht.root, ht.holds.congr fun b hb => Memory.write_ne (hne b hb) _, ht.nodup,
    fun b hb => live_recycle.mpr ⟨ht.live b hb, hne b hb⟩, ht.ordered, ht.count, ht.totalSize⟩

/-- What is recycled is not in the newer treap, and neither are the nodes made for it touched. -/
theorem recycleUnused_spec {prev : List Loc} :
    ∀ {h}, NodeHeap.Extends [] h₀ h → t.Shows h s → Fresh h₀ h prev → Fresh h₀ h nodes →
      (∀ a ∈ prev, a ∉ nodes) →
      ∃ h', recycleUnused t prev h = some h' ∧ NodeHeap.Extends [] h₀ h' ∧ t.Shows h' s ∧ Fresh h₀ h' nodes := by
  induction prev with
  | nil =>
    intro h he ht hprev hnodes hapart
    exact ⟨h, rfl, he, ht, hnodes⟩
  | cons a prev ih =>
    intro h he ht hprev hnodes hapart
    obtain ⟨hnot, hnodup⟩ := nodup_cons.mp hprev.nodup
    have hrest : Fresh h₀ h prev := ⟨hnodup, fun b hb => hprev.live b (mem_cons_of_mem _ hb),
      fun b hb => hprev.new b (mem_cons_of_mem _ hb)⟩
    have hapart' : ∀ b ∈ prev, b ∉ nodes := fun b hb => hapart b (mem_cons_of_mem _ hb)
    obtain ⟨parent, hget⟩ := ht.getNode_root (h.cells a).key
    rw [recycleUnused, hget]
    simp only []
    split_ifs with hsame
    · exact ih he ht hrest hnodes hapart'
    · have hunused : a ∉ s.addrs := fun hmem => hsame (ht.holds.root_nodeAt ht.ordered hmem)
      exact ih (extends_recycle he (hprev.live a mem_cons_self) (hprev.new a mem_cons_self))
        (ht.recycle hunused) (hrest.recycle hnot) (hnodes.recycle (hapart a mem_cons_self)) hapart'

/-- The recursive `put`, for one pair after the other. -/
def putPlain (s : TreapNode) (kvPairs : List KVPair) : TreapNode :=
  kvPairs.foldl (fun s kv => s.put kv.key (kv.value.getD []) kv.priority (s.find? kv.key).isNone) s

theorem putLoop_shows {kvPairs : List KVPair} :
    ∀ {t} {h} {s} {prev}, NodeHeap.Extends [] h₀ h → t.Shows h s →
      Fresh h₀ h prev →
      ∃ t' h' s', putLoop kvPairs t prev h = some (t', h') ∧ t'.Shows h' s' ∧
        s'.plain = putPlain s.plain kvPairs ∧ NodeHeap.Extends [] h₀ h' := by
  induction kvPairs with
  | nil =>
    intro t h s prev he ht hprev
    exact ⟨t, h, s, rfl, ht, rfl, he⟩
  | cons kv kvPairs ih =>
    intro t h s prev he ht hprev
    obtain ⟨t₁, nodes, h₁, s₁, hput, ht₁, hplain, hext, hnodes⟩ :=
      put_shows he.sound ht kv.key kv.value kv.priority
    have hnodes₀ : Fresh h₀ h₁ nodes :=
      ⟨hnodes.nodup, hnodes.live, fun a ha hl => hnodes.new a ha (he.live a hl)⟩
    obtain ⟨h₂, hrecycle, hext₂, ht₂, hnodes₂⟩ := recycleUnused_spec (he.trans hext) ht₁
      (hprev.mono hext.live) hnodes₀ fun a ha hmem => hnodes.new a hmem (hprev.live a ha)
    obtain ⟨t', h', s', hloop, ht', hplain', hext'⟩ := ih hext₂ ht₂ hnodes₂
    refine ⟨t', h', s', ?_, ht', ?_, hext'⟩
    · rw [putLoop, hput]
      simp only [hrecycle, hloop]
    · rw [hplain', hplain]
      rfl

theorem Immutable.putAll_shows (hs : h.Sound) (ht : t.Shows h s) (kvPairs : List KVPair) :
    ∃ t' h' s', putAll t kvPairs h = some (t', h') ∧ t'.Shows h' s' ∧ s'.plain = putPlain s.plain kvPairs ∧
      NodeHeap.Extends [] h h' :=
  putLoop_shows (.refl hs) ht ⟨nodup_nil, by simp, by simp⟩

end PutAll

/-! ## `Delete` -/

section Delete
open SearchTree Immutable
variable {own : List Loc}

/-- The loop copies the nodes on the stack, from the bottom to the top. -/
theorem copyParents_spec {parents : ParentStack Loc} {k : Bytes} {va : Bytes × Loc} {p : Nat} {l r : PlacedNode} :
    ∀ {h} {root} {gs} {newParents},
      Working own h₀ h root gs (plug fs (node k va p l r)) → (∀ g ∈ gs, Owned own h₀ g.addr) →
      newParents.Stacks (gs.map Frame.addr) →
      (∀ j, j < fs.length + 1 → parents.peek j = (va.2 :: fs.map Frame.addr)[j]?) →
      ∃ h' root' fs' c newParents', copyParents parents (fs.length + 1) h newParents = some (h', newParents') ∧
        Working own h₀ h' root' (fs' ++ gs) (node k (va.1, c) p l r) ∧
        fs'.map Frame.plain = fs.map Frame.plain ∧ (∀ g ∈ fs' ++ gs, Owned own h₀ g.addr) ∧ Owned own h₀ c ∧
        newParents'.Stacks (c :: (fs' ++ gs).map Frame.addr) := by
  induction fs using List.reverseRecOn with
  | nil =>
    intro h root gs newParents w hgs hnew hpeek
    rcases hclone : h.cloneTreapNode va.2 with ⟨c, h₁⟩
    obtain ⟨root', w', howned, -⟩ := clone_root w hgs hnew hclone
    refine ⟨linkCopy h₁ newParents va.2 c, root', [], c, newParents.push c, ?_, w', rfl, hgs, howned, hnew.push c⟩
    rw [copyParents, hpeek _ (Nat.lt_succ_self _)]
    simp only [length_nil, getElem?_cons_zero, hclone]
    rfl
  | append_singleton fs g ih =>
    intro h root gs newParents w hgs hnew hpeek
    rw [plug_append] at w
    rw [length_append, length_singleton] at hpeek ⊢
    rcases hclone : h.cloneTreapNode g.addr with ⟨a, h₁⟩
    obtain ⟨root₁, w₁, howned, -⟩ := clone_frame w hgs hnew hclone
    have hlast : (va.2 :: (fs ++ [g]).map Frame.addr)[fs.length + 1]? = some g.addr := by simp
    obtain ⟨h', root', fs', c, newParents', hcopy, w', hplain, howned', hc, hstacks⟩ := ih w₁
      (forall_mem_cons.mpr ⟨by simpa using howned, hgs⟩) (by simpa using hnew.push a)
      (by
        intro j hj
        rw [hpeek j (by omega), map_append, ← cons_append, getElem?_append_left (by simpa using hj)])
    refine ⟨h', root', fs' ++ [g.moved a], c, newParents', ?_, by simpa using w', by simp [hplain],
      by simpa using howned', hc, by simpa using hstacks⟩
    rw [copyParents, hpeek _ (Nat.lt_succ_self _), hlast]
    simp only [hclone, hcopy]

theorem Immutable.delete_shows (hs : h.Sound) (ht : t.Shows h s) (key : Bytes) :
    ∃ t' h' s', Immutable.delete t key h = some (t', h') ∧ t'.Shows h' s' ∧
      s'.plain = s.plain.delete key ∧ NodeHeap.Extends [] h h' := by
  obtain ⟨fs, c, rfl, hfs, hc⟩ := exists_way key s
  obtain ⟨n, hrounds, -⟩ := ht.rounds_eq
  obtain ⟨parents, hparents, hfind⟩ := findParents_plug ht.holds hfs (n + 1) ParentStack.stacks_empty false
  rw [← hrounds, ← ht.root] at hfind
  rw [append_nil] at hparents
  unfold Immutable.delete
  rw [hfind]
  rcases hc with rfl | ⟨va, p, l, r, rfl⟩
  · refine ⟨t, h, _, rfl, ht, ?_, .refl hs⟩
    rw [plain_plug, delete_plug (leads_map_plain hfs)]
    rfl
  · obtain ⟨hcell, -, -⟩ := (holds_plug.mp ht.holds).1
    have hstack := hparents.push va.2
    have hpeek : (parents.push va.2).peek 1 = fs.head?.map Frame.addr := by
      rw [hstack.peek, getElem?_cons_succ, ← head?_eq_getElem?, head?_map]
    have hdelete := delete_plug_found hfs va p l r
    simp only [root_node, findParents, hcell, lt_irrefl, if_false, hpeek]
    by_cases honly : fs.head?.map Frame.addr = none ∧ l.root = none ∧ r.root = none
    · -- The root is the only node.
      rw [if_pos honly]
      obtain ⟨rfl, rfl, rfl⟩ := only_node honly
      refine ⟨_, h, nil, rfl, .empty h, ?_, .refl hs⟩
      rw [hdelete, plug, sink]
    · rw [if_neg honly]
      obtain ⟨h₁, root₁, fs₁, a, newParents, hcopy, w₁, hplain₁, howned, ha, hnew⟩ :=
        copyParents_spec (ht.shared hs) (by simp) ParentStack.stacks_empty fun j _ => hstack.peek j
      rw [append_nil] at w₁ howned hnew
      obtain ⟨hpop, hrest⟩ := hnew.pop
      have hpop' : newParents.pop = (some a, newParents.pop.2) := Prod.ext hpop rfl
      rcases hrestEq : newParents.pop.2 with rest
      rw [hrestEq] at hpop' hrest
      have hparent : rest.peek 0 = fs₁.head?.map Frame.addr := by
        rw [hrest.peek, ← head?_eq_getElem?, tail_cons, head?_map]
      obtain ⟨hcell₁, -, -⟩ := (holds_plug.mp w₁.holds).1
      -- The pointer at the bottom of the stack is the root, and with an empty stack it is of no account.
      have hroot : rotateDown NodeHeap.cloneTreapNode (Header.rounds h₁) h₁ (rest.peek (rest.len - 1)) a
          (fs₁.head?.map Frame.addr) = rotateDown NodeHeap.cloneTreapNode (Header.rounds h₁) h₁
            (plug fs₁ (node key (va.1, a) p l r)).root a (fs₁.head?.map Frame.addr) := by
        cases fs₁ with
        | nil =>
          obtain rfl : fs = [] := by simpa using hplain₁.symm
          refine rotateDown_root (fun hnone => honly ⟨rfl, ?_⟩) ..
          unfold chooseChild at hnone
          rw [hcell₁] at hnone
          cases hl : l.root <;> cases hr : r.root <;> simp only [hl, hr] at hnone
          · exact ⟨rfl, rfl⟩
          · cases hnone
          · cases hnone
          · split_ifs at hnone
        | cons f fs₁ => rw [peek_bottom hrest, root_plug, rootAbove]
      have hlen := NodeHeap.length_le_top w₁.nodup w₁.live
      rw [(addrs_plug fs₁ _).length_eq, length_append, addrs_node, length_append, length_cons] at hlen
      obtain ⟨h₂, root₂, fs₂, hdown, w₂, hhead, hplain₂, hnil⟩ := rotateDown_spec (n := Header.rounds h₁)
        NodeHeap.cloneTreapNode ha (by rw [Header.rounds]; omega) w₁.self
        (owned_head howned) (fun b _ => copies_clone b)
      cases fs₂ with
      | nil =>
        obtain ⟨rfl, rfl, rfl⟩ := hnil rfl
        obtain rfl : fs = [] := by simpa using hplain₁.symm
        exact absurd ⟨rfl, rfl, rfl⟩ honly
      | cons f fs₂ =>
        obtain ⟨hleaf, -, -⟩ := (holds_plug.mp w₂.holds).1
        have w₃ := w₂.disconnect (hhead f.addr rfl)
        have hplain : (plug (f :: fs₂) nil).plain = (plug fs (node key va p l r)).plain.delete key := by
          rw [hplain₂, plain_plug, hplain₁, ← plain_plug, hdelete]
        rw [hstack.len, length_cons, length_map, hcopy]
        simp only [hpop', hparent]
        simp only [hroot, hdown, head?_cons, Option.map_some, hleaf]
        exact ⟨_, _, _, rfl, ht.deleted w₃ hplain (find?_plug_found hfs va p l r), hplain, w₃.extends₀⟩

end Delete
end NogoCommons.Treap.Linked
