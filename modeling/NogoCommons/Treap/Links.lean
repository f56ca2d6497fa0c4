import NogoCommons.Treap.Common

/-!
# The loops over linked nodes

`Mutable` and `Immutable` share their algorithms. Both go down to a key with a stack of parents, both
rotate a new node up past the parents of a greater priority, and both rotate a doomed node down until it
is a leaf. They differ in what they may write to: a mutable treap its own nodes, an immutable one only
nodes it has just made. Here are the loops, with one lemma each that says what they make of a placed
tree, and in which nodes.

A walk down the nodes of a heap could go in circles. It is given as many rounds as the heap has nodes,
and answers `none` if it is not done then; for a tree, whose nodes are all different, it always is.
-/

namespace NogoCommons.Treap
open Lib
open List hiding nil

abbrev Cells := Memory Bytes Bytes Nat

/-- A tree of `treapNode`s at their addresses. -/
abbrev PlacedNode := SearchTree Bytes (Bytes × Loc) Nat
abbrev NodeFrame := Frame Bytes (Bytes × Loc) Nat

/-! ## Going down -/

/-- `get`, which answers the node of a key and its parent. -/
def getNode (cells : Cells) (key : Bytes) : Nat → Option Loc → Option Loc → Option (Option Loc × Option Loc)
  | 0, _, _ => none
  | _ + 1, none, _ => some (none, none)
  | n + 1, some node, parent =>
    if key < (cells node).key then getNode cells key n (cells node).left (some node)
    else if (cells node).key < key then getNode cells key n (cells node).right (some node)
    else some (some node, parent)

/-- The search for a key with a stack of the nodes it has come through: the node found, if any, the
stack, and whether the last comparison was for the smaller. -/
def findParents (cells : Cells) (key : Bytes) :
    Nat → Option Loc → ParentStack Loc → Bool → Option (Option Loc × ParentStack Loc × Bool)
  | 0, _, _, _ => none
  | _ + 1, none, parents, less => some (none, parents, less)
  | n + 1, some node, parents, _ =>
    let parents := parents.push node
    if key < (cells node).key then findParents cells key n (cells node).left parents true
    else if (cells node).key < key then findParents cells key n (cells node).right parents false
    else some (some node, parents, false)

/-- The frame has its hole on the left. -/
def isLeft : NodeFrame → Bool
  | .left .. => true
  | .right .. => false

variable {cells : Cells} {key : Bytes} {fs : List NodeFrame} {own : List Loc} {h₀ h : NodeHeap} {va : Bytes × Loc}
  {p : Nat} {l r : PlacedNode} {root : Option Loc} {c : Loc} {f : NodeFrame}

section Down
open SearchTree
variable {c : PlacedNode}

/-- A search goes through the frames that lead to its key. -/
theorem getNode_plug (hs : (plug fs c).Holds cells) (hfs : ∀ f ∈ fs, f.Leads key) (n : Nat)
    (parent : Option Loc) : getNode cells key (n + fs.length) (plug fs c).root parent =
      getNode cells key n c.root ((fs.head?.map Frame.addr).or parent) := by
  induction fs using List.reverseRecOn generalizing parent with
  | nil => rfl
  | append_singleton fs g ih =>
    have hg : g.Leads key := hfs g (by simp)
    rw [plug_append] at hs ⊢
    obtain ⟨hrest, hcell, -⟩ := Frame.holds_plug.mp hs
    have hhead : ((fs ++ [g]).head?.map Frame.addr).or parent =
        (fs.head?.map Frame.addr).or (some g.addr) := by
      cases fs <;> rfl
    rw [hhead, ← ih hrest (fun f hf => hfs f (by simp [hf])), length_append, length_singleton, ← Nat.add_assoc]
    show getNode cells key _ (g.plug (plug fs c)).root parent = _
    rw [Frame.root_plug, getNode, hcell]
    cases g with
    | left k va p r => exact if_pos hg
    | right k va p l => exact (if_neg (not_lt_of_gt hg)).trans (if_pos hg)

theorem isLeft_concat (fs : List NodeFrame) (g : NodeFrame) (less : Bool) :
    ((fs ++ [g]).head?.map isLeft).getD less = (fs.head?.map isLeft).getD (isLeft g) := by
  cases fs <;> rfl

theorem findParents_plug (hs : (plug fs c).Holds cells) (hfs : ∀ f ∈ fs, f.Leads key) (n : Nat)
    {parents : ParentStack Loc} {above : List Loc} (hparents : parents.Stacks above) (less : Bool) :
    ∃ parents' : ParentStack Loc, parents'.Stacks (fs.map Frame.addr ++ above) ∧
      findParents cells key (n + fs.length) (plug fs c).root parents less =
        findParents cells key n c.root parents' ((fs.head?.map isLeft).getD less) := by
  induction fs using List.reverseRecOn generalizing parents above less with
  | nil => exact ⟨parents, hparents, rfl⟩
  | append_singleton fs g ih =>
    have hg : g.Leads key := hfs g (by simp)
    rw [plug_append] at hs ⊢
    obtain ⟨hrest, hcell, -⟩ := Frame.holds_plug.mp hs
    obtain ⟨parents', hstacks, hfind⟩ :=
      ih hrest (fun f hf => hfs f (by simp [hf])) (hparents.push g.addr) (isLeft g)
    refine ⟨parents', by simpa using hstacks, ?_⟩
    rw [isLeft_concat, ← hfind, length_append, length_singleton, ← Nat.add_assoc]
    show findParents cells key _ (g.plug (plug fs c)).root parents less = _
    rw [Frame.root_plug, findParents, hcell]
    cases g with
    | left k va p r => exact if_pos hg
    | right k va p l => exact (if_neg (not_lt_of_gt hg)).trans (if_pos hg)

end Down

/-! ## Rotating a new node up -/

/-- `relinkGrandparent`, which answers the root as well. -/
def relinkGrandparent (cells : Cells) (root : Option Loc) (node parent : Loc) : Option Loc → Cells × Option Loc
  | none => (cells, some node)
  | some grandparent => (cells.relink grandparent parent (some node), root)

/-- The loop of `Put` over the stack of parents. -/
def rotateUp : Nat → Cells → Option Loc → Loc → ParentStack Loc → Cells × Option Loc
  | 0, cells, root, _, _ => (cells, root)
  | n + 1, cells, root, node, parents =>
    match parents.pop with
    | (none, _) => (cells, root)
    | (some parent, parents) =>
      if (cells parent).priority ≤ (cells node).priority then (cells, root)
      else
        let rotated :=
          if (cells parent).left = some node then cells.rotateRight parent node
          else cells.rotateLeft parent node
        let (cells, root) := relinkGrandparent rotated root node parent (parents.peek 0)
        rotateUp n cells root node parents

section Up
open SearchTree
variable {root' : Option Loc} {n : Nat}

theorem relinkGrandparent_spec {parent : Loc} (hs : HoldsAround cells fs (some parent)) (hnodup : (around fs).Nodup)
    (hparent : parent ∉ around fs) (hroot : root = rootAbove fs (some parent)) (node : Loc) {cells' : Cells}
    (hrelink : relinkGrandparent cells root node parent (fs.head?.map Frame.addr) = (cells', root')) :
    HoldsAround cells' fs (some node) ∧ root' = rootAbove fs (some node) ∧
      ∀ a, a ∉ fs.head?.map Frame.addr → cells' a = cells a := by
  cases fs with
  | nil =>
    cases hrelink
    exact ⟨trivial, rfl, fun _ _ => rfl⟩
  | cons f fs =>
    cases hrelink
    refine ⟨hs.relink hnodup hparent _, hroot, fun a ha => Memory.relink_ne ?_⟩
    rintro rfl
    exact ha rfl

theorem head_mem_around {a : Loc} (h : a ∈ fs.head?.map Frame.addr) : a ∈ around fs := by
  cases fs with
  | nil => cases h
  | cons f fs =>
    cases h
    simp [around, Frame.addrs]

/-- A node is turned over its parent and takes its place under the grandparent. -/
theorem relinkGrandparent_turn {k : Bytes} {x : Option Loc} (hnode : (node k va p l r).Holds cells)
    (hs : HoldsAround cells (f :: fs) x) (hnodup : (plug (f :: fs) (node k va p l r)).addrs.Nodup)
    (hroot : root = rootAbove fs (some f.addr)) {cells' : Cells} (hrelink :
      relinkGrandparent (f.turn cells va.2) root va.2 f.addr (fs.head?.map Frame.addr) = (cells', root')) :
    (plug fs (f.beneath k va p l r)).Holds cells' ∧ (plug fs (f.beneath k va p l r)).addrs.Nodup ∧
      root' = (plug fs (f.beneath k va p l r)).root ∧
      ∀ a, a ≠ va.2 → a ≠ f.addr → a ∉ fs.head?.map Frame.addr → cells' a = cells a := by
  obtain ⟨hcell, hsib, habove⟩ := hs
  rw [plug] at hnodup
  obtain ⟨hhere, haround, hapart⟩ := nodup_plug.mp hnodup
  have hva : va.2 ∈ (f.plug (node k va p l r)).addrs := by simp [(f.addrs_plug _).mem_iff]
  have hfa : f.addr ∈ (f.plug (node k va p l r)).addrs := by
    simp [(f.addrs_plug _).mem_iff, Frame.addrs]
  have hturned : ∀ a ∈ around fs, f.turn cells va.2 a = cells a := by
    intro a ha
    refine Frame.turn_ne ?_ ?_
    · rintro rfl
      exact hapart _ hfa ha
    · rintro rfl
      exact hapart _ hva ha
  obtain ⟨habove', hroot', hkeep⟩ := relinkGrandparent_spec (habove.congr hturned) haround (hapart _ hfa)
    hroot _ hrelink
  have hbeneath := holds_beneath hcell hsib hnode hhere
  rw [← addrs_beneath] at hhere hapart
  have htop : (f.beneath k va p l r).root = some va.2 := by
    cases f <;> rfl
  refine ⟨holds_plug.mpr ⟨hbeneath.congr fun a ha => hkeep a fun hhead => ?_, htop ▸ habove'⟩,
    nodup_plug.mpr ⟨hhere, haround, hapart⟩, ?_, ?_⟩
  · exact hapart a ha (head_mem_around hhead)
  · rwa [root_plug, htop]
  · intro a hne hnot hhead
    exact (hkeep a hhead).trans (Frame.turn_ne hnot hne)

/-- A new node rises as the recursive `put` has it rise, and only the nodes on its way are written. -/
theorem rotateUp_spec {fresh : Bytes → Bool} (hkey : fresh key = true) (hfs : ∀ f ∈ fs, fresh f.key = false) :
    ∀ {cells} {l r} {root} {parents},
      (plug fs (node key va p l r)).Holds cells → (plug fs (node key va p l r)).addrs.Nodup →
      root = (plug fs (node key va p l r)).root → parents.Stacks (fs.map Frame.addr) →
      ∀ {cells'} {root'}, rotateUp fs.length cells root va.2 parents = (cells', root') →
      (rise fresh fs (node key va p l r)).Holds cells' ∧
        root' = (rise fresh fs (node key va p l r)).root ∧
        ∀ a, a ≠ va.2 → a ∉ fs.map Frame.addr → cells' a = cells a := by
  induction fs with
  | nil =>
    intro cells l r root parents hs hnodup hroot hparents cells' root' hup
    cases hup
    exact ⟨hs, hroot, fun _ _ _ => rfl⟩
  | cons f fs ih =>
    intro cells l r root parents hs hnodup hroot hparents cells' root' hup
    obtain ⟨hpop, hrest⟩ := hparents.pop
    have hf : fresh f.key = false := hfs f mem_cons_self
    have hfs' : ∀ g ∈ fs, fresh g.key = false := fun g hg => hfs g (mem_cons_of_mem _ hg)
    obtain ⟨hnode, haround⟩ := holds_plug.mp hs
    have hcell := haround.1
    have hsibling : va.2 ∉ f.sibling.addrs := fun hmem =>
      (nodup_plug.mp hnodup).2.2 va.2 (by simp) (by simp [around, Frame.addrs, hmem])
    have hpriority : (cells f.addr).priority = f.priority := by
      rw [hcell]
      cases f <;> rfl
    have hpriority' : (cells va.2).priority = p := by rw [hnode.1]
    rw [rise, Frame.rotate_node hkey]
    have hpop' : parents.pop = (some f.addr, parents.pop.2) := Prod.ext hpop rfl
    rw [length_cons, rotateUp, hpop'] at hup
    simp only [hpriority, hpriority'] at hup
    by_cases hle : f.priority ≤ p
    · -- It stops here, and nothing above is touched.
      rw [if_pos hle] at hup
      cases hup
      rw [if_neg (not_lt_of_ge hle), rise_of_not_fresh hfs']
      · exact ⟨hs, hroot, fun _ _ _ => rfl⟩
      · cases f <;> simpa [Frame.plug, rootKey?, Frame.key] using hf
    · rw [if_neg hle] at hup
      rw [if_pos (not_le.mp hle)]
      rw [Frame.turn_eq hcell hsibling, hrest.peek, ← head?_eq_getElem?, map_cons, tail_cons, head?_map] at hup
      obtain ⟨⟨cells₂, root₂⟩, hrelink⟩ : ∃ x, relinkGrandparent (f.turn cells va.2) root va.2 f.addr
          (fs.head?.map Frame.addr) = x := ⟨_, rfl⟩
      rw [hrelink] at hup
      obtain ⟨hs₂, hnodup₂, hroot₂, hkeep₂⟩ := relinkGrandparent_turn hnode haround hnodup
        (hroot.trans (root_plug (f :: fs) _)) hrelink
      obtain ⟨l', r', hrot⟩ : ∃ l' r', f.beneath key va p l r = node key va p l' r' := by
        cases f with
        | left => exact ⟨_, _, rfl⟩
        | right => exact ⟨_, _, rfl⟩
      rw [hrot] at hs₂ hnodup₂ hroot₂ ⊢
      obtain ⟨hholds, hroot', hkeep⟩ := ih hfs' hs₂ hnodup₂ hroot₂ hrest hup
      refine ⟨hholds, hroot', fun a hne hnot => ?_⟩
      rw [map_cons, mem_cons, not_or] at hnot
      refine (hkeep a hne hnot.2).trans (hkeep₂ a hne hnot.1 fun hhead => ?_)
      exact hnot.2 (by
        cases fs with
        | nil => cases hhead
        | cons g gs => cases hhead; simp)

end Up

/-! ## Rotating a doomed node down -/

/-- The child the doomed node is rotated under, and whether it is the left one: the child of the higher
priority. There is none under a leaf. -/
def chooseChild (cells : Cells) (node : Loc) : Option (Loc × Bool) :=
  match (cells node).left, (cells node).right with
  | none, none => none
  | none, some right => some (right, false)
  | some left, none => some (left, true)
  | some left, some right =>
    if (cells right).priority ≤ (cells left).priority then some (left, true) else some (right, false)

/-- The loop of `Delete`, which answers the heap, the root and the parent of the node, by then a leaf.
`Immutable` rotates a copy of the child, `Mutable` the child itself. -/
def rotateDown (copy : Loc → NodeHeap → Loc × NodeHeap) :
    Nat → NodeHeap → Option Loc → Loc → Option Loc → Option (NodeHeap × Option Loc × Option Loc)
  | 0, _, _, _, _ => none
  | n + 1, h, root, node, parent =>
    match chooseChild h.cells node with
    | none => some (h, root, parent)
    | some (child, isLeft) =>
      let (child, h) := copy child h
      let rotated := if isLeft then h.cells.rotateRight node child else h.cells.rotateLeft node child
      let (cells, root) := relinkGrandparent rotated root child node parent
      rotateDown copy n { h with cells } root node (some child)

/-- A node that may be written, when these are one's own and everything else in use at the start has to
stay. -/
def Owned (own : List Loc) (h₀ : NodeHeap) (a : Loc) : Prop := a ∈ own ∨ ¬ h₀.Live a

theorem Owned.ne {a b : Loc} (hb : Owned own h₀ b) (ha : h₀.Live a) (hown : a ∉ own) : a ≠ b := by
  rintro rfl
  rcases hb with hb | hb
  · exact hown hb
  · exact hb ha

/-- A tree in the making: the frames around a subtree, in a heap that has come from `h₀`. -/
structure Working (own : List Loc) (h₀ h : NodeHeap) (root : Option Loc) (fs : List NodeFrame)
    (s : PlacedNode) : Prop where
  extends₀ : NodeHeap.Extends own h₀ h
  holds : (SearchTree.plug fs s).Holds h.cells
  nodup : (SearchTree.plug fs s).addrs.Nodup
  live : ∀ a ∈ (SearchTree.plug fs s).addrs, h.Live a
  root : root = (SearchTree.plug fs s).root

theorem Working.self {s : PlacedNode} (w : Working own h₀ h root fs s) :
    Working own h₀ h (SearchTree.plug fs s).root fs s :=
  ⟨w.extends₀, w.holds, w.nodup, w.live, rfl⟩

/-- What taking a child for a rotation comes to: a node of one's own with the same in its cell. -/
def Copies (own : List Loc) (h₀ : NodeHeap) (copy : Loc → NodeHeap → Loc × NodeHeap) (c : Loc) : Prop :=
  ∀ {h h' : NodeHeap} {c' : Loc}, NodeHeap.Extends own h₀ h → h.Live c → copy c h = (c', h') →
    NodeHeap.Extends own h₀ h' ∧ Owned own h₀ c' ∧ h'.Live c' ∧ h'.cells c' = h.cells c ∧
      (c' = c ∨ ¬ h.Live c') ∧ ∀ b, h.Live b → h'.Live b ∧ h'.cells b = h.cells b

section Down
open SearchTree
variable {h' : NodeHeap} {copy : Loc → NodeHeap → Loc × NodeHeap}

theorem copies_self (hc : c ∈ own) : Copies own h₀ (fun c h => (c, h)) c := by
  intro h h' c' hext hlive hcopy
  cases hcopy
  exact ⟨hext, .inl hc, hlive, rfl, .inl rfl, fun _ hb => ⟨hb, rfl⟩⟩

theorem not_live_clone {n : Loc} (hs : h.Sound) (hclone : h.cloneTreapNode c = (n, h')) : ¬ h.Live n := by
  unfold NodeHeap.cloneTreapNode at hclone
  rcases hget : h.get with ⟨m, h₁⟩
  rw [hget] at hclone
  cases hclone
  exact (NodeHeap.get_spec hs hget).1

theorem copies_clone (c : Loc) : Copies own h₀ NodeHeap.cloneTreapNode c := by
  intro h h' c' hext hlive hcopy
  unfold NodeHeap.cloneTreapNode at hcopy
  rcases hget : h.get with ⟨n, h₁⟩
  rw [hget] at hcopy
  cases hcopy
  obtain ⟨-, -, hcells, -⟩ := NodeHeap.get_spec hext.sound hget
  obtain ⟨hnot, hstep, hlive', hcell⟩ := NodeHeap.get_write_spec hext.sound hget (h₁.cells c)
  refine ⟨hext.trans hstep.weaken, .inr fun hl => hnot (hext.live _ hl), hlive', ?_, .inr hnot, ?_⟩
  · rw [hcell, hcells]
  · intro b hb
    exact ⟨hstep.live b hb, hstep.keeps b hb not_mem_nil⟩

section Round
variable {k : Bytes}

/-- The root of the subtree is copied, and nothing points to the copy yet. -/
theorem Working.copied (w : Working own h₀ h root fs (node k va p l r))
    (hcopies : Copies own h₀ copy va.2) (hcopy : copy va.2 h = (c, h')) :
    NodeHeap.Extends own h₀ h' ∧ Owned own h₀ c ∧ (node k (va.1, c) p l r).Holds h'.cells ∧
      HoldsAround h'.cells fs (some va.2) ∧ (plug fs (node k (va.1, c) p l r)).addrs.Nodup ∧
      (∀ a ∈ (plug fs (node k (va.1, c) p l r)).addrs, h'.Live a) ∧
      ∀ b, h.Live b → h'.Live b ∧ h'.cells b = h.cells b := by
  obtain ⟨⟨hcell, hl, hr⟩, habove⟩ := holds_plug.mp w.holds
  -- All the nodes but the one copied.
  have hperm : ∀ a, (plug fs (node k (va.1, a) p l r)).addrs.Perm
      (a :: (l.addrs ++ r.addrs ++ around fs)) := by
    intro a
    refine (addrs_plug fs _).trans ?_
    simp only [addrs_node, append_assoc, cons_append]
    exact perm_middle
  obtain ⟨hext, howned, hlive', hcell', hfresh, hkeep⟩ := hcopies w.extends₀
    (w.live va.2 ((hperm va.2).mem_iff.mpr mem_cons_self)) hcopy
  have hlive : ∀ a ∈ l.addrs ++ r.addrs ++ around fs, h.Live a := fun a ha =>
    w.live a ((hperm va.2).mem_iff.mpr (mem_cons_of_mem _ ha))
  have hsame : ∀ a ∈ l.addrs ++ r.addrs ++ around fs, h'.cells a = h.cells a := fun a ha =>
    (hkeep a (hlive a ha)).2
  refine ⟨hext, howned, ⟨hcell'.trans hcell, ?_, ?_⟩, ?_, ?_, ?_, hkeep⟩
  · exact hl.congr fun a ha => hsame a (by simp [ha])
  · exact hr.congr fun a ha => hsame a (by simp [ha])
  · exact habove.congr fun a ha => hsame a (by simp [ha])
  · rw [(hperm c).nodup_iff, nodup_cons]
    obtain ⟨hnot, hrest⟩ := nodup_cons.mp ((hperm va.2).nodup_iff.mp w.nodup)
    refine ⟨fun hmem => ?_, hrest⟩
    rcases hfresh with rfl | hfresh
    · exact hnot hmem
    · exact hfresh (hlive c hmem)
  · intro a ha
    rcases mem_cons.mp ((hperm c).mem_iff.mp ha) with rfl | ha
    · exact hlive'
    · exact (hkeep a (hlive a ha)).1

/-- One round: the child comes out on top of the node, which keeps its own subtrees but for the one that
changes sides. -/
theorem Working.rotate (w : Working own h₀ h root fs (f.plug (node k va p l r))) (hf : Owned own h₀ f.addr)
    (hhead : ∀ a ∈ fs.head?.map Frame.addr, Owned own h₀ a) (hcopies : Copies own h₀ copy va.2)
    (hcopy : copy va.2 h = (c, h'))
    (hrelink : relinkGrandparent (f.turn h'.cells c) root c f.addr (fs.head?.map Frame.addr) = (cells, root')) :
    Working own h₀ { h' with cells } root' (f.flip k (va.1, c) p l r :: fs) (f.plug (f.inner l r)) ∧
      Owned own h₀ c := by
  have w' : Working own h₀ h root (f :: fs) (node k va p l r) := ⟨w.extends₀, w.holds, w.nodup, w.live, w.root⟩
  obtain ⟨hext, howned, hchild, habove, hnodup, hlive, -⟩ := w'.copied hcopies hcopy
  obtain ⟨hholds, hnodup', hroot, hkeep⟩ := relinkGrandparent_turn hchild habove hnodup
    (w'.root.trans (root_plug (f :: fs) _)) hrelink
  refine ⟨⟨hext.update ?_, ?_, ?_, ?_, ?_⟩, howned⟩
  · intro a ha hown
    exact hkeep a (howned.ne ha hown) (hf.ne ha hown) fun hmem => (hhead a hmem).ne ha hown rfl
  all_goals rw [plug, ← Frame.beneath_eq]
  · exact hholds
  · exact hnodup'
  · intro a ha
    rw [mem_addrs_plug, addrs_beneath, ← mem_addrs_plug] at ha
    exact hlive a ha
  · exact hroot

/-- The root of the subtree is copied, and the nearest frame made to point to the copy. -/
theorem Working.copyRoot (w : Working own h₀ h root fs (node k va p l r))
    (hhead : ∀ a ∈ fs.head?.map Frame.addr, Owned own h₀ a) (hcopies : Copies own h₀ copy va.2)
    (hcopy : copy va.2 h = (c, h'))
    (hrelink : relinkGrandparent h'.cells root c va.2 (fs.head?.map Frame.addr) = (cells, root')) :
    Working own h₀ { h' with cells } root' fs (node k (va.1, c) p l r) ∧ Owned own h₀ c ∧ h'.Live c ∧
      ∀ b, h.Live b → h'.Live b ∧ (b ∉ fs.head?.map Frame.addr → cells b = h.cells b) := by
  obtain ⟨hext, howned, hsame, habove, hnodup, hlive, hkeep⟩ := w.copied hcopies hcopy
  obtain ⟨-, haround, hapart⟩ := nodup_plug.mp hnodup
  obtain ⟨habove', hroot', hrelinked⟩ := relinkGrandparent_spec habove haround
    ((nodup_plug.mp w.nodup).2.2 va.2 (by simp)) (w.root.trans (root_plug fs _)) _ hrelink
  have hcells : ∀ a ∈ (node k (va.1, c) p l r).addrs, cells a = h'.cells a := by
    intro a ha
    exact hrelinked a fun hmem => hapart a ha (head_mem_around hmem)
  refine ⟨⟨hext.update ?_, holds_plug.mpr ⟨hsame.congr hcells, habove'⟩, hnodup, hlive, ?_⟩, howned,
    hlive c (mem_addrs_plug.mpr (.inl (by simp))),
    fun b hb => ⟨(hkeep b hb).1, fun hnot => (hrelinked b hnot).trans (hkeep b hb).2⟩⟩
  · intro a ha hown
    exact hrelinked a fun hmem => (hhead a hmem).ne ha hown rfl
  · rwa [root_plug]

/-- A round of the loop, with the child on the side of the frame `f`. -/
theorem rotateDown_round (hchoose : chooseChild h.cells f.addr = some (va.2, isLeft f))
    (w : Working own h₀ h root fs (f.plug (node k va p l r))) (hf : Owned own h₀ f.addr)
    (hhead : ∀ a ∈ fs.head?.map Frame.addr, Owned own h₀ a) (hcopies : Copies own h₀ copy va.2) :
    ∃ h' root' c, rotateDown copy (n + 1) h root f.addr (fs.head?.map Frame.addr) =
        rotateDown copy n h' root' f.addr (some c) ∧
      Working own h₀ h' root' (f.flip k (va.1, c) p l r :: fs) (f.plug (f.inner l r)) ∧ Owned own h₀ c := by
  rcases hcopy : copy va.2 h with ⟨c, h'⟩
  obtain ⟨⟨cells, root'⟩, hrelink⟩ : ∃ x, relinkGrandparent (f.turn h'.cells c) root c f.addr
      (fs.head?.map Frame.addr) = x := ⟨_, rfl⟩
  have hturn : f.turn h'.cells c =
      if isLeft f then h'.cells.rotateRight f.addr c else h'.cells.rotateLeft f.addr c := by
    cases f <;> rfl
  refine ⟨{ h' with cells }, root', c, ?_, w.rotate hf hhead hcopies hcopy hrelink⟩
  rw [rotateDown, hchoose]
  simp only [hcopy, ← hturn, hrelink]

end Round

/-- A node without a parent leaves the root to the first child that is rotated over it. -/
theorem rotateDown_root {node : Loc} (hchild : chooseChild h.cells node ≠ none) (root root' : Option Loc) :
    rotateDown copy (n + 1) h root node none = rotateDown copy (n + 1) h root' node none := by
  rw [rotateDown, rotateDown]
  cases hchoose : chooseChild h.cells node with
  | none => exact absurd hchoose hchild
  | some child => rfl

/-- What comes out of the loop: the doomed node is a leaf, under the frames around it. -/
def Sinks (own : List Loc) (h₀ : NodeHeap) (key : Bytes) (va : Bytes × Loc) (p : Nat) (fs : List NodeFrame)
    (l r : PlacedNode) (out : Option (NodeHeap × Option Loc × Option Loc)) : Prop :=
  ∃ h' root' fs', out = some (h', root', fs'.head?.map Frame.addr) ∧
    Working own h₀ h' root' fs' (node key va p nil nil) ∧ (∀ a ∈ fs'.head?.map Frame.addr, Owned own h₀ a) ∧
    (plug fs' nil).plain = (plug fs (sink l r)).plain ∧ (fs' = [] → fs = [] ∧ l = nil ∧ r = nil)

/-- The doomed node ends as a leaf, in the place where the recursive `delete` would cut it off. -/
theorem rotateDown_spec (copy : Loc → NodeHeap → Loc × NodeHeap) (hva : Owned own h₀ va.2) :
    ∀ {fs} {l r} {h} {root},
      l.addrs.length + r.addrs.length < n → Working own h₀ h root fs (node key va p l r) →
      (∀ a ∈ fs.head?.map Frame.addr, Owned own h₀ a) → (∀ a ∈ l.addrs ++ r.addrs, Copies own h₀ copy a) →
      Sinks own h₀ key va p fs l r (rotateDown copy n h root va.2 (fs.head?.map Frame.addr)) := by
  induction n with
  | zero =>
    intro fs l r h root hn
    exact absurd hn (Nat.not_lt_zero _)
  | succ n ih =>
    intro fs l r h root hn w hhead hcopies
    obtain ⟨hcell, hl, hr⟩ := (holds_plug.mp w.holds).1
    -- The child goes up on its side, and the rest of the loop is about the subtree that changed sides.
    have round : ∀ f {k} {cva} {cp} {cl cr},
        f.addr = va.2 → f.plug (node k cva cp cl cr) = node key va p l r →
        (∀ c l' r', f.plug (f.inner cl cr) = node key va p l' r' →
          ((f.flip k (cva.1, c) cp cl cr).plug (sink l' r')).plain = (sink l r).plain) →
        chooseChild h.cells va.2 = some (cva.2, isLeft f) →
        Sinks own h₀ key va p fs l r (rotateDown copy (n + 1) h root va.2 (fs.head?.map Frame.addr)) := by
      intro f k cva cp cl cr haddr hplug hsink hchoose
      obtain ⟨l', r', hinner, hmem, hsub, hlt⟩ : ∃ l' r', f.plug (f.inner cl cr) = node key va p l' r' ∧
          cva.2 ∈ l.addrs ++ r.addrs ∧ l'.addrs ++ r'.addrs ⊆ l.addrs ++ r.addrs ∧
          l'.addrs.length + r'.addrs.length < n := by
        cases f with
        | left | right =>
          cases hplug
          refine ⟨_, _, rfl, by simp, fun a => ?_, ?_⟩
          · simp [Frame.inner]
            tauto
          · simp [Frame.inner] at hn ⊢
            omega
      rw [← hplug] at w
      rw [← haddr] at hchoose hva ⊢
      obtain ⟨h₁, root₁, c, hround, w₁, hc⟩ :=
        rotateDown_round (n := n) hchoose w hva hhead (hcopies _ hmem)
      rw [hinner] at w₁
      have hflip : (f.flip k (cva.1, c) cp cl cr).addr = c := by
        cases f <;> rfl
      obtain ⟨h₂, root₂, fs₂, hloop, w₂, hhead₂, hplain, hnil⟩ := ih hlt w₁
        (by simpa [hflip] using hc) (fun a ha => hcopies a (hsub ha))
      refine ⟨h₂, root₂, fs₂, ?_, w₂, hhead₂, ?_, fun h => absurd (hnil h).1 (cons_ne_nil _ _)⟩
      · rw [hround]
        simpa [hflip, haddr] using hloop
      · rw [hplain, plug, plain_plug, hsink c l' r' hinner, ← plain_plug]
    cases l with
    | nil =>
      cases r with
      | nil =>
        have hchoose : chooseChild h.cells va.2 = none := by simp [chooseChild, hcell]
        refine ⟨h, root, fs, ?_, w, hhead, by rw [sink], fun hfs => ⟨hfs, rfl, rfl⟩⟩
        rw [rotateDown, hchoose]
      | node rk rva rp rl rr =>
        refine round (.right key va p nil) rfl rfl ?_ ?_
        · rintro c _ _ ⟨⟩
          rw [sink]
          rfl
        · simp [chooseChild, hcell, isLeft]
    | node lk lva lp ll lr =>
      cases r with
      | nil =>
        refine round (.left key va p nil) rfl rfl ?_ ?_
        · rintro c _ _ ⟨⟩
          rw [sink]
          rfl
        · simp [chooseChild, hcell, isLeft]
      | node rk rva rp rl rr =>
        have hpriority : (h.cells lva.2).priority = lp := by rw [hl.1]
        have hpriority' : (h.cells rva.2).priority = rp := by rw [hr.1]
        by_cases hle : rp ≤ lp
        · refine round (.left key va p (node rk rva rp rl rr)) rfl rfl ?_ ?_
          · rintro c _ _ ⟨⟩
            rw [sink, if_pos hle]
            rfl
          · simp [chooseChild, hcell, isLeft, hpriority, hpriority', hle]
        · refine round (.right key va p (node lk lva lp ll lr)) rfl rfl ?_ ?_
          · rintro c _ _ ⟨⟩
            rw [sink, if_neg hle]
            rfl
          · simp [chooseChild, hcell, isLeft, hpriority, hpriority', hle]

end Down

/-! ## Putting a node in and cutting one off -/

/-- The last part of `Put`: a new node is linked to the parent on the top of the stack, on the side of
the last comparison, and rotated up. The answer has the node, the root and the heap. -/
def insertNode (key value : Bytes) (priority : Nat) (parents : ParentStack Loc) (less : Bool)
    (root : Option Loc) (h : NodeHeap) : Option (Loc × Option Loc × NodeHeap) :=
  let (node, h) := h.newTreapNode key value priority
  match parents.peek 0 with
  | none => none
  | some parent =>
    let linked :=
      if less then h.cells.write parent { h.cells parent with left := some node }
      else h.cells.write parent { h.cells parent with right := some node }
    let (cells, root) := rotateUp parents.len linked root node parents
    some (node, root, { h with cells })

/-- The last part of `Delete`: the leaf is disconnected from its parent. -/
def disconnect (cells : Cells) (parent node : Loc) : Cells :=
  if (cells parent).right = some node then cells.write parent { cells parent with right := none }
  else cells.write parent { cells parent with left := none }

section Ends
open SearchTree

theorem Working.setValue (w : Working own h₀ h root fs (node key va p l r)) (hva : Owned own h₀ va.2) (value : Bytes) :
    Working own h₀ (h.write va.2 { h.cells va.2 with value }) root fs (node key (value, va.2) p l r) := by
  obtain ⟨⟨hcell, hl, hr⟩, habove⟩ := holds_plug.mp w.holds
  obtain ⟨hhere, -, hapart⟩ := nodup_plug.mp w.nodup
  have hmem : ∀ a, a ∈ (plug fs (node key (value, va.2) p l r)).addrs ↔
      a ∈ (plug fs (node key va p l r)).addrs := by
    intro a
    simp [mem_addrs_plug]
  have hne : ∀ {t : PlacedNode}, va.2 ∉ t.addrs → t.Holds h.cells →
      t.Holds (h.cells.write va.2 { h.cells va.2 with value }) := by
    intro t hnot ht
    refine ht.congr fun a ha => Memory.write_ne ?_ _
    rintro rfl
    exact hnot ha
  rw [addrs_node, nodup_append, nodup_cons] at hhere
  refine ⟨w.extends₀.write hva _, holds_plug.mpr ⟨⟨?_, hne ?_ hl, hne hhere.2.1.1 hr⟩, habove.congr fun a ha => ?_⟩,
    ?_, fun a ha => w.live a ((hmem a).mp ha), ?_⟩
  · simp [NodeHeap.write, hcell]
  · intro hmem
    exact hhere.2.2 _ hmem _ mem_cons_self rfl
  · refine Memory.write_ne ?_ _
    rintro rfl
    exact hapart _ (by simp) ha
  · have hnodup := w.nodup
    rw [nodup_plug] at hnodup ⊢
    simpa using hnodup
  · rw [w.root, root_plug, root_plug]
    rfl

/-- The nearest frame with another pointer in its hole. -/
theorem Working.fill {s s' : PlacedNode} (w : Working own h₀ h root (f :: fs) s) (hf : Owned own h₀ f.addr)
    (hcells : cells = h.cells.write f.addr (f.cell s'.root)) (hs : s'.Holds h.cells) (hnodup : s'.addrs.Nodup)
    (hapart : ∀ a ∈ s'.addrs, a ∉ around (f :: fs)) (hlive : ∀ a ∈ s'.addrs, h.Live a) :
    Working own h₀ { h with cells } root (f :: fs) s' := by
  obtain ⟨-, habove⟩ := holds_plug.mp w.holds
  obtain ⟨-, haround, -⟩ := nodup_plug.mp w.nodup
  subst hcells
  refine ⟨w.extends₀.write hf _, holds_plug.mpr ⟨hs.congr fun a ha => Memory.write_ne ?_ _, habove.fill haround _⟩,
    nodup_plug.mpr ⟨hnodup, haround, hapart⟩, fun a ha => ?_, ?_⟩
  · rintro rfl
    exact hapart _ ha (by simp [around, Frame.addrs])
  · rcases mem_addrs_plug.mp ha with ha | ha
    · exact hlive a ha
    · exact w.live a (mem_addrs_plug.mpr (.inr ha))
  · rw [w.root, root_plug, root_plug]
    rfl

theorem Working.disconnect (w : Working own h₀ h root (f :: fs) (node key va p nil nil)) (hf : Owned own h₀ f.addr) :
    Working own h₀ { h with cells := disconnect h.cells f.addr va.2 } root (f :: fs) nil := by
  obtain ⟨-, hcell, -, -⟩ := holds_plug.mp w.holds
  obtain ⟨-, -, hapart⟩ := nodup_plug.mp w.nodup
  refine w.fill hf ?_ trivial nodup_nil (by simp) (by simp)
  unfold Treap.disconnect
  rw [hcell]
  cases f with
  | left k fva p r =>
    have hroot : r.root ≠ some va.2 := fun hroot =>
      hapart va.2 (by simp) (by simp [around, Frame.addrs, Frame.sibling, root_mem_addrs hroot])
    simp [Frame.cell, hroot]
  | right k fva p l => simp [Frame.cell]

/-- A new node is put in its place and rises. -/
theorem insertNode_spec (key value : Bytes) (priority : Nat) (w : Working own h₀ h root (f :: fs) nil)
    (howned : ∀ g ∈ f :: fs, Owned own h₀ g.addr) {fresh : Bytes → Bool} (hkey : fresh key = true)
    (hkeys : ∀ g ∈ f :: fs, fresh g.key = false)
    {parents : ParentStack Loc} (hparents : parents.Stacks ((f :: fs).map Frame.addr)) :
    ∃ n root' h', insertNode key value priority parents (isLeft f) root h = some (n, root', h') ∧
      Working own h₀ h' root' [] (rise fresh (f :: fs) (node key (value, n) priority nil nil)) ∧
      ¬ h.Live n ∧ h'.Live n ∧ ∀ a, h.Live a → h'.Live a := by
  rcases hget : h.get with ⟨n, h₁⟩
  obtain ⟨hnot, hstep, hlive, hcell⟩ :=
    NodeHeap.get_write_spec w.extends₀.sound hget ⟨key, value, priority, none, none⟩
  obtain ⟨h₂, hh₂⟩ : ∃ h₂, h₂ = h₁.write n ⟨key, value, priority, none, none⟩ := ⟨_, rfl⟩
  rw [← hh₂] at hstep hlive hcell
  have hnew : ∀ a ∈ around (f :: fs), a ≠ n := by
    rintro a ha rfl
    exact hnot (w.live a (mem_addrs_plug.mpr (.inr ha)))
  -- The frames are still there in the heap with the new node.
  have w₂ : Working own h₀ h₂ root (f :: fs) nil := by
    refine ⟨w.extends₀.trans hstep.weaken, ?_, w.nodup, fun a ha => hstep.live a (w.live a ha), w.root⟩
    exact w.holds.congr fun a ha => hstep.keeps a (w.live a ha) not_mem_nil
  have hfcell : h₂.cells f.addr = f.cell none := (holds_plug.mp w₂.holds).2.1
  obtain ⟨linked, hlinked⟩ : ∃ linked, linked = if isLeft f = true then
      h₂.cells.write f.addr { h₂.cells f.addr with left := some n }
    else h₂.cells.write f.addr { h₂.cells f.addr with right := some n } := ⟨_, rfl⟩
  have w₃ : Working own h₀ { h₂ with cells := linked } root (f :: fs) (node key (value, n) priority nil nil) := by
    refine w₂.fill (howned f mem_cons_self) ?_ ⟨hcell, trivial, trivial⟩ (by simp) ?_ ?_
    · rw [hlinked, hfcell]
      cases f <;> rfl
    · intro a ha hmem
      rw [addrs_node] at ha
      simp at ha
      exact hnew a hmem ha
    · intro a ha
      simp at ha
      exact ha ▸ hlive
  rcases hup : rotateUp (f :: fs).length linked root n parents with ⟨cells', root'⟩
  obtain ⟨hholds, hroot', hkeep⟩ := rotateUp_spec hkey hkeys w₃.holds w₃.nodup w₃.root hparents hup
  have haddrs : (rise fresh (f :: fs) (node key (value, n) priority nil nil)).addrs =
      (plug (f :: fs) (node key (value, n) priority nil nil)).addrs := by
    rw [addrs, addrs, entries_rise]
  refine ⟨n, root', { h₂ with cells := cells' }, ?_, ⟨w₃.extends₀.update ?_, hholds, ?_, ?_, hroot'⟩, hnot,
    hlive, hstep.live⟩
  · unfold insertNode NodeHeap.newTreapNode
    simp only [hget, ← hh₂, hparents.peek, map_cons, getElem?_cons_zero, ← hlinked, hparents.len]
    simp only [length_cons, length_map] at hup ⊢
    rw [hup]
  · intro a ha hown
    have hn : Owned own h₀ n := .inr fun hl => hnot (w.extends₀.live n hl)
    refine hkeep a (hn.ne ha hown) fun hmem => ?_
    obtain ⟨g, hg, rfl⟩ := mem_map.mp hmem
    exact (howned g hg).ne ha hown rfl
  · rw [plug, haddrs]
    exact w₃.nodup
  · rw [plug, haddrs]
    exact w₃.live

end Ends
end NogoCommons.Treap
