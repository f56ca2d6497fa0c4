import NogoCommons.Lib.MapCursor
import NogoCommons.Lib.TreeContext

/-!
# Walking through a search tree

A walk has a node and the stack of the nodes above it. The next node in a direction is the last one down
the other side of the subtree in that direction, or, if there is no subtree, the first node up the stack
whose subtree in that direction is not the one come from. In terms of entries: the tree is a subtree in its
frames, and what the frames still have to show, the nearest frame first, is `ahead`.
-/

namespace NogoCommons.Lib
open List
namespace Frame
variable {K V P : Type}

/-- What comes after the hole in a direction. -/
def ahead : Bool → Frame K V P → List (K × V)
  | true, left k v _ r => (k, v) :: r.entries
  | true, right .. => []
  | false, left .. => []
  | false, right k v _ l => (k, v) :: l.entries.reverse

end Frame

namespace SearchTree
variable {K V P : Type}

def walk (forwards : Bool) (t : SearchTree K V P) : List (K × V) :=
  if forwards then t.entries else t.entries.reverse

/-- The subtree in a direction. -/
def toward (forwards : Bool) (t : SearchTree K V P) : SearchTree K V P := if forwards then t.right else t.left
def ahead (forwards : Bool) (fs : List (Frame K V P)) : List (K × V) := fs.flatMap (Frame.ahead forwards)

/-- Down one side of a subtree, from a node that is already there. -/
def descend (forwards : Bool) : SearchTree K V P → K → List K → K × List K
  | nil, k, parents => (k, parents)
  | node k' _ _ l r, k, parents =>
    if forwards then descend forwards r k' (k :: parents) else descend forwards l k' (k :: parents)

/-- Up the parents, as long as the parent's subtree in the direction is the one come from. -/
def climb [LinearOrder K] (forwards : Bool) (root : SearchTree K V P) : K → List K → Option K × List K
  | _, [] => (none, [])
  | k, parent :: parents =>
    if ((root.nodeAt parent).toward forwards).rootKey? = some k then climb forwards root parent parents
    else (some parent, parents)

/-- The node next to one in a direction. -/
def nextTo [LinearOrder K] (forwards : Bool) (root : SearchTree K V P) (k : K) (parents : List K) : Option K × List K :=
  match (root.nodeAt k).toward forwards with
  | nil => climb forwards root k parents
  | node k' v' p' l' r' =>
    let (k, parents) := descend (!forwards) ((node k' v' p' l' r').toward !forwards) k' (k :: parents)
    (some k, parents)

section Walks
variable {forwards : Bool}

@[simp] theorem walk_nil : (nil : SearchTree K V P).walk forwards = [] := by
  cases forwards <;> rfl

theorem mem_walk {t : SearchTree K V P} {e : K × V} : e ∈ t.walk forwards ↔ e ∈ t.entries := by
  cases forwards <;> simp [walk]

theorem walk_node {k : K} {v : V} {p : P} {l r : SearchTree K V P} :
    (node k v p l r).walk forwards = ((node k v p l r).toward !forwards).walk forwards ++
      (k, v) :: ((node k v p l r).toward forwards).walk forwards := by
  cases forwards <;> simp [walk, toward, entries, left, right]

theorem ahead_cons (f : Frame K V P) (fs : List (Frame K V P)) :
    ahead forwards (f :: fs) = f.ahead forwards ++ ahead forwards fs := rfl

theorem walk_frame (f : Frame K V P) (c : SearchTree K V P) :
    (f.plug c).walk forwards = (f.ahead !forwards).reverse ++ c.walk forwards ++ f.ahead forwards := by
  cases f <;> cases forwards <;> simp [walk, Frame.plug, Frame.ahead, entries]

theorem walk_plug (forwards : Bool) (fs : List (Frame K V P)) : ∀ c : SearchTree K V P,
    (plug fs c).walk forwards = (ahead (!forwards) fs).reverse ++ c.walk forwards ++ ahead forwards fs := by
  induction fs with
  | nil =>
    intro c
    simp [plug, ahead]
  | cons f fs ih =>
    intro c
    rw [plug, ih, walk_frame, ahead_cons, ahead_cons, reverse_append]
    simp only [append_assoc]

end Walks

/-- The frame that is left when a walk goes down in a direction. -/
theorem exists_frame (forwards : Bool) (k : K) (v : V) (p : P) (l r : SearchTree K V P) :
    ∃ f : Frame K V P, node k v p l r = f.plug ((node k v p l r).toward forwards) ∧ f.key = k ∧
      f.ahead forwards = [] ∧
      f.ahead (!forwards) = (k, v) :: ((node k v p l r).toward !forwards).walk !forwards := by
  cases forwards with
  | false => exact ⟨.left k v p r, rfl, rfl, rfl, rfl⟩
  | true => exact ⟨.right k v p l, rfl, rfl, rfl, rfl⟩

/-- The node of a key, with the stack of the nodes above it. -/
def Stands (root : SearchTree K V P) (k : K) (parents : List K) : Prop :=
  ∃ (fs : List (Frame K V P)) (v : V) (p : P) (l r : SearchTree K V P),
    root = plug fs (node k v p l r) ∧ parents = fs.map Frame.key

variable {c : SearchTree K V P}

/-- Going down one side comes to where a walk through the subtree starts. -/
theorem descend_spec (forwards : Bool) {root : SearchTree K V P} :
    ∀ fs {k} {v} {p} {l r},
      root = plug fs (node k v p l r) → (node k v p l r).toward forwards = c →
      ∃ k' v' fs' p' l' r', descend forwards c k (fs.map Frame.key) = (k', fs'.map Frame.key) ∧
        root = plug fs' (node k' v' p' l' r') ∧ (node k' v' p' l' r').toward forwards = nil ∧
        ahead forwards fs' = ahead forwards fs := by
  induction c with
  | nil =>
    intro fs k v p l r hroot hc
    exact ⟨k, v, fs, p, l, r, rfl, hroot, hc, rfl⟩
  | node k' v' p' l' r' ihl ihr =>
    intro fs k v p l r hroot hc
    cases forwards with
    | false =>
      obtain rfl : l = node k' v' p' l' r' := hc
      obtain ⟨k₁, v₁, fs₁, p₁, l₁, r₁, hdescend, hroot₁, htoward, hahead⟩ :=
        ihl (.left k v p r :: fs) hroot rfl
      exact ⟨k₁, v₁, fs₁, p₁, l₁, r₁, hdescend, hroot₁, htoward, hahead⟩
    | true =>
      obtain rfl : r = node k' v' p' l' r' := hc
      obtain ⟨k₁, v₁, fs₁, p₁, l₁, r₁, hdescend, hroot₁, htoward, hahead⟩ :=
        ihr (.right k v p l :: fs) hroot rfl
      exact ⟨k₁, v₁, fs₁, p₁, l₁, r₁, hdescend, hroot₁, htoward, hahead⟩

theorem subperm_keys_plug (fs : List (Frame K V P)) : ∀ {c} {xs}, xs.Subperm c.keys →
    (xs ++ fs.map Frame.key).Subperm (plug fs c).keys := by
  induction fs with
  | nil =>
    intro c xs h
    simpa [plug] using h
  | cons f fs ih =>
    intro c xs h
    have hf : (xs ++ [f.key]).Subperm (f.plug c).keys := by
      cases f with
      | left k v p r =>
        rw [Frame.plug, keys_node]
        exact h.append (singleton_sublist.mpr mem_cons_self).subperm
      | right k v p l =>
        rw [Frame.plug, keys_node]
        exact (perm_append_singleton k xs).subperm.trans
          (((subperm_cons k).mpr h).trans (sublist_append_right ..).subperm)
    have hfs := ih hf
    rwa [append_assoc] at hfs

/-- A node and those above it are different nodes of the tree. -/
theorem Stands.subperm {root : SearchTree K V P} {k : K} {parents : List K} (h : root.Stands k parents) :
    (k :: parents).Subperm root.keys := by
  obtain ⟨fs, v, p, l, r, rfl, rfl⟩ := h
  exact subperm_keys_plug fs (singleton_sublist.mpr (by simp)).subperm

theorem Stands.mem {root : SearchTree K V P} {k : K} {parents : List K} (h : root.Stands k parents) : k ∈ root.keys :=
  h.subperm.subset mem_cons_self

theorem rootKey?_ne {t : SearchTree K V P} {k : K} (h : ∀ e ∈ t.entries, e.1 ≠ k) : t.rootKey? ≠ some k := by
  intro hk
  cases t with
  | nil => cases hk
  | node k' v' p' l' r' =>
    obtain rfl : k' = k := Option.some.inj hk
    exact h (k', v') (by simp [entries]) rfl

section Ordered
variable [LinearOrder K] {root : SearchTree K V P} {fs : List (Frame K V P)} {k : K} {v : V} {p : P}
  {l r : SearchTree K V P}

/-- In an ordered tree the frames around a subtree lead to its keys. -/
theorem leads_of_ordered (h : (plug fs c).Ordered) (hk : k ∈ c.keys) : ∀ f ∈ fs, f.Leads k := by
  obtain ⟨v, hv⟩ := mem_keys.mp hk
  have hwalk : (plug fs c).entries = (ahead false fs).reverse ++ c.entries ++ ahead true fs :=
    walk_plug true fs c
  rw [Ordered, hwalk, pairwise_append, pairwise_append] at h
  intro f hf
  cases f with
  | left k' v' p' r' =>
    exact h.2.2 (k, v) (mem_append_right _ hv) (k', v')
      (mem_flatMap.mpr ⟨_, hf, mem_cons_self⟩)
  | right k' v' p' l' =>
    exact h.1.2.2 (k', v') (mem_reverse.mpr (mem_flatMap.mpr ⟨_, hf, mem_cons_self⟩)) (k, v) hv

variable (forwards : Bool)

/-- In an ordered tree, what is on a side of the root is ahead of it on that side. -/
theorem ahead_of_toward (h : (node k v p l r).Ordered) :
    ∀ e ∈ ((node k v p l r).toward forwards).entries, Ahead forwards k e.1 := by
  obtain ⟨hlt, hgt, -, -⟩ := ordered_node.mp h
  cases forwards with
  | false => exact hlt
  | true => exact hgt

theorem nodeAt_of_plug (h : (plug fs (node k v p l r)).Ordered) :
    (plug fs (node k v p l r)).nodeAt k = node k v p l r := by
  rw [nodeAt_plug (leads_of_ordered h (by simp))]
  simp [nodeAt]

theorem ordered_of_plug (fs : List (Frame K V P)) (h : (plug fs c).Ordered) : c.Ordered := by
  have hwalk : (plug fs c).entries = (ahead false fs).reverse ++ c.entries ++ ahead true fs :=
    walk_plug true fs c
  rw [Ordered, hwalk, pairwise_append, pairwise_append] at h
  exact h.1.2.1

/-- Climbing comes to the first entry that the frames have ahead. -/
theorem climb_spec (h : root.Ordered) :
    ∀ {k} {v} {p} {l r}, root = plug fs (node k v p l r) →
      (ahead forwards fs = [] ∧ climb forwards root k (fs.map Frame.key) = (none, [])) ∨
      ∃ k' v' fs' p' l' r', climb forwards root k (fs.map Frame.key) = (some k', fs'.map Frame.key) ∧
        root = plug fs' (node k' v' p' l' r') ∧
        ahead forwards fs =
          (k', v') :: ((node k' v' p' l' r').toward forwards).walk forwards ++ ahead forwards fs' := by
  induction fs with
  | nil =>
    intro k v p l r hroot
    exact .inl ⟨rfl, rfl⟩
  | cons f fs ih =>
    intro k v p l r hroot
    -- The parent is found in the tree, with the frame's other side.
    have hparent : root.nodeAt f.key = f.plug (node k v p l r) := by
      rw [hroot] at h ⊢
      cases f with
      | left k' v' p' r' => exact nodeAt_of_plug h
      | right k' v' p' l' => exact nodeAt_of_plug h
    have hsub : (f.plug (node k v p l r)).Ordered := ordered_of_plug fs (hroot ▸ h)
    rw [map_cons, climb, hparent, ahead_cons]
    cases f with
    | left k' v' p' r' =>
      cases forwards with
      | false =>
        rw [if_pos (by rfl)]
        exact ih (l := node k v p l r) hroot
      | true =>
        obtain ⟨hlt, hgt, -, -⟩ := ordered_node.mp hsub
        have hne : ((Frame.left k' v' p' r').plug (node k v p l r) |>.toward true).rootKey? ≠ some k :=
          rootKey?_ne fun e he => ((hlt (k, v) (by simp [entries])).trans (hgt e he)).ne'
        rw [if_neg hne]
        exact .inr ⟨k', v', fs, p', node k v p l r, r', rfl, hroot, rfl⟩
    | right k' v' p' l' =>
      cases forwards with
      | false =>
        obtain ⟨hlt, hgt, -, -⟩ := ordered_node.mp hsub
        have hne : ((Frame.right k' v' p' l').plug (node k v p l r) |>.toward false).rootKey? ≠ some k :=
          rootKey?_ne fun e he => ((hlt e he).trans (hgt (k, v) (by simp [entries]))).ne
        rw [if_neg hne]
        exact .inr ⟨k', v', fs, p', l', node k v p l r, rfl, hroot, rfl⟩
      | true =>
        rw [if_pos (by rfl)]
        exact ih (r := node k v p l r) hroot

/-- The next node on a walk is that of the nearest entry ahead. -/
theorem nextTo_spec (h : root.Ordered) {parents : List K} (hk : root.Stands k parents) :
    (root.nextTo forwards k parents).1 =
        ((root.toMap h).nearest? forwards fun x => decide (Ahead forwards k x)).map Prod.fst ∧
      ∀ k' ∈ (root.nextTo forwards k parents).1, root.Stands k' (root.nextTo forwards k parents).2 := by
  obtain ⟨fs, v, p, l, r, hroot, rfl⟩ := hk
  -- What is still to come, the subtree first, and then the frames.
  have hwalk : (root.toMap h).walk forwards = ((ahead (!forwards) fs).reverse ++
      ((node k v p l r).toward !forwards).walk forwards ++ [(k, v)]) ++
        (((node k v p l r).toward forwards).walk forwards ++ ahead forwards fs) := by
    show root.walk forwards = _
    rw [hroot, walk_plug, walk_node]
    simp only [append_assoc, cons_append, nil_append]
  have hnearest : ((root.toMap h).nearest? forwards fun x => decide (Ahead forwards k x)) =
      (((node k v p l r).toward forwards).walk forwards ++ ahead forwards fs).head? := by
    have hsorted := SortedMap.sorted_walk forwards (root.toMap h)
    rw [hwalk] at hsorted
    obtain ⟨hbefore, -, hafter⟩ := pairwise_append.mp hsorted
    refine SortedMap.nearest?_eq_head? hwalk (fun e he => ?_) fun e he => ?_
    · refine decide_eq_false fun hahead => ?_
      rcases mem_append.mp he with he | he
      · exact hahead.asymm ((pairwise_append.mp hbefore).2.2 e he (k, v) mem_cons_self)
      · rw [mem_singleton.mp he] at hahead
        exact Ahead.irrefl _ hahead
    · exact decide_eq_true (hafter (k, v) (by simp) e he)
  have hnode : root.nodeAt k = node k v p l r := by
    rw [hroot] at h ⊢
    exact nodeAt_of_plug h
  rw [hnearest, nextTo, hnode]
  cases hc : (node k v p l r).toward forwards with
  | nil =>
    simp only [walk_nil, nil_append]
    rcases climb_spec forwards h hroot with ⟨hnil, hclimb⟩ | ⟨k', v', fs', p', l', r', hclimb, hroot', hcons⟩
    · rw [hclimb, hnil]
      exact ⟨rfl, fun k' hk' => absurd hk' (by simp)⟩
    · rw [hclimb, hcons]
      refine ⟨rfl, fun x hx => ?_⟩
      cases hx
      exact ⟨fs', v', p', l', r', hroot', rfl⟩
  | node kc vc pc lc rc =>
    obtain ⟨f, hplug, hfkey, hf, -⟩ := exists_frame forwards k v p l r
    have hfroot : root = plug (f :: fs) (node kc vc pc lc rc) := by rw [hroot, plug, ← hc, ← hplug]
    obtain ⟨k', v', fs', p', l', r', hdescend, hroot', htoward, hsame⟩ := descend_spec (!forwards) _ hfroot rfl
    -- Both places leave the same entries behind.
    have hhead : (node kc vc pc lc rc).walk forwards ++ ahead forwards fs =
        (k', v') :: (((node k' v' p' l' r').toward forwards).walk forwards ++ ahead forwards fs') := by
      have hplug := congrArg (walk forwards) (hfroot.symm.trans hroot')
      rw [walk_plug, walk_plug, hsame, walk_node (k := k'), htoward, walk_nil, nil_append,
        append_assoc, append_assoc] at hplug
      have hcancel := append_cancel_left hplug
      rwa [ahead_cons, hf, nil_append] at hcancel
    have hstack : (f :: fs).map Frame.key = k :: fs.map Frame.key := by rw [map_cons, hfkey]
    rw [hstack] at hdescend
    simp only [hdescend]
    rw [hhead]
    refine ⟨rfl, fun x hx => ?_⟩
    cases hx
    exact ⟨fs', v', p', l', r', hroot', rfl⟩

/-- A walk starts at the end of one side of the tree. -/
theorem descend_root (h : (root : SearchTree K V P).Ordered) (hroot : root = node k v p l r) :
    ∃ k' parents, descend (!forwards) (root.toward !forwards) k [] = (k', parents) ∧
      ((root.toMap h).nearest? forwards fun _ => true).map Prod.fst = some k' ∧ root.Stands k' parents := by
  obtain ⟨k', v', fs', p', l', r', hdescend, hroot', htoward, hsame⟩ :=
    descend_spec (!forwards) [] hroot (by rw [← hroot])
  refine ⟨k', _, hdescend, ?_, ⟨fs', v', p', l', r', hroot', rfl⟩⟩
  have hwalk : (root.toMap h).walk forwards =
      [] ++ (k', v') :: (((node k' v' p' l' r').toward forwards).walk forwards ++ ahead forwards fs') := by
    show root.walk forwards = _
    rw [hroot', walk_plug, hsame, walk_node, htoward]
    simp [ahead]
  rw [SortedMap.nearest?_of_walk hwalk (by simp) rfl]
  rfl

end Ordered
end SearchTree
end NogoCommons.Lib
