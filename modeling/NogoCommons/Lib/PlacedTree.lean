import NogoCommons.Lib.TreeContext
import Mathlib.Data.List.Perm.Basic

/-!
# Search trees in a memory

Nodes that point to each other by address, and the trees they make. A placed tree is a search tree
whose values carry the address of their node, and a memory `Holds` it if every node is in its cell,
with the addresses of its subtrees. The same subtree may be part of many trees: what they share is
the same addresses.

A tree that is changed in place is changed along one way down, so the tree is taken apart into a
subtree and the frames around it (`holds_plug`). The nearest frame is then the only one whose cell
mentions the subtree, and re-pointing it is one write (`HoldsAround.relink`).
-/

namespace NogoCommons.Lib
open List

abbrev Loc := Nat

structure Cell (K V P : Type) where
  key : K
  value : V
  priority : P
  left : Option Loc
  right : Option Loc

abbrev Memory (K V P : Type) := Loc → Cell K V P

variable {K V P : Type} {m : Memory K V P} {b : Loc} {s : SearchTree K (V × Loc) P} {f : Frame K (V × Loc) P}
namespace Memory

def write (m : Memory K V P) (a : Loc) (c : Cell K V P) : Memory K V P :=
  fun b => if b = a then c else m b

@[simp] theorem write_same (m : Memory K V P) (a : Loc) (c : Cell K V P) : m.write a c a = c :=
  if_pos rfl

variable {parent node a : Loc}

theorem write_ne (h : b ≠ a) (c : Cell K V P) : m.write a c b = m b :=
  if_neg h

/-- The parent of a node is made to point to another one in its place. -/
def relink (m : Memory K V P) (parent node : Loc) (new : Option Loc) : Memory K V P :=
  if (m parent).left = some node then m.write parent { m parent with left := new }
  else m.write parent { m parent with right := new }

theorem relink_ne {new : Option Loc} (h : b ≠ parent) : m.relink parent node new b = m b := by
  unfold relink
  split_ifs
  · exact write_ne h _
  · exact write_ne h _

/-- `node.right, parent.left = parent, node.right`. -/
def rotateRight (m : Memory K V P) (parent node : Loc) : Memory K V P :=
  let moved := (m node).right
  let m := m.write node { m node with right := some parent }
  m.write parent { m parent with left := moved }

/-- `node.left, parent.right = parent, node.left`. -/
def rotateLeft (m : Memory K V P) (parent node : Loc) : Memory K V P :=
  let moved := (m node).left
  let m := m.write node { m node with left := some parent }
  m.write parent { m parent with right := moved }

theorem rotateRight_ne (hp : b ≠ parent) (hn : b ≠ node) : m.rotateRight parent node b = m b :=
  (write_ne hp _).trans (write_ne hn _)

theorem rotateLeft_ne (hp : b ≠ parent) (hn : b ≠ node) : m.rotateLeft parent node b = m b :=
  (write_ne hp _).trans (write_ne hn _)

end Memory

namespace SearchTree

/-- The address of the root of a placed tree. -/
def root : SearchTree K (V × Loc) P → Option Loc
  | nil => none
  | node _ va _ _ _ => some va.2

def addrs (s : SearchTree K (V × Loc) P) : List Loc := s.entries.map (·.2.2)

/-- The tree without its addresses. -/
def plain : SearchTree K (V × Loc) P → SearchTree K V P
  | nil => nil
  | node k va p l r => node k va.1 p l.plain r.plain

def Holds (m : Memory K V P) : SearchTree K (V × Loc) P → Prop
  | nil => True
  | node k va p l r => m va.2 = ⟨k, va.1, p, l.root, r.root⟩ ∧ Holds m l ∧ Holds m r

@[simp] theorem root_nil : (nil : SearchTree K (V × Loc) P).root = none := rfl

@[simp] theorem root_node (k : K) (va : V × Loc) (p : P) (l r : SearchTree K (V × Loc) P) :
    (node k va p l r).root = some va.2 := rfl

@[simp] theorem addrs_nil : (nil : SearchTree K (V × Loc) P).addrs = [] := rfl

@[simp] theorem addrs_node (k : K) (va : V × Loc) (p : P) (l r : SearchTree K (V × Loc) P) :
    (node k va p l r).addrs = l.addrs ++ va.2 :: r.addrs := by
  simp [addrs, entries]

theorem root_mem_addrs (h : s.root = some a) : a ∈ s.addrs := by
  cases s with
  | nil => cases h
  | node k va p l r =>
    cases h
    simp

theorem root_eq_none : s.root = none ↔ s = nil := by
  cases s with
  | nil => simp [root]
  | node => simp [root]

variable {m' : Memory K V P}

theorem Holds.congr (h : Holds m s) (heq : ∀ a ∈ s.addrs, m' a = m a) : Holds m' s := by
  induction s with
  | nil => trivial
  | node k va p l r ihl ihr =>
    obtain ⟨hcell, hl, hr⟩ := h
    rw [addrs_node] at heq
    refine ⟨(heq va.2 (by simp)).trans hcell, ihl hl ?_, ihr hr ?_⟩
    · intro a ha
      exact heq a (by simp [ha])
    · intro a ha
      exact heq a (by simp [ha])

theorem Holds.nodeAt [LinearOrder K] (h : Holds m s) (key : K) : Holds m (s.nodeAt key) := by
  induction s with
  | nil => trivial
  | node k va p l r ihl ihr =>
    rw [SearchTree.nodeAt]
    split_ifs
    · exact ihl h.2.1
    · exact ihr h.2.2
    · exact h

theorem Holds.key_of_mem (h : Holds m s) {e : K × V × Loc} (he : e ∈ s.entries) : (m e.2.2).key = e.1 := by
  induction s with
  | nil => cases he
  | node k va p l r ihl ihr =>
    obtain ⟨hcell, hl, hr⟩ := h
    rw [entries, mem_append, mem_cons] at he
    rcases he with he | rfl | he
    · exact ihl hl he
    · rw [hcell]
    · exact ihr hr he

/-- A node of a search tree is found under the key in its cell. -/
theorem Holds.root_nodeAt [LinearOrder K] (h : Holds m s) (hs : s.Ordered) (ha : a ∈ s.addrs) :
    (s.nodeAt (m a).key).root = some a := by
  obtain ⟨e, he, rfl⟩ := mem_map.mp ha
  have hfind : (s.nodeAt e.1).rootValue? = some e.2 := (find?_eq_some hs).mpr he
  rw [h.key_of_mem he]
  cases hnode : s.nodeAt e.1 with
  | nil =>
    rw [hnode] at hfind
    cases hfind
  | node k va p l r =>
    rw [hnode] at hfind
    cases hfind
    rfl

/-! ## The tree without its addresses -/

theorem entries_plain (s : SearchTree K (V × Loc) P) : s.plain.entries = s.entries.map fun e => (e.1, e.2.1) := by
  induction s with
  | nil => rfl
  | node k va p l r ihl ihr => simp [plain, entries, ihl, ihr]

theorem ordered_plain [LinearOrder K] : s.plain.Ordered ↔ s.Ordered := by
  unfold Ordered
  rw [entries_plain, pairwise_map]

theorem nodeAt_plain [LinearOrder K] (key : K) (s : SearchTree K (V × Loc) P) :
    s.plain.nodeAt key = (s.nodeAt key).plain := by
  induction s with
  | nil => rfl
  | node k va p l r ihl ihr =>
    simp only [plain, nodeAt]
    split_ifs
    · exact ihl
    · exact ihr
    · rfl

theorem plain_sink [LE P] [DecidableLE P] (l r : SearchTree K (V × Loc) P) :
    (sink l r).plain = sink l.plain r.plain := by
  induction l, r using sink.induct with
  | case1 => simp [sink, plain]
  | case2 k v p l r ih => simpa [sink, plain] using ih
  | case3 k v p l r ih => simpa [sink, plain] using ih
  | case4 lk lv lp ll lr rk rv rp rl rr hle ih =>
    rw [sink, if_pos hle]
    simp only [plain] at ih ⊢
    rw [sink, if_pos hle, ih]
  | case5 lk lv lp ll lr rk rv rp rl rr hle ih =>
    rw [sink, if_neg hle]
    simp only [plain] at ih ⊢
    rw [sink, if_neg hle, ih]

end SearchTree

namespace Frame

def addr (f : Frame K (V × Loc) P) : Loc := f.value.2

/-- What the frame's cell is, with this in its hole. -/
def cell (hole : Option Loc) : Frame K (V × Loc) P → Cell K V P
  | left k va p r => ⟨k, va.1, p, hole, r.root⟩
  | right k va p l => ⟨k, va.1, p, l.root, hole⟩

def addrs (f : Frame K (V × Loc) P) : List Loc := f.addr :: f.sibling.addrs

def plain : Frame K (V × Loc) P → Frame K V P
  | left k va p r => left k va.1 p r.plain
  | right k va p l => right k va.1 p l.plain

/-- The frame with its node at another address. -/
def moved (a : Loc) : Frame K (V × Loc) P → Frame K (V × Loc) P
  | left k va p r => left k (va.1, a) p r
  | right k va p l => right k (va.1, a) p l

@[simp] theorem addr_moved (a : Loc) (f : Frame K (V × Loc) P) : (f.moved a).addr = a := by
  cases f <;> rfl

@[simp] theorem plain_moved (a : Loc) (f : Frame K (V × Loc) P) : (f.moved a).plain = f.plain := by
  cases f <;> rfl

/-- The rotation of a node over the frame's, to the side it stands on. -/
def turn (f : Frame K (V × Loc) P) (m : Memory K V P) (node : Loc) : Memory K V P :=
  match f with
  | left .. => m.rotateRight f.addr node
  | right .. => m.rotateLeft f.addr node

theorem turn_ne {node : Loc} (hf : b ≠ f.addr) (hn : b ≠ node) : f.turn m node b = m b := by
  cases f with
  | left => exact Memory.rotateRight_ne hf hn
  | right => exact Memory.rotateLeft_ne hf hn

/-- Which side it is can be read off the frame's cell. -/
theorem turn_eq {node : Loc} (hf : m f.addr = f.cell (some node)) (hnode : node ∉ f.sibling.addrs) :
    (if (m f.addr).left = some node then m.rotateRight f.addr node else m.rotateLeft f.addr node) =
      f.turn m node := by
  rw [hf]
  cases f with
  | left => exact if_pos rfl
  | right k va p l =>
    refine if_neg fun hroot => hnode ?_
    exact SearchTree.root_mem_addrs hroot

theorem plain_rotate [LT P] [DecidableLT P] (fresh : K → Bool) (f : Frame K (V × Loc) P)
    (s : SearchTree K (V × Loc) P) : (f.rotate fresh s).plain = f.plain.rotate fresh s.plain := by
  cases f with
  | left k va p r =>
    cases s with
    | nil => rfl
    | node =>
      simp only [rotate, plain, SearchTree.plain, SearchTree.rotateRight]
      split_ifs <;> rfl
  | right k va p l =>
    cases s with
    | nil => rfl
    | node =>
      simp only [rotate, plain, SearchTree.plain, SearchTree.rotateLeft]
      split_ifs <;> rfl

@[simp] theorem leads_plain [LT K] {key : K} : f.plain.Leads key ↔ f.Leads key := by
  cases f <;> rfl

theorem addrs_plug (f : Frame K (V × Loc) P) (s : SearchTree K (V × Loc) P) :
    (f.plug s).addrs.Perm (s.addrs ++ f.addrs) := by
  cases f with
  | left k va p r =>
    rw [plug, SearchTree.addrs_node]
    exact Perm.refl _
  | right k va p l =>
    rw [plug, SearchTree.addrs_node]
    exact perm_append_comm.trans perm_middle.symm

theorem root_plug (f : Frame K (V × Loc) P) (s : SearchTree K (V × Loc) P) : (f.plug s).root = some f.addr := by
  cases f <;> rfl

theorem holds_plug : (f.plug s).Holds m ↔ s.Holds m ∧ m f.addr = f.cell s.root ∧ f.sibling.Holds m := by
  cases f with
  | left k va p r =>
    constructor
    · rintro ⟨hcell, hs, hr⟩
      exact ⟨hs, hcell, hr⟩
    · rintro ⟨hs, hcell, hr⟩
      exact ⟨hcell, hs, hr⟩
  | right k va p l =>
    constructor
    · rintro ⟨hcell, hl, hs⟩
      exact ⟨hs, hcell, hl⟩
    · rintro ⟨hs, hcell, hl⟩
      exact ⟨hcell, hl, hs⟩

end Frame

namespace SearchTree

/-! ## Around a subtree -/

/-- The addresses of the frames, with those of the subtrees beside them. -/
def around : List (Frame K (V × Loc) P) → List Loc
  | [] => []
  | f :: fs => f.addrs ++ around fs

/-- The memory holds the frames, the nearest of them with this in its hole. -/
def HoldsAround (m : Memory K V P) : List (Frame K (V × Loc) P) → Option Loc → Prop
  | [], _ => True
  | f :: fs, hole => m f.addr = f.cell hole ∧ f.sibling.Holds m ∧ HoldsAround m fs (some f.addr)

/-- The root of the whole tree, with this in the hole. -/
def rootAbove : List (Frame K (V × Loc) P) → Option Loc → Option Loc
  | [], hole => hole
  | f :: fs, _ => rootAbove fs (some f.addr)

section Around
variable {m' : Memory K V P} {fs : List (Frame K (V × Loc) P)}

theorem holds_plug : (plug fs s).Holds m ↔ s.Holds m ∧ HoldsAround m fs s.root := by
  induction fs generalizing s with
  | nil => simp [plug, HoldsAround]
  | cons f fs ih =>
    rw [plug, ih, Frame.holds_plug, Frame.root_plug, HoldsAround]
    simp only [and_assoc]

theorem root_plug (fs : List (Frame K (V × Loc) P)) (s : SearchTree K (V × Loc) P) :
    (plug fs s).root = rootAbove fs s.root := by
  induction fs generalizing s with
  | nil => rfl
  | cons f fs ih => rw [plug, ih, Frame.root_plug, rootAbove]

theorem addrs_plug (fs : List (Frame K (V × Loc) P)) (s : SearchTree K (V × Loc) P) :
    (plug fs s).addrs.Perm (s.addrs ++ around fs) := by
  induction fs generalizing s with
  | nil => simp [plug, around]
  | cons f fs ih =>
    rw [plug, around, ← append_assoc]
    exact (ih (f.plug s)).trans ((f.addrs_plug s).append_right _)

theorem length_le_around (fs : List (Frame K (V × Loc) P)) : fs.length ≤ (around fs).length := by
  induction fs with
  | nil => exact Nat.le_refl 0
  | cons f fs ih =>
    rw [around, length_cons, Frame.addrs, length_append, length_cons]
    omega

theorem mem_addrs_plug : a ∈ (plug fs s).addrs ↔ a ∈ s.addrs ∨ a ∈ around fs := by
  rw [(addrs_plug fs s).mem_iff, mem_append]

theorem nodup_plug : (plug fs s).addrs.Nodup ↔ s.addrs.Nodup ∧ (around fs).Nodup ∧ ∀ a ∈ s.addrs, a ∉ around fs := by
  rw [(addrs_plug fs s).nodup_iff, nodup_append]
  constructor
  · rintro ⟨hs, hfs, hne⟩
    exact ⟨hs, hfs, fun a ha ha' => hne a ha a ha' rfl⟩
  · rintro ⟨hs, hfs, hnot⟩
    exact ⟨hs, hfs, fun a ha b hb hab => hnot a ha (hab ▸ hb)⟩

theorem HoldsAround.congr {hole : Option Loc} (h : HoldsAround m fs hole)
    (heq : ∀ a ∈ around fs, m' a = m a) : HoldsAround m' fs hole := by
  induction fs generalizing hole with
  | nil => trivial
  | cons f fs ih =>
    obtain ⟨hcell, hsib, hrest⟩ := h
    refine ⟨(heq f.addr (by simp [around, Frame.addrs])).trans hcell, hsib.congr ?_, ih hrest ?_⟩
    · intro a ha
      exact heq a (by simp [around, Frame.addrs, ha])
    · intro a ha
      exact heq a (by simp [around, ha])

/-- What is in the hole is written in the nearest frame's cell, and nowhere else. -/
theorem HoldsAround.fill {hole : Option Loc} (h : HoldsAround m (f :: fs) hole) (hnodup : (around (f :: fs)).Nodup)
    (new : Option Loc) : HoldsAround (m.write f.addr (f.cell new)) (f :: fs) new := by
  obtain ⟨-, hsib, hrest⟩ := h
  rw [around, Frame.addrs, cons_append, nodup_cons] at hnodup
  have hkeep : ∀ b ∈ f.sibling.addrs ++ around fs, m.write f.addr (f.cell new) b = m b := by
    intro b hb
    refine Memory.write_ne ?_ _
    rintro rfl
    exact hnodup.1 hb
  exact ⟨Memory.write_same .., hsib.congr fun b hb => hkeep b (by simp [hb]),
    hrest.congr fun b hb => hkeep b (by simp [hb])⟩

/-- Re-pointing the hole is a write to the nearest frame. -/
theorem HoldsAround.relink (h : HoldsAround m (f :: fs) (some a)) (hnodup : (around (f :: fs)).Nodup)
    (ha : a ∉ around (f :: fs)) (new : Option Loc) : HoldsAround (m.relink f.addr a new) (f :: fs) new := by
  have hwrite : m.relink f.addr a new = m.write f.addr (f.cell new) := by
    unfold Memory.relink
    rw [h.1]
    cases f with
    | left k va p r => simp [Frame.cell]
    | right k va p l =>
      have hroot : l.root ≠ some a := fun hroot =>
        ha (by simp [around, Frame.addrs, Frame.sibling, root_mem_addrs hroot])
      simp [Frame.cell, hroot]
  rw [hwrite]
  exact h.fill hnodup new

theorem plain_plug (fs : List (Frame K (V × Loc) P)) (s : SearchTree K (V × Loc) P) :
    (plug fs s).plain = plug (fs.map Frame.plain) s.plain := by
  induction fs generalizing s with
  | nil => rfl
  | cons f fs ih =>
    rw [plug, ih]
    cases f <;> rfl

theorem plain_rise [LT P] [DecidableLT P] (fresh : K → Bool) (fs : List (Frame K (V × Loc) P))
    (s : SearchTree K (V × Loc) P) :
    (rise fresh fs s).plain = rise fresh (fs.map Frame.plain) s.plain := by
  induction fs generalizing s with
  | nil => rfl
  | cons f fs ih => rw [rise, ih, map_cons, rise, Frame.plain_rotate]

end Around

/-! ## Rotations in place -/

section Rotations
variable {k pk : K} {va pva : V × Loc} {p pp : P} {l r : SearchTree K (V × Loc) P}

/-- Of two nodes with three subtrees, no address stands twice. -/
theorem apart_of_nodup {x y z : List Loc} (h : (x ++ a :: (y ++ b :: z)).Nodup) :
    a ≠ b ∧ (∀ c ∈ x, c ≠ a ∧ c ≠ b) ∧ (∀ c ∈ y, c ≠ a ∧ c ≠ b) ∧ ∀ c ∈ z, c ≠ a ∧ c ≠ b := by
  simp only [nodup_append, nodup_cons, mem_append, mem_cons] at h
  grind

variable {x : Option Loc}

theorem Holds.rotateRight (hparent : m pva.2 = ⟨pk, pva.1, pp, x, s.root⟩) (h : (node k va p l r).Holds m)
    (hs : s.Holds m) (hnodup : (node pk pva pp (node k va p l r) s).addrs.Nodup) :
    (node k va p l (node pk pva pp r s)).Holds (m.rotateRight pva.2 va.2) := by
  obtain ⟨hnode, hl, hr⟩ := h
  obtain ⟨hne, hxl, hxr, hxs⟩ : va.2 ≠ pva.2 ∧ (∀ c ∈ l.addrs, c ≠ va.2 ∧ c ≠ pva.2) ∧
      (∀ c ∈ r.addrs, c ≠ va.2 ∧ c ≠ pva.2) ∧ ∀ c ∈ s.addrs, c ≠ va.2 ∧ c ≠ pva.2 :=
    apart_of_nodup (by simpa using hnodup)
  have hkeep : ∀ {t : SearchTree K (V × Loc) P}, t.Holds m → (∀ c ∈ t.addrs, c ≠ va.2 ∧ c ≠ pva.2) →
      t.Holds (m.rotateRight pva.2 va.2) := by
    intro t ht hx
    exact ht.congr fun a ha => Memory.rotateRight_ne (hx a ha).2 (hx a ha).1
  refine ⟨?_, hkeep hl hxl, ?_, hkeep hr hxr, hkeep hs hxs⟩
  · simp [Memory.rotateRight, Memory.write_ne hne, hnode]
  · simp [Memory.rotateRight, Memory.write_ne hne.symm, hnode, hparent]

theorem Holds.rotateLeft (hparent : m pva.2 = ⟨pk, pva.1, pp, s.root, x⟩) (h : (node k va p l r).Holds m)
    (hs : s.Holds m) (hnodup : (node pk pva pp s (node k va p l r)).addrs.Nodup) :
    (node k va p (node pk pva pp s l) r).Holds (m.rotateLeft pva.2 va.2) := by
  obtain ⟨hnode, hl, hr⟩ := h
  obtain ⟨hne, hxs, hxl, hxr⟩ : pva.2 ≠ va.2 ∧ (∀ c ∈ s.addrs, c ≠ pva.2 ∧ c ≠ va.2) ∧
      (∀ c ∈ l.addrs, c ≠ pva.2 ∧ c ≠ va.2) ∧ ∀ c ∈ r.addrs, c ≠ pva.2 ∧ c ≠ va.2 :=
    apart_of_nodup (by simpa using hnodup)
  have hkeep : ∀ {t : SearchTree K (V × Loc) P}, t.Holds m → (∀ c ∈ t.addrs, c ≠ pva.2 ∧ c ≠ va.2) →
      t.Holds (m.rotateLeft pva.2 va.2) := by
    intro t ht hx
    exact ht.congr fun a ha => Memory.rotateLeft_ne (hx a ha).1 (hx a ha).2
  refine ⟨?_, ⟨?_, hkeep hs hxs, hkeep hl hxl⟩, hkeep hr hxr⟩
  · simp [Memory.rotateLeft, Memory.write_ne hne.symm, hnode]
  · simp [Memory.rotateLeft, Memory.write_ne hne, hnode, hparent]

/-- Rotating a node over its parent. What the parent pointed to in its place does not matter, since
the rotation overwrites it. -/
theorem holds_beneath (hf : m f.addr = f.cell x) (hsib : f.sibling.Holds m) (h : (node k va p l r).Holds m)
    (hnodup : (f.plug (node k va p l r)).addrs.Nodup) : (f.beneath k va p l r).Holds (f.turn m va.2) := by
  cases f with
  | left => exact Holds.rotateRight hf h hsib hnodup
  | right => exact Holds.rotateLeft hf h hsib hnodup

theorem addrs_beneath (f : Frame K (V × Loc) P) : (f.beneath k va p l r).addrs = (f.plug (node k va p l r)).addrs := by
  cases f <;> simp [Frame.beneath, Frame.plug]

end Rotations
end SearchTree
end NogoCommons.Lib
