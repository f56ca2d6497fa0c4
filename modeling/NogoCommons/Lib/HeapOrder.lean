import NogoCommons.Lib.TreeContext

/-!
# Heap order

A treap's second order: no node has a smaller priority than its parent. `put` keeps it, since a new
node is rotated up past every parent of a greater priority. `delete` rotates the doomed node down
under the child of the *higher* priority, and that child then stands above the other one, so that
the order is lost unless the two were equal. Which deletions keep it is exactly `Even`: down the
right side of the left subtree every priority is the one of the right subtree's root.
-/

namespace NogoCommons.Lib.SearchTree
open List
variable {K V P : Type}

def rootPriority? : SearchTree K V P → Option P
  | nil => none
  | node _ _ p _ _ => some p

def priorities : SearchTree K V P → List P
  | nil => []
  | node _ _ p l r => p :: l.priorities ++ r.priorities

/-- No node has a smaller priority than its parent. -/
def HeapOrdered [LE P] : SearchTree K V P → Prop
  | nil => True
  | node _ _ p l r =>
    (∀ q ∈ l.rootPriority?, p ≤ q) ∧ (∀ q ∈ r.rootPriority?, p ≤ q) ∧ l.HeapOrdered ∧ r.HeapOrdered

/-- Down the right side of the first tree, every priority is that of the second tree's root. -/
def Even : SearchTree K V P → SearchTree K V P → Prop
  | node _ _ lp _ lr, node rk rv rp rl rr => lp = rp ∧ Even lr (node rk rv rp rl rr)
  | _, _ => True

variable {f : Frame K V P} {t r : SearchTree K V P}
section Root
variable {q p : P} {l : SearchTree K V P}

theorem mem_priorities_of_root (h : q ∈ t.rootPriority?) : q ∈ t.priorities := by
  cases t with
  | nil => cases h
  | node k v p l r =>
    cases h
    exact mem_cons_self

variable [Preorder P]

/-- The root has the least priority of all. -/
theorem HeapOrdered.le_of_root (h : t.HeapOrdered) (hp : ∀ q ∈ t.rootPriority?, p ≤ q) : ∀ q ∈ t.priorities, p ≤ q := by
  induction t with
  | nil =>
    intro q hq
    cases hq
  | node k v p' l r ihl ihr =>
    obtain ⟨hpl, hpr, hl, hr⟩ := h
    have hle : p ≤ p' := hp p' rfl
    intro q hq
    rw [priorities, cons_append, mem_cons, mem_append] at hq
    rcases hq with rfl | hq | hq
    · exact hle
    · exact ihl hl (fun q' hq' => hle.trans (hpl q' hq')) q hq
    · exact ihr hr (fun q' hq' => hle.trans (hpr q' hq')) q hq

/-- A node is in order if its subtrees are and it has the least priority. -/
theorem heapOrdered_node {k : K} {v : V} : (node k v p l r).HeapOrdered ↔
      (∀ q ∈ l.priorities, p ≤ q) ∧ (∀ q ∈ r.priorities, p ≤ q) ∧ l.HeapOrdered ∧ r.HeapOrdered := by
  constructor
  · intro h
    obtain ⟨hpl, hpr, hl, hr⟩ := h
    exact ⟨hl.le_of_root hpl, hr.le_of_root hpr, hl, hr⟩
  · intro h
    obtain ⟨hpl, hpr, hl, hr⟩ := h
    exact ⟨fun q hq => hpl q (mem_priorities_of_root hq), fun q hq => hpr q (mem_priorities_of_root hq), hl, hr⟩

end Root

/-! ## `put` -/

section Put

theorem mem_priorities_plug :
    q ∈ (f.plug t).priorities ↔ q = f.priority ∨ q ∈ t.priorities ∨ q ∈ f.sibling.priorities := by
  cases f with
  | left k v p r => simp [Frame.plug, priorities, Frame.priority, Frame.sibling]
  | right k v p l =>
    simp only [Frame.plug, priorities, Frame.priority, Frame.sibling, cons_append, mem_cons, mem_append]
    rw [or_comm (a := q ∈ l.priorities)]

variable [LinearOrder P]

theorem heapOrdered_plug : (f.plug t).HeapOrdered ↔ (∀ q ∈ t.priorities, f.priority ≤ q) ∧
      (∀ q ∈ f.sibling.priorities, f.priority ≤ q) ∧ t.HeapOrdered ∧ f.sibling.HeapOrdered := by
  cases f with
  | left k v p r => exact heapOrdered_node
  | right k v p l =>
    refine heapOrdered_node.trans ?_
    constructor
    · rintro ⟨hpl, hpt, hl, ht⟩
      exact ⟨hpt, hpl, ht, hl⟩
    · rintro ⟨hpt, hpl, ht, hl⟩
      exact ⟨hpl, hpt, hl, ht⟩

/-- What has become of a tree that a new node has risen in. Either the new node is at the root, over
what was there before, or an old one is, of no greater priority. -/
inductive Risen (key : K) (priority : P) (t : SearchTree K V P) : SearchTree K V P → Prop
  | top {value : V} {l r : SearchTree K V P} (hl : ∀ q ∈ l.priorities, q ∈ t.priorities)
      (hr : ∀ q ∈ r.priorities, q ∈ t.priorities) : Risen key priority t (node key value priority l r)
  | below {k : K} {v : V} {p : P} {l r : SearchTree K V P} (hk : k ≠ key) (hmem : p ∈ t.priorities)
      (hle : p ≤ priority) : Risen key priority t (node k v p l r)

variable {key : K} {priority : P} {t' : SearchTree K V P}

/-- The new node has the priority it came with, and everything else is from the tree. -/
theorem HeapOrdered.le_of_risen (h : t'.HeapOrdered) (hrisen : Risen key priority t t') (hp : p ≤ priority)
    (ht : ∀ q ∈ t.priorities, p ≤ q) : ∀ q ∈ t'.priorities, p ≤ q := by
  apply h.le_of_root
  intro q hq
  cases hrisen with
  | top => cases hq; exact hp
  | below _ hmem => cases hq; exact ht _ hmem

variable [LinearOrder K]

/-- A new node at the root goes past a node of a greater priority, and stops under any other. -/
theorem risen_rotate (h : (f.plug t).HeapOrdered) (h' : t'.HeapOrdered) (hf : f.key ≠ key)
    (hrisen : Risen key priority t t') :
    (f.rotate (fun k => true && k == key) t').HeapOrdered ∧
      Risen key priority (f.plug t) (f.rotate (fun k => true && k == key) t') := by
  obtain ⟨hft, hfs, -, hsib⟩ := heapOrdered_plug.mp h
  have stop : (f.priority ≤ priority) → (f.plug t').HeapOrdered ∧
      Risen key priority (f.plug t) (f.plug t') := by
    intro hle
    refine ⟨heapOrdered_plug.mpr ⟨h'.le_of_risen hrisen hle hft, hfs, h', hsib⟩, ?_⟩
    have hmem : f.priority ∈ (f.plug t).priorities := mem_priorities_plug.mpr (.inl rfl)
    cases f with
    | left k v p r => exact .below hf hmem hle
    | right k v p l => exact .below hf hmem hle
  cases hrisen with
  | below hk hmem hle =>
    rw [Frame.rotate_of_not_fresh (by simpa [rootKey?] using hk)]
    exact stop ((hft _ hmem).trans hle)
  | @top value l r hl hr =>
    have inLeft : ∀ q ∈ l.priorities, f.priority ≤ q := fun q hq => hft q (hl q hq)
    have inRight : ∀ q ∈ r.priorities, f.priority ≤ q := fun q hq => hft q (hr q hq)
    obtain ⟨hpl, hpr, hol, hor⟩ := heapOrdered_node.mp h'
    rcases lt_or_ge priority f.priority with hlt | hge
    · -- Rotated: the old node takes over one of the new node's subtrees.
      have above : ∀ {s}, (∀ q ∈ s.priorities, f.priority ≤ q) →
          ∀ q ∈ (f.plug s).priorities, priority ≤ q := by
        intro s hs q hq
        rcases mem_priorities_plug.mp hq with rfl | hq | hq
        · exact hlt.le
        · exact hlt.le.trans (hs q hq)
        · exact hlt.le.trans (hfs q hq)
      have within : ∀ {s}, (∀ q ∈ s.priorities, q ∈ t.priorities) →
          (∀ q ∈ s.priorities, q ∈ (f.plug t).priorities) ∧
            ∀ q ∈ (f.plug s).priorities, q ∈ (f.plug t).priorities := by
        intro s hs
        constructor
        · intro q hq
          exact mem_priorities_plug.mpr (.inr (.inl (hs q hq)))
        · intro q hq
          rcases mem_priorities_plug.mp hq with hq | hq | hq
          · exact mem_priorities_plug.mpr (.inl hq)
          · exact mem_priorities_plug.mpr (.inr (.inl (hs q hq)))
          · exact mem_priorities_plug.mpr (.inr (.inr hq))
      rw [Frame.rotate_node (by simp), if_pos hlt]
      cases f with
      | left k v p sib =>
        exact ⟨heapOrdered_node.mpr ⟨hpl, above inRight, hol, heapOrdered_plug.mpr ⟨inRight, hfs, hor, hsib⟩⟩,
          .top (within hl).1 (within hr).2⟩
      | right k v p sib =>
        exact ⟨heapOrdered_node.mpr ⟨above inLeft, hpr, heapOrdered_plug.mpr ⟨inLeft, hfs, hol, hsib⟩, hor⟩,
          .top (within hl).2 (within hr).1⟩
    · rw [Frame.rotate_node (by simp), if_neg hge.not_gt]
      exact stop hge

theorem risen_put {value : V} (h : t.HeapOrdered) (hnew : t.nodeAt key = nil) :
    (t.put key value priority true).HeapOrdered ∧ Risen key priority t (t.put key value priority true) := by
  induction t with
  | nil =>
    refine ⟨?_, .top (by simp [priorities]) (by simp [priorities])⟩
    simp [put, HeapOrdered, rootPriority?]
  | node k v p l r ihl ihr =>
    rw [nodeAt] at hnew
    rw [put]
    split_ifs at hnew ⊢ with hlt hgt
    · obtain ⟨hol, hrisen⟩ := ihl h.2.2.1 hnew
      exact risen_rotate (f := .left k v p r) h hol hlt.ne' hrisen
    · obtain ⟨hor, hrisen⟩ := ihr h.2.2.2 hnew
      exact risen_rotate (f := .right k v p l) h hor hgt.ne hrisen

/-- A value that is put under its key again moves no node. -/
theorem heapOrdered_put_old {value : V} (h : t.HeapOrdered) (hold : t.nodeAt key ≠ nil) :
    (t.put key value priority false).HeapOrdered ∧
      (t.put key value priority false).rootPriority? = t.rootPriority? := by
  induction t with
  | nil => exact absurd rfl hold
  | node k v p l r ihl ihr =>
    obtain ⟨hpl, hpr, hl, hr⟩ := h
    rw [nodeAt] at hold
    rw [put]
    split_ifs at hold ⊢ with hlt hgt
    · obtain ⟨hol, hroot⟩ := ihl hl hold
      have hrot : rotateRight (fun k' => false && k' == key) k v p (l.put key value priority false) r = _ :=
        Frame.rotate_of_not_fresh (f := .left k v p r) (by simp)
      rw [hrot]
      exact ⟨⟨hroot ▸ hpl, hpr, hol, hr⟩, rfl⟩
    · obtain ⟨hor, hroot⟩ := ihr hr hold
      have hrot : rotateLeft (fun k' => false && k' == key) k v p l (r.put key value priority false) = _ :=
        Frame.rotate_of_not_fresh (f := .right k v p l) (by simp)
      rw [hrot]
      exact ⟨⟨hpl, hroot ▸ hpr, hl, hor⟩, rfl⟩
    · exact ⟨⟨hpl, hpr, hl, hr⟩, rfl⟩

theorem HeapOrdered.put (h : t.HeapOrdered) (key : K) (value : V) (priority : P) :
    (t.put key value priority (t.find? key).isNone).HeapOrdered := by
  cases hnode : t.nodeAt key with
  | nil =>
    have hnone : (t.find? key).isNone = true := by simp [find?, hnode, rootValue?]
    rw [hnone]
    exact (risen_put h hnode).1
  | node k v p l r =>
    have hsome : (t.find? key).isNone = false := by simp [find?, hnode, rootValue?]
    rw [hsome]
    exact (heapOrdered_put_old h (by simp [hnode])).1

end Put

/-! ## `delete` -/

section Delete

theorem even_nil_right (l : SearchTree K V P) : Even l nil := by
  cases l <;> trivial

variable [LinearOrder P]

theorem mem_priorities_sink : q ∈ (sink l r).priorities ↔ q ∈ l.priorities ∨ q ∈ r.priorities := by
  induction l, r using sink.induct with
  | case1 => simp [sink, priorities]
  | case2 k v p l r ih => simp [sink, priorities, ih]
  | case3 k v p l r ih => simp [sink, priorities, ih]
  | case4 lk lv lp ll lr rk rv rp rl rr hle ih =>
    rw [sink, if_pos hle]
    simp [priorities, ih, or_assoc]
  | case5 lk lv lp ll lr rk rv rp rl rr hle ih =>
    rw [sink, if_neg hle]
    simp only [priorities, cons_append, mem_cons, mem_append, ih]
    grind

/-- Rotating a node down between its subtrees keeps the order exactly if it never meets two children
of different priorities. -/
theorem heapOrdered_sink (hl : l.HeapOrdered) (hr : r.HeapOrdered) : (sink l r).HeapOrdered ↔ Even l r := by
  induction l, r using sink.induct with
  | case1 => simp [sink, HeapOrdered, Even]
  | case2 k v p l r ih =>
    rw [sink, heapOrdered_node]
    obtain ⟨hpl, hpr, hol, hor⟩ := heapOrdered_node.mp hr
    refine iff_of_true ⟨?_, hpr, (ih hl hol).mpr trivial, hor⟩ trivial
    intro q hq
    rcases mem_priorities_sink.mp hq with hq | hq
    · cases hq
    · exact hpl q hq
  | case3 k v p l r ih =>
    rw [sink, heapOrdered_node]
    obtain ⟨hpl, hpr, hol, hor⟩ := heapOrdered_node.mp hl
    refine iff_of_true ⟨hpl, ?_, hol, (ih hor hr).mpr (even_nil_right _)⟩ trivial
    intro q hq
    rcases mem_priorities_sink.mp hq with hq | hq
    · exact hpr q hq
    · cases hq
  | case4 lk lv lp ll lr rk rv rp rl rr hle ih =>
    obtain ⟨hpl, hpr, hol, hor⟩ := heapOrdered_node.mp hl
    rw [sink, if_pos hle, heapOrdered_node, Even, ih hor hr]
    have rightRoot : rp ∈ (sink lr (node rk rv rp rl rr)).priorities :=
      mem_priorities_sink.mpr (.inr mem_cons_self)
    constructor
    · intro h
      obtain ⟨-, habove, -, heven⟩ := h
      exact ⟨le_antisymm (habove rp rightRoot) hle, heven⟩
    · intro h
      obtain ⟨rfl, heven⟩ := h
      refine ⟨hpl, ?_, hol, heven⟩
      intro q hq
      rcases mem_priorities_sink.mp hq with hq | hq
      · exact hpr q hq
      · exact hr.le_of_root (by simp [rootPriority?]) q hq
  | case5 lk lv lp ll lr rk rv rp rl rr hle ih =>
    -- The right child goes up although the left one has the smaller priority.
    rw [sink, if_neg hle, heapOrdered_node, Even]
    have leftRoot : lp ∈ (sink (node lk lv lp ll lr) rl).priorities :=
      mem_priorities_sink.mpr (.inl mem_cons_self)
    refine iff_of_false ?_ ?_
    · intro h
      exact hle (h.1 lp leftRoot)
    · intro h
      exact hle h.1.ge

variable [LinearOrder K]

theorem mem_priorities_delete {key : K} (h : q ∈ (t.delete key).priorities) : q ∈ t.priorities := by
  induction t with
  | nil => exact h
  | node k v p l r ihl ihr =>
    rw [delete] at h
    simp only [priorities, cons_append, mem_cons, mem_append]
    split_ifs at h
    · simp only [priorities, cons_append, mem_cons, mem_append] at h
      rcases h with h | h | h
      · exact .inl h
      · exact .inr (.inl (ihl h))
      · exact .inr (.inr h)
    · simp only [priorities, cons_append, mem_cons, mem_append] at h
      rcases h with h | h | h
      · exact .inl h
      · exact .inr (.inl h)
      · exact .inr (.inr (ihr h))
    · exact .inr (mem_priorities_sink.mp h)

/-- A deletion keeps the order exactly if the subtrees of the deleted node are `Even`. -/
theorem heapOrdered_delete (h : t.HeapOrdered) (key : K) :
    (t.delete key).HeapOrdered ↔ Even (t.nodeAt key).left (t.nodeAt key).right := by
  induction t with
  | nil => simp [delete, nodeAt, HeapOrdered, left, right, Even]
  | node k v p l r ihl ihr =>
    obtain ⟨hpl, hpr, hl, hr⟩ := heapOrdered_node.mp h
    rw [delete, nodeAt]
    split_ifs with hlt hgt
    · rw [heapOrdered_node, ihl hl]
      exact ⟨fun h => h.2.2.1, fun h => ⟨fun q hq => hpl q (mem_priorities_delete hq), hpr, h, hr⟩⟩
    · rw [heapOrdered_node, ihr hr]
      exact ⟨fun h => h.2.2.2, fun h => ⟨hpl, fun q hq => hpr q (mem_priorities_delete hq), hl, h⟩⟩
    · exact heapOrdered_sink hl hr

end Delete
end NogoCommons.Lib.SearchTree
