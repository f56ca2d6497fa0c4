import NogoCommons.Lib.PlacedTree
import NogoCommons.Treap.Mutable

/-!
# `database/internal/treap/common.go` — nodes, their pool, and the stack of parents

`treapNode`s are cells of a memory here, and a pointer is an address. `treapNodePool` is a
`sync.Pool`: what `Get` answers is one of the nodes that were put into it, or a new node, and which of
them is not for the caller to say. The choices are part of the heap (`picks`), so that what is proved
for every heap is proved for all of them. A node that the garbage collector drops from the pool is one
that is never picked.

`parentStack` has room for 128 parents and a slice for the rest. It is a stack however deep it gets:
`Stacks` relates it to the list of what is on it, the topmost first, and the three lemmas about
`push`, `pop` and `peek` are what the loops over it use.
-/

namespace NogoCommons.Treap
open Lib
open List hiding Vector

/-! ## The nodes and the pool -/

structure NodeHeap where
  cells : Memory Bytes Bytes Nat
  /-- No node has this address or a greater one. -/
  top : Loc
  treapNodePool : List Loc
  /-- What the calls of `Get` to come will choose. -/
  picks : List Nat

namespace NodeHeap

def write (h : NodeHeap) (n : Loc) (c : Cell Bytes Bytes Nat) : NodeHeap :=
  { h with cells := h.cells.write n c }

def get (h : NodeHeap) : Loc × NodeHeap :=
  match h.picks with
  | [] => (h.top, { h with top := h.top + 1 })
  | i :: picks =>
    match h.treapNodePool[i]? with
    | none => (h.top, { h with top := h.top + 1, picks })
    | some n => (n, { h with treapNodePool := h.treapNodePool.eraseIdx i, picks })

def recycle (n : Loc) (h : NodeHeap) : NodeHeap :=
  { h.write n ⟨[], [], 0, none, none⟩ with treapNodePool := n :: h.treapNodePool }

def newTreapNode (key value : Bytes) (priority : Nat) (h : NodeHeap) : Loc × NodeHeap :=
  let (n, h) := h.get
  (n, h.write n ⟨key, value, priority, none, none⟩)

def cloneTreapNode (node : Loc) (h : NodeHeap) : Loc × NodeHeap :=
  let (n, h) := h.get
  (n, h.write n (h.cells node))

/-- The node is in use: it has been handed out and is not in the pool. -/
def Live (h : NodeHeap) (n : Loc) : Prop := n < h.top ∧ n ∉ h.treapNodePool

structure Sound (h : NodeHeap) : Prop where
  nodup : h.treapNodePool.Nodup
  below : ∀ n ∈ h.treapNodePool, n < h.top

/-- A heap in which everything that was in use still is, and, but for these nodes, is unchanged. -/
structure Extends (own : List Loc) (h h' : NodeHeap) : Prop where
  sound : h'.Sound
  live : ∀ n, h.Live n → h'.Live n
  keeps : ∀ n, h.Live n → n ∉ own → h'.cells n = h.cells n

variable {h h' h'' : NodeHeap} {own : List Loc}

theorem Extends.refl (hs : h.Sound) : Extends own h h :=
  ⟨hs, fun _ hn => hn, fun _ _ _ => rfl⟩

theorem Extends.trans (h₁ : Extends own h h') (h₂ : Extends own h' h'') : Extends own h h'' where
  sound := h₂.sound
  live n hn := h₂.live n (h₁.live n hn)
  keeps n hn hown := (h₂.keeps n (h₁.live n hn) hown).trans (h₁.keeps n hn hown)

/-- What is written is one of the excepted nodes, or one that was not in use. -/
theorem Extends.update (he : Extends own h h') {cells : Memory Bytes Bytes Nat}
    (hcells : ∀ n, h.Live n → n ∉ own → cells n = h'.cells n) : Extends own h { h' with cells } where
  sound := ⟨he.sound.nodup, he.sound.below⟩
  live := he.live
  keeps n hn hown := (hcells n hn hown).trans (he.keeps n hn hown)

theorem Extends.write (he : Extends own h h') {n : Loc} (hn : n ∈ own ∨ ¬ h.Live n)
    (c : Cell Bytes Bytes Nat) : Extends own h (h'.write n c) := by
  refine he.update fun a ha hown => Memory.write_ne ?_ c
  rintro rfl
  rcases hn with hn | hn
  · exact hown hn
  · exact hn ha

theorem Extends.weaken (he : Extends [] h h') : Extends own h h' :=
  ⟨he.sound, he.live, fun n hn _ => he.keeps n hn (not_mem_nil)⟩

/-- There are no more nodes in use than the heap has. -/
theorem length_le_top {nodes : List Loc} (hnodup : nodes.Nodup) (hlive : ∀ a ∈ nodes, h.Live a) :
    nodes.length ≤ h.top := by
  have hsub : nodes ⊆ range h.top := by
    intro a ha
    exact mem_range.mpr (hlive a ha).1
  simpa using (subperm_of_subset hnodup hsub).length_le

/-- `Get` hands out a node that was not in use, and no other. -/
theorem get_spec (hs : h.Sound) {n : Loc} (hget : h.get = (n, h')) :
    ¬ h.Live n ∧ h'.Sound ∧ h'.cells = h.cells ∧ ∀ a, h'.Live a ↔ h.Live a ∨ a = n := by
  have fresh : ∀ picks, ¬ h.Live h.top ∧
      (∀ a, NodeHeap.Live { h with top := h.top + 1, picks } a ↔ h.Live a ∨ a = h.top) ∧
      NodeHeap.Sound { h with top := h.top + 1, picks } := by
    intro picks
    refine ⟨fun hl => absurd hl.1 (lt_irrefl _), fun a => ?_, hs.nodup, fun a ha => ?_⟩
    · constructor
      · rintro ⟨hlt, hnot⟩
        rcases Nat.lt_succ_iff_lt_or_eq.mp hlt with hlt | heq
        · exact .inl ⟨hlt, hnot⟩
        · exact .inr heq
      · rintro (⟨hlt, hnot⟩ | rfl)
        · exact ⟨Nat.lt_succ_of_lt hlt, hnot⟩
        · exact ⟨Nat.lt_succ_self _, fun hmem => absurd (hs.below _ hmem) (lt_irrefl _)⟩
    · exact Nat.lt_succ_of_lt (hs.below a ha)
  unfold get at hget
  split at hget
  · next hpicks =>
    cases hget
    exact ⟨(fresh h.picks).1, (fresh h.picks).2.2, rfl, (fresh h.picks).2.1⟩
  · next i picks hpicks =>
    split at hget
    · cases hget
      exact ⟨(fresh picks).1, (fresh picks).2.2, rfl, (fresh picks).2.1⟩
    · next a ha =>
      cases hget
      have hmem : n ∈ h.treapNodePool := mem_of_getElem? ha
      have herase : ∀ b, b ∈ h.treapNodePool.eraseIdx i ↔ b ∈ h.treapNodePool ∧ b ≠ n := by
        intro b
        obtain ⟨hi, rfl⟩ := List.getElem?_eq_some_iff.mp ha
        rw [← hs.nodup.erase_getElem i hi, hs.nodup.mem_erase_iff, and_comm]
      refine ⟨fun hl => hl.2 hmem, ⟨hs.nodup.sublist (eraseIdx_sublist ..), fun b hb => ?_⟩, rfl, fun b => ?_⟩
      · exact hs.below b ((herase b).mp hb).1
      · constructor
        · rintro ⟨hlt, hnot⟩
          by_cases hbn : b = n
          · exact .inr hbn
          · exact .inl ⟨hlt, fun hb => hnot ((herase b).mpr ⟨hb, hbn⟩)⟩
        · rintro (⟨hlt, hnot⟩ | rfl)
          · exact ⟨hlt, fun hb => hnot ((herase b).mp hb).1⟩
          · exact ⟨hs.below _ hmem, fun hb => ((herase _).mp hb).2 rfl⟩

/-- A node that is handed out with this in its cell. -/
theorem get_write_spec (hs : h.Sound) {n : Loc} (hget : h.get = (n, h')) (c : Cell Bytes Bytes Nat) :
    ¬ h.Live n ∧ Extends [] h (h'.write n c) ∧ (h'.write n c).Live n ∧ (h'.write n c).cells n = c := by
  obtain ⟨hnot, hsound, hcells, hlive⟩ := get_spec hs hget
  have hext : Extends [] h h' :=
    ⟨hsound, fun a ha => (hlive a).mpr (.inl ha), fun a _ _ => by rw [hcells]⟩
  exact ⟨hnot, hext.write (.inr hnot) c, (hlive n).mpr (.inr rfl), Memory.write_same ..⟩

end NodeHeap

/-! ## The stack of parents -/

def staticDepth : Nat := 128

structure ParentStack (α : Type) where
  index : Nat
  items : Vector (Option α) staticDepth
  /-- A slice, whose capacity is its length. -/
  overflow : List (Option α)

namespace ParentStack
variable {α : Type}

def empty : ParentStack α := ⟨0, Vector.replicate staticDepth none, []⟩
def len (s : ParentStack α) : Nat := s.index

/-- What is in a slot, of the array or of the slice. -/
def slot (s : ParentStack α) (i : Nat) : Option α :=
  if h : i < staticDepth then s.items[i] else s.overflow.getD (i - staticDepth) none

/-- `At`. -/
def peek (s : ParentStack α) (n : Nat) : Option α :=
  if s.index < n + 1 then none else s.slot (s.index - n - 1)

def pop (s : ParentStack α) : Option α × ParentStack α :=
  if s.index = 0 then (none, s)
  else
    let index := s.index - 1
    if h : index < staticDepth then
      (s.items[index], { s with index, items := s.items.set index none h })
    else
      (s.overflow.getD (index - staticDepth) none,
        { s with index, overflow := s.overflow.set (index - staticDepth) none })

/-- The slice with room for this index. -/
def grow (overflow : List (Option α)) (index : Nat) : List (Option α) :=
  if overflow.length < index + 1 then
    overflow ++ replicate (index + 1 - overflow.length) none
  else overflow

def push (node : α) (s : ParentStack α) : ParentStack α :=
  if h : s.index < staticDepth then
    { s with items := s.items.set s.index (some node) h, index := s.index + 1 }
  else
    let index := s.index - staticDepth
    { s with overflow := (grow s.overflow index).set index (some node), index := s.index + 1 }

/-- These are on the stack, the topmost first. -/
structure Stacks (s : ParentStack α) (nodes : List α) : Prop where
  index : s.index = nodes.length
  slot : ∀ i, i < nodes.length → s.slot i = nodes.reverse[i]?

variable {s : ParentStack α} {nodes : List α}

theorem stacks_empty : Stacks (empty : ParentStack α) [] :=
  ⟨rfl, fun i hi => absurd hi (Nat.not_lt_zero i)⟩

theorem lt_length_grow (overflow : List (Option α)) (i : Nat) : i < (grow overflow i).length := by
  unfold grow
  split_ifs
  · rw [length_append, length_replicate]
    omega
  · omega

/-- The slots that are added are empty. -/
theorem getD_grow (overflow : List (Option α)) (i j : Nat) : (grow overflow i).getD j none = overflow.getD j none := by
  unfold grow
  split_ifs
  · rw [getD_eq_getElem?_getD, getD_eq_getElem?_getD, getElem?_append]
    split_ifs with hj
    · rfl
    · rw [getElem?_replicate, getElem?_eq_none (by omega)]
      split_ifs <;> rfl
  · rfl

theorem getD_set {overflow : List (Option α)} {i : Nat} (hi : i < overflow.length) (x : Option α) (j : Nat) :
    (overflow.set i x).getD j none = if j = i then x else overflow.getD j none := by
  rw [getD_eq_getElem?_getD, getElem?_set]
  by_cases hj : i = j
  · simp [hj, hj ▸ hi]
  · simp [hj, Ne.symm hj]

/-- A push is a write to the first free slot. -/
theorem slot_push (node : α) (s : ParentStack α) (i : Nat) :
    (s.push node).slot i = if i = s.index then some node else s.slot i := by
  unfold push slot
  by_cases hlt : s.index < staticDepth
  · simp only [hlt, dif_pos]
    by_cases hi : i = s.index
    · subst hi
      simp [hlt]
    · by_cases his : i < staticDepth
      · simp [his, hi, Vector.getElem_set_ne _ _ (Ne.symm hi)]
      · simp [his, hi]
  · simp only [hlt, dif_neg, not_false_eq_true]
    by_cases his : i < staticDepth
    · have hi : i ≠ s.index := by omega
      simp [his, hi]
    · have hiff : i - staticDepth = s.index - staticDepth ↔ i = s.index := by omega
      rw [dif_neg his, dif_neg his, getD_set (lt_length_grow ..), getD_grow]
      simp only [hiff]

/-- A pop answers the last slot in use and leaves the slots before it. -/
theorem pop_spec (hindex : s.index ≠ 0) : s.pop.1 = s.slot (s.index - 1) ∧ s.pop.2.index = s.index - 1 ∧
      ∀ i, i < s.index - 1 → s.pop.2.slot i = s.slot i := by
  unfold pop
  rw [if_neg hindex]
  by_cases hlt : s.index - 1 < staticDepth
  · simp only [hlt, dif_pos]
    refine ⟨by simp [slot, hlt], trivial, fun i hi => ?_⟩
    have his : i < staticDepth := by omega
    simp [slot, his, Vector.getElem_set_ne _ _ (Nat.ne_of_gt hi)]
  · simp only [hlt, dif_neg, not_false_eq_true]
    refine ⟨by simp [slot, hlt], trivial, fun i hi => ?_⟩
    unfold slot
    by_cases his : i < staticDepth
    · simp [his]
    · rw [dif_neg his, dif_neg his, getD_eq_getElem?_getD, getElem?_set_ne (by omega), getD_eq_getElem?_getD]

variable (h : Stacks s nodes)
include h

theorem Stacks.peek (n : Nat) : s.peek n = nodes[n]? := by
  unfold ParentStack.peek
  rw [h.index]
  split_ifs with hn
  · exact (getElem?_eq_none (by omega)).symm
  · rw [h.slot _ (by omega), getElem?_reverse (by omega)]
    congr 1
    omega

theorem Stacks.push (node : α) : Stacks (s.push node) (node :: nodes) := by
  have hindex : (s.push node).index = s.index + 1 := by
    unfold ParentStack.push
    split_ifs <;> rfl
  constructor
  · rw [hindex, h.index, length_cons]
  · intro i hi
    rw [slot_push, h.index, reverse_cons]
    split_ifs with heq
    · rw [heq, ← length_reverse, getElem?_concat_length]
    · rw [length_cons] at hi
      rw [h.slot i (by omega), getElem?_append_left (by rw [length_reverse]; omega)]

theorem Stacks.pop : s.pop.1 = nodes.head? ∧ Stacks s.pop.2 nodes.tail := by
  cases nodes with
  | nil =>
    have hindex : s.index = 0 := h.index
    unfold ParentStack.pop
    rw [if_pos hindex]
    exact ⟨rfl, h⟩
  | cons node nodes =>
    have hlen : s.index = nodes.length + 1 := h.index
    obtain ⟨htop, hindex, hslots⟩ := pop_spec (s := s) (by omega)
    rw [hlen, Nat.add_sub_cancel] at htop hindex hslots
    refine ⟨?_, hindex, fun i hi => ?_⟩
    · rw [htop, h.slot _ (by simp), reverse_cons, ← length_reverse, getElem?_concat_length]
      rfl
    · rw [tail_cons] at hi ⊢
      rw [hslots i hi, h.slot i (by simp; omega), reverse_cons, getElem?_append_left (by rwa [length_reverse])]

theorem Stacks.len : s.len = nodes.length := h.index

end ParentStack
end NogoCommons.Treap
