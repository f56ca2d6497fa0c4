import Mathlib.Data.List.Nodup

/-!
# Doubly linked lists in a heap

A heap of nodes, each with a value and two pointers, and what it means for a pair of pointers
into it to hold a given list. `IsList` is the whole of a well-formed list: the first node has
no predecessor, the last no successor, neighbours point at each other, the head and tail
pointers are the first and last addresses, and no address comes twice.

The proofs go through `Seg`, a stretch of such a list between two given outer pointers, since
that is what survives being cut: `seg_append` splits a stretch anywhere, and a store through a
pointer moves only the outer pointer of the stretch it ends (`seg_setNext`, `seg_setPrev`).
-/

namespace NogoCommons.Lib
open List

universe u

/-- A non-nil pointer: the position of a node in the heap. -/
abbrev Addr := Nat

structure Node (α : Type u) where
  val : α
  prev : Option Addr := none
  next : Option Addr := none
deriving DecidableEq

/-- The nodes allocated so far. None is ever freed, so an address once valid stays valid. -/
structure Heap (α : Type u) where
  nodes : List (Node α) := []
deriving DecidableEq

namespace Heap
variable {α : Type u}

def read (h : Heap α) (a : Addr) : Option (Node α) := h.nodes[a]?

def update (h : Heap α) (a : Addr) (f : Node α → Node α) : Heap α :=
  ⟨h.nodes.modify a f⟩

/-- The address the next allocation returns. -/
def fresh (h : Heap α) : Addr := h.nodes.length
def alloc (h : Heap α) (n : Node α) : Heap α := ⟨h.nodes ++ [n]⟩

/-- `if p != nil { p.next = q }`. -/
def setNext (h : Heap α) (p q : Option Addr) : Heap α :=
  match p with
  | some a => h.update a fun n => { n with next := q }
  | none => h

/-- `if p != nil { p.prev = q }`. -/
def setPrev (h : Heap α) (p q : Option Addr) : Heap α :=
  match p with
  | some a => h.update a fun n => { n with prev := q }
  | none => h

variable {h : Heap α} {a b : Addr} {f : Node α → Node α} {n : Node α} {p q : Option Addr}

@[simp] theorem read_update_self : (h.update a f).read a = (h.read a).map f := by
  simp [read, update]

theorem read_update_ne (hab : a ≠ b) : (h.update a f).read b = h.read b := by
  simp [read, update, hab]

theorem lt_fresh_of_read (hr : h.read a = some n) : a < h.fresh :=
  (List.getElem?_eq_some_iff.mp hr).1

theorem read_alloc (h : Heap α) (n : Node α) (a : Addr) :
    (h.alloc n).read a = if a = h.fresh then some n else h.read a := by
  unfold read alloc
  rcases Nat.lt_trichotomy a h.fresh with hlt | rfl | hgt
  · rw [if_neg (Nat.ne_of_lt hlt), getElem?_append_left hlt]
  · simp [fresh]
  · rw [if_neg (Nat.ne_of_gt hgt), getElem?_eq_none (by simp only [length_append]; exact hgt),
      getElem?_eq_none (Nat.le_of_lt hgt)]

@[simp] theorem read_alloc_fresh : (h.alloc n).read h.fresh = some n := by
  rw [read_alloc, if_pos rfl]

theorem read_alloc_of_lt (ha : a < h.fresh) : (h.alloc n).read a = h.read a := by
  rw [read_alloc, if_neg (Nat.ne_of_lt ha)]

theorem update_alloc_fresh : (h.alloc n).update h.fresh f = h.alloc (f n) := by
  obtain ⟨nodes⟩ := h
  simp only [update, alloc, fresh, mk.injEq]
  induction nodes with
  | nil => rfl
  | cons m nodes ih => simpa using ih

theorem read_setNext_ne (hp : p ≠ some a) : (h.setNext p q).read a = h.read a := by
  cases p with
  | none => rfl
  | some b => exact read_update_ne fun hb => hp (by rw [hb])

theorem read_setPrev_ne (hp : p ≠ some a) : (h.setPrev p q).read a = h.read a := by
  cases p with
  | none => rfl
  | some b => exact read_update_ne fun hb => hp (by rw [hb])

/-- Moving pointers changes no value. -/
theorem read_update_val (hf : ∀ n, (f n).val = n.val) :
    ((h.update a f).read b).map Node.val = (h.read b).map Node.val := by
  by_cases hab : a = b
  · subst hab
    simp [Function.comp_def, hf]
  · rw [read_update_ne hab]

@[simp] theorem read_setNext_val : ((h.setNext p q).read a).map Node.val = (h.read a).map Node.val := by
  cases p with
  | none => rfl
  | some b => exact read_update_val fun _ => rfl

@[simp] theorem read_setPrev_val : ((h.setPrev p q).read a).map Node.val = (h.read a).map Node.val := by
  cases p with
  | none => rfl
  | some b => exact read_update_val fun _ => rfl

end Heap

section
variable {α : Type u} {h h' : Heap α} {p q r head tail : Option Addr}
  {xs ys ns : List (Addr × α)} {a : Addr} {x : α}

/-- The pointer to the first node of a stretch. -/
def firstAddr (ns : List (Addr × α)) : Option Addr := ns.head?.map Prod.fst

/-- The pointer to the last node of a stretch. -/
def lastAddr (ns : List (Addr × α)) : Option Addr := ns.getLast?.map Prod.fst
@[simp] theorem firstAddr_nil : firstAddr ([] : List (Addr × α)) = none := rfl
@[simp] theorem firstAddr_cons : firstAddr ((a, x) :: ns) = some a := rfl
@[simp] theorem lastAddr_nil : lastAddr ([] : List (Addr × α)) = none := rfl
@[simp] theorem lastAddr_concat : lastAddr (ns ++ [(a, x)]) = some a := by simp [lastAddr]

theorem firstAddr_append (xs ys : List (Addr × α)) : firstAddr (xs ++ ys) = (firstAddr xs).or (firstAddr ys) := by
  cases xs <;> simp [firstAddr]

theorem lastAddr_append (xs ys : List (Addr × α)) : lastAddr (xs ++ ys) = (lastAddr ys).or (lastAddr xs) := by
  simp only [lastAddr, getLast?_append]
  cases ys.getLast? <;> simp

theorem lastAddr_cons (e : Addr × α) (ns : List (Addr × α)) : ∃ b, lastAddr (e :: ns) = some b :=
  ⟨((e :: ns).getLast (cons_ne_nil e ns)).1, by
    rw [lastAddr, getLast?_eq_some_getLast (cons_ne_nil e ns)]
    rfl⟩

theorem mem_of_firstAddr (hf : firstAddr ns = some a) : a ∈ ns.map Prod.fst := by
  simp only [firstAddr, Option.map_eq_some_iff] at hf
  obtain ⟨e, he, rfl⟩ := hf
  exact mem_map_of_mem (mem_of_mem_head? he)

theorem mem_of_lastAddr (hl : lastAddr ns = some a) : a ∈ ns.map Prod.fst := by
  simp only [lastAddr, Option.map_eq_some_iff] at hl
  obtain ⟨e, he, rfl⟩ := hl
  exact mem_map_of_mem (mem_of_mem_getLast? he)

/-- The nodes `ns` lie linked in the heap, between an outer predecessor `p` and an outer
successor `q`. -/
def Seg (h : Heap α) : Option Addr → List (Addr × α) → Option Addr → Prop
  | _, [], _ => True
  | p, (a, x) :: ns, q => h.read a = some ⟨x, p, (firstAddr ns).or q⟩ ∧ Seg h (some a) ns q

theorem seg_append : ∀ {xs} {p}, Seg h p (xs ++ ys) q ↔
      Seg h p xs ((firstAddr ys).or q) ∧ Seg h ((lastAddr xs).or p) ys q
  | [], p => by simp [Seg]
  | (a, x) :: xs, p => by
    -- The outer predecessor of `ys` is the last of `xs`, or `a` where `xs` is empty.
    have hlast : (lastAddr ((a, x) :: xs)).or p = (lastAddr xs).or (some a) := by
      have := lastAddr_append [(a, x)] xs
      rw [singleton_append] at this
      rw [this]
      cases lastAddr xs <;> simp [lastAddr]
    rw [cons_append, Seg, Seg, seg_append, hlast, firstAddr_append, Option.or_assoc, and_assoc]

theorem seg_congr (hsame : ∀ a ∈ ns.map Prod.fst, h'.read a = h.read a) (hs : Seg h p ns q) : Seg h' p ns q := by
  induction ns generalizing p with
  | nil => trivial
  | cons e ns ih =>
    obtain ⟨a, x⟩ := e
    refine ⟨?_, ih (fun b hb => hsame b (mem_cons_of_mem _ hb)) hs.2⟩
    rw [hsame a (mem_cons_self ..)]
    exact hs.1

/-- Storing into the last node's `next` moves the outer successor. -/
theorem seg_setNext (hs : Seg h p ns q) (hnd : (ns.map Prod.fst).Nodup) : Seg (h.setNext (lastAddr ns) r) p ns r := by
  obtain rfl | ⟨xs, ⟨a, x⟩, rfl⟩ := eq_nil_or_concat' ns
  · trivial
  rw [lastAddr_concat]
  obtain ⟨hxs, ha, -⟩ := seg_append.mp hs
  rw [map_append, nodup_append] at hnd
  refine seg_append.mpr ⟨?_, ?_, trivial⟩
  · refine seg_congr (fun b hb => Heap.read_setNext_ne ?_) hxs
    rintro ⟨⟩
    exact hnd.2.2 a hb a (by simp) rfl
  · show ((h.update a _).read a) = _
    rw [Heap.read_update_self, ha]
    rfl

/-- Storing into the first node's `prev` moves the outer predecessor. -/
theorem seg_setPrev (hs : Seg h p ns q) (hnd : (ns.map Prod.fst).Nodup) : Seg (h.setPrev (firstAddr ns) r) r ns q := by
  cases ns with
  | nil => trivial
  | cons e ns =>
    obtain ⟨a, x⟩ := e
    rw [map_cons, nodup_cons] at hnd
    refine ⟨?_, seg_congr (fun b hb => Heap.read_setPrev_ne ?_) hs.2⟩
    · show ((h.update a _).read a) = _
      rw [Heap.read_update_self, hs.1]
      rfl
    · rintro ⟨⟩
      exact hnd.1 hb

/-- The two pointers hold the list `ns`: values in order, each with its node's address. -/
structure IsList (h : Heap α) (head tail : Option Addr) (ns : List (Addr × α)) : Prop where
  head_eq : head = firstAddr ns
  tail_eq : tail = lastAddr ns
  seg : Seg h none ns none
  nodup : (ns.map Prod.fst).Nodup

namespace IsList

theorem empty : IsList h none none [] := ⟨rfl, rfl, trivial, nodup_nil⟩

/-- What a node of the list holds. -/
theorem read (hl : IsList h head tail (xs ++ (a, x) :: ys)) : h.read a = some ⟨x, lastAddr xs, firstAddr ys⟩ := by
  obtain ⟨-, ha, -⟩ := seg_append.mp hl.seg
  simpa using ha

theorem read_of_mem (hl : IsList h head tail ns) (hm : (a, x) ∈ ns) : ∃ n, h.read a = some n ∧ n.val = x := by
  obtain ⟨xs, ys, rfl⟩ := append_of_mem hm
  exact ⟨_, hl.read, rfl⟩

/-- **Unlinking a node** closes the gap, and leaves the node itself as it was. -/
theorem unlink (hl : IsList h head tail (xs ++ (a, x) :: ys)) :
    IsList ((h.setNext (lastAddr xs) (firstAddr ys)).setPrev (firstAddr ys) (lastAddr xs))
      (if (lastAddr xs).isSome then head else firstAddr ys)
      (if (firstAddr ys).isSome then tail else lastAddr xs) (xs ++ ys) := by
  have hnd := hl.nodup
  rw [map_append, map_cons, nodup_append, nodup_cons] at hnd
  obtain ⟨hxs, ⟨-, hys⟩, hdisj⟩ := hnd
  have hdisj' : ∀ b ∈ xs.map Prod.fst, b ∉ ys.map Prod.fst :=
    fun b hb hb' => hdisj b hb b (mem_cons_of_mem _ hb') rfl
  obtain ⟨hsx, hsa⟩ := seg_append.mp hl.seg
  refine ⟨?_, ?_, ?_, ?_⟩
  · rw [hl.head_eq, firstAddr_append, firstAddr_append]
    cases xs with
    | nil => rfl
    | cons e xs =>
      obtain ⟨b, hb⟩ := lastAddr_cons e xs
      simp [hb, firstAddr]
  · rw [hl.tail_eq, lastAddr_append, lastAddr_append]
    cases ys with
    | nil => rfl
    | cons e ys =>
      have htail : lastAddr ((a, x) :: e :: ys) = lastAddr (e :: ys) := by simp [lastAddr]
      obtain ⟨b, hb⟩ := lastAddr_cons e ys
      simp [htail, hb, firstAddr]
  · refine seg_append.mpr ⟨?_, ?_⟩
    · rw [Option.or_none]
      refine seg_congr (fun b hb => Heap.read_setPrev_ne fun hf => ?_) (seg_setNext hsx hxs)
      exact hdisj' b hb (mem_of_firstAddr hf)
    · rw [Option.or_none]
      refine seg_setPrev (seg_congr (fun b hb => Heap.read_setNext_ne fun hf => ?_) hsa.2) hys
      exact hdisj' b (mem_of_lastAddr hf) hb
  · rw [map_append, nodup_append]
    exact ⟨hxs, hys, fun b hb c hc hbc => hdisj' b hb (hbc ▸ hc)⟩

/-- **A new node at the front**, pointing at the old first node and pointed back at by it. -/
theorem pushFront (hl : IsList h head tail ns) (x : α) : IsList ((h.alloc ⟨x, none, head⟩).setPrev head (some h.fresh))
      (some h.fresh) (if tail.isSome then tail else some h.fresh) ((h.fresh, x) :: ns) := by
  have hlt : ∀ b ∈ ns.map Prod.fst, b < h.fresh := by
    intro b hb
    obtain ⟨⟨b, y⟩, hm, rfl⟩ := mem_map.mp hb
    obtain ⟨n, hn, -⟩ := hl.read_of_mem hm
    exact Heap.lt_fresh_of_read hn
  refine ⟨rfl, ?_, ⟨?_, ?_⟩, ?_⟩
  · rw [hl.tail_eq]
    cases ns with
    | nil => rfl
    | cons e ns => simp [lastAddr]
  · rw [Heap.read_setPrev_ne, Heap.read_alloc_fresh, hl.head_eq, Option.or_none]
    rw [hl.head_eq]
    exact fun hf => absurd (hlt _ (mem_of_firstAddr hf)) (Nat.lt_irrefl _)
  · have halloc : Seg (h.alloc ⟨x, none, head⟩) none ns none :=
      seg_congr (fun b hb => Heap.read_alloc_of_lt (hlt b hb)) hl.seg
    have := seg_setPrev (r := some h.fresh) halloc hl.nodup
    rwa [← hl.head_eq] at this
  · rw [map_cons, nodup_cons]
    exact ⟨fun hm => absurd (hlt _ hm) (Nat.lt_irrefl _), hl.nodup⟩

/-- Changing the value of the first node. -/
theorem modifyFront {f : α → α} (hl : IsList h head tail ((a, x) :: ns)) :
    IsList (h.update a fun n => { n with val := f n.val }) head tail ((a, f x) :: ns) := by
  have hnd := hl.nodup
  rw [map_cons, nodup_cons] at hnd
  refine ⟨hl.head_eq, ?_, ⟨?_, ?_⟩, hl.nodup⟩
  · rw [hl.tail_eq]
    cases ns <;> simp [lastAddr]
  · rw [Heap.read_update_self, hl.seg.1]
    rfl
  · refine seg_congr (fun b hb => Heap.read_update_ne ?_) hl.seg.2
    rintro rfl
    exact hnd.1 hb

end IsList
end
end NogoCommons.Lib
