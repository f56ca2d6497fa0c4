import Mathlib.Data.Finmap
import NogoCommons.Lib.LinkedList
import NogoCommons.Lib.Lru

/-!
# `simpleLRU`: the cache behind `Cache.GetData`

A map from keys to list nodes and a doubly linked list with the most recently used node at the
head, kept in step by hand. The model has the nodes in a heap, so that a node can be linked
and out of the map, or in the map and unlinked, as the pointers of the source can.

This file is the code and what holds of it in every run, hits and all: a node keeps the key it
was made for, and what `Get` answers was once added for the key it was asked for
(`get_answer_added`). What a run does to the map and the count is `Nogopow/SimpleLruRuns.lean`.
-/

namespace NogoCommons.Nogopow
open Lib

universe u v

/-- `simpleLRU`. A `listItem` is a node of the heap with the pair of its key and value;
`evicted` records the calls of `onEvict`, where one was given. -/
structure SimpleLRU (K : Type u) (V : Type v) where
  size : Int := 0
  capacity : Int
  onEvict : Bool
  items : Finmap fun _ : K => Addr := ∅
  head : Option Addr := none
  tail : Option Addr := none
  heap : Heap (K × V) := {}
  evicted : List (K × V) := []

variable {K : Type u} {V : Type v}

def newSimpleLRU (capacity : Int) (onEvict : Bool) : SimpleLRU K V :=
  { capacity := capacity, onEvict := onEvict }

namespace SimpleLRU

/-! ## Reading the list -/

def len (l : SimpleLRU K V) : Int := l.size

/-- The loop of `Keys`, for at most `fuel` nodes: `none` where they did not reach the end. -/
def keysFrom (heap : Heap (K × V)) : Nat → Option Addr → Option (List K)
  | _, none => some []
  | 0, some _ => none
  | fuel + 1, some ent =>
    (heap.read ent).bind fun e => (keysFrom heap fuel e.next).map (e.val.1 :: ·)

/-- `Keys`. A walk that meets more nodes than there are is in a cycle and never returns. -/
def keys (l : SimpleLRU K V) : Option (List K) := keysFrom l.heap l.heap.fresh l.head

/-- `Keys` on a list that ends: the keys of the list, in its order. -/
theorem keysFrom_seg {heap : Heap (K × V)} : ∀ {ns} {p}
    {fuel : Nat}, Seg heap p ns none → ns.length ≤ fuel →
      keysFrom heap fuel (firstAddr ns) = some (Lru.keys (ns.map Prod.snd))
  | [], _, _, _, _ => by simp [keysFrom, Lru.keys]
  | (a, e) :: ns, _, 0, _, hf => absurd hf (by simp)
  | (a, e) :: ns, _, fuel + 1, hs, hf => by
    have ih := keysFrom_seg hs.2 (Nat.le_of_succ_le_succ hf)
    rw [firstAddr_cons, keysFrom, hs.1]
    simp [ih, Lru.keys]

/-! ## The calls -/

variable [DecidableEq K]

def removeElement (l : SimpleLRU K V) (ent : Addr) : SimpleLRU K V :=
  match l.heap.read ent with
  | none => l -- a pointer of the source always has a node behind it
  | some e =>
    { l with
      items := l.items.erase e.val.1
      size := l.size - 1
      heap := (l.heap.setNext e.prev e.next).setPrev e.next e.prev
      head := if e.prev.isSome then l.head else e.next
      tail := if e.next.isSome then l.tail else e.prev
      evicted := if l.onEvict then l.evicted ++ [e.val] else l.evicted }

def removeOldest (l : SimpleLRU K V) : SimpleLRU K V :=
  match l.tail with
  | some ent => l.removeElement ent
  | none => l

def moveToFront (l : SimpleLRU K V) (ent : Addr) : SimpleLRU K V :=
  if l.head = some ent then l
  else
    let l := l.removeElement ent
    let heap := l.heap.update ent fun n => { n with next := l.head, prev := none }
    { l with
      heap := heap.setPrev l.head (some ent)
      head := some ent
      tail := if l.tail.isSome then l.tail else some ent }

/-- The part of `Add` that makes and links a node for a new key. -/
def insertFront (l : SimpleLRU K V) (key : K) (value : V) : SimpleLRU K V :=
  let ent := l.heap.fresh
  let heap := l.heap.alloc { val := (key, value) }
  let l := { l with items := l.items.insert key ent, size := l.size + 1 }
  match l.head with
  | none => { l with heap := heap, head := some ent, tail := some ent }
  | some h =>
    { l with
      heap := (heap.setNext (some ent) (some h)).setPrev (some h) (some ent)
      head := some ent }

def add (l : SimpleLRU K V) (key : K) (value : V) : SimpleLRU K V :=
  match l.items.lookup key with
  | some ent =>
    let l := l.moveToFront ent
    { l with heap := l.heap.update ent fun n => { n with val := (n.val.1, value) } }
  | none =>
    let l := l.insertFront key value
    if l.size > l.capacity then l.removeOldest else l

/-- `Get`, with the cache it leaves. -/
def get (l : SimpleLRU K V) (key : K) : Option V × SimpleLRU K V :=
  match l.items.lookup key with
  | some ent =>
    let l := l.moveToFront ent
    ((l.heap.read ent).map (·.val.2), l)
  | none => (none, l)

/-- `Remove`, with the cache it leaves. -/
def remove (l : SimpleLRU K V) (key : K) : Bool × SimpleLRU K V :=
  match l.items.lookup key with
  | some ent => (true, l.removeElement ent)
  | none => (false, l)

/-- One call. -/
def step (l : SimpleLRU K V) : CacheOp K V → SimpleLRU K V
  | .add k v => l.add k v
  | .get k => (l.get k).2
  | .remove k => (l.remove k).2

/-- The cache after a run of calls from `newSimpleLRU`. -/
def after (capacity : Int) (onEvict : Bool) (ops : List (CacheOp K V)) : SimpleLRU K V :=
  ops.foldl step (newSimpleLRU capacity onEvict)

@[simp] theorem after_concat (capacity : Int) (onEvict : Bool) (ops : List (CacheOp K V)) (op : CacheOp K V) :
    after capacity onEvict (ops ++ [op]) = (after capacity onEvict ops).step op := by
  simp [after]

section
variable (l : SimpleLRU K V)

@[simp] theorem removeElement_capacity (ent : Addr) : (l.removeElement ent).capacity = l.capacity := by
  unfold removeElement
  split <;> rfl

@[simp] theorem insertFront_capacity (key : K) (value : V) : (l.insertFront key value).capacity = l.capacity := by
  cases hh : l.head <;> simp [insertFront, hh]

theorem insertFront_items (key : K) (value : V) :
    (l.insertFront key value).items = l.items.insert key l.heap.fresh := by
  cases hh : l.head <;> simp [insertFront, hh]

theorem removeOldest_eq {l : SimpleLRU K V} {ent : Addr} (ht : l.tail = some ent) :
    l.removeOldest = l.removeElement ent := by
  rw [removeOldest, ht]

/-- `moveToFront` moves pointers only. -/
theorem moveToFront_read_val (ent a : Addr) :
    (((l.moveToFront ent).heap.read a).map Node.val) = (l.heap.read a).map Node.val := by
  unfold moveToFront
  split
  · rfl
  · simp only [Heap.read_setPrev_val]
    rw [Heap.read_update_val (by intro n; rfl), removeElement]
    split
    · rfl
    · simp

end

/-! ## What every run keeps

The map never points at another key's node, whatever becomes of the links. So a property that
every value has when it is added, every answer has. -/

variable {l : SimpleLRU K V} {a : Addr} {k : K} {v : V}

/-- The key and value of a node. -/
def entry (l : SimpleLRU K V) (a : Addr) : Option (K × V) := (l.heap.read a).map Node.val

/-- Every node's value satisfies `P` for its key, and the map points at nodes of its own keys. -/
structure Holds (P : K → V → Prop) (l : SimpleLRU K V) : Prop where
  items : ∀ k a, l.items.lookup k = some a → ∃ v, l.entry a = some (k, v)
  vals : ∀ a k v, l.entry a = some (k, v) → P k v

variable {P : K → V → Prop} {l' : SimpleLRU K V}

theorem holds_newSimpleLRU (capacity : Int) (onEvict : Bool) : Holds P (newSimpleLRU capacity onEvict) :=
  ⟨fun k a h => by simp [newSimpleLRU] at h, fun a k v h => by
    simp [entry, newSimpleLRU, Heap.read] at h⟩

theorem removeElement_items {ent : Addr} (ha : (l.removeElement ent).items.lookup k = some a) :
    l.items.lookup k = some a := by
  unfold removeElement at ha
  split at ha
  · exact ha
  · rename_i e he
    by_cases hk : k = e.val.1
    · subst hk
      simp at ha
    · rwa [Finmap.lookup_erase_ne hk] at ha

theorem removeElement_entry (l : SimpleLRU K V) (ent a : Addr) : (l.removeElement ent).entry a = l.entry a := by
  unfold entry removeElement
  split <;> simp

variable (h : Holds P l)
include h

/-- Forgetting keys and moving pointers keeps it. -/
theorem Holds.shrink (hentry : ∀ a, l'.entry a = l.entry a)
    (hitems : ∀ k a, l'.items.lookup k = some a → l.items.lookup k = some a) : Holds P l' :=
  ⟨fun k a ha => by rw [hentry]; exact h.items k a (hitems k a ha),
    fun a k v ha => h.vals a k v (by rwa [← hentry])⟩

theorem Holds.removeElement (ent : Addr) : Holds P (l.removeElement ent) :=
  h.shrink (removeElement_entry l ent) fun _ _ => removeElement_items

theorem Holds.moveToFront (ent : Addr) : Holds P (l.moveToFront ent) := by
  refine h.shrink (moveToFront_read_val l ent) fun k a ha => ?_
  unfold SimpleLRU.moveToFront at ha
  split at ha
  · exact ha
  · exact removeElement_items ha

theorem Holds.insertFront (hP : P k v) : Holds P (l.insertFront k v) := by
  have hentry : ∀ a, (l.insertFront k v).entry a
      = if a = l.heap.fresh then some (k, v) else l.entry a := by
    intro a
    have hval : (l.insertFront k v).entry a = ((l.heap.alloc ⟨(k, v), none, none⟩).read a).map Node.val := by
      cases hh : l.head <;> simp [entry, SimpleLRU.insertFront, hh]
    rw [hval, Heap.read_alloc]
    split <;> rfl
  constructor
  · intro k' a ha
    rw [insertFront_items] at ha
    by_cases hk : k' = k
    · subst hk
      obtain rfl : l.heap.fresh = a := by simpa using ha
      exact ⟨v, by rw [hentry, if_pos rfl]⟩
    · rw [Finmap.lookup_insert_of_ne _ hk] at ha
      obtain ⟨w, hw⟩ := h.items k' a ha
      obtain ⟨n, hn, -⟩ := Option.map_eq_some_iff.mp hw
      exact ⟨w, by rw [hentry, if_neg (Nat.ne_of_lt (Heap.lt_fresh_of_read hn)), hw]⟩
  · intro a k' w ha
    rw [hentry] at ha
    split at ha
    · cases ha
      exact hP
    · exact h.vals a k' w ha

theorem Holds.add (hP : P k v) : Holds P (l.add k v) := by
  unfold SimpleLRU.add
  split
  · rename_i ent hent
    have hmove := h.moveToFront ent
    obtain ⟨w, hw⟩ : ∃ w, (l.moveToFront ent).entry ent = some (k, w) := by
      rw [entry, moveToFront_read_val]
      exact h.items k ent hent
    obtain ⟨n, hn, hnv⟩ := Option.map_eq_some_iff.mp hw
    generalize l.moveToFront ent = m at *
    -- The stored value changes at `ent` only, and there it is `k`'s new value.
    have hentry : ∀ a,
        ({ m with heap := m.heap.update ent fun n => { n with val := (n.val.1, v) } } :
          SimpleLRU K V).entry a = if a = ent then some (k, v) else m.entry a := by
      intro a
      unfold entry
      by_cases ha : a = ent
      · subst ha
        simp [hn, hnv]
      · rw [if_neg ha, Heap.read_update_ne (Ne.symm ha)]
    refine ⟨fun k' a ha => ?_, fun a k' x ha => ?_⟩
    · obtain ⟨x, hx⟩ := hmove.items k' a ha
      rw [hentry]
      by_cases hae : a = ent
      · subst hae
        rw [hw] at hx
        cases hx
        exact ⟨v, if_pos rfl⟩
      · exact ⟨x, by rw [if_neg hae, hx]⟩
    · rw [hentry] at ha
      split at ha
      · cases ha
        exact hP
      · exact hmove.vals a k' x ha
  · have hins := h.insertFront hP
    generalize l.insertFront k v = m at *
    simp only [removeOldest]
    split
    · split
      · exact hins.removeElement _
      · exact hins
    · exact hins

theorem Holds.get (k : K) : Holds P (l.get k).2 := by
  unfold SimpleLRU.get
  split
  · exact h.moveToFront _
  · exact h

theorem Holds.remove (k : K) : Holds P (l.remove k).2 := by
  unfold SimpleLRU.remove
  split
  · exact h.removeElement _
  · exact h

/-- **Every answer has the property.** -/
theorem Holds.get_answer (hg : (l.get k).1 = some v) : P k v := by
  unfold SimpleLRU.get at hg
  split at hg
  · rename_i ent hent
    obtain ⟨w, hw⟩ := h.items k ent hent
    have hval := moveToFront_read_val l ent ent
    rw [show (l.heap.read ent).map Node.val = some (k, w) from hw] at hval
    obtain ⟨n, hn, hnv⟩ := Option.map_eq_some_iff.mp hval
    obtain rfl : w = v := by simpa [hn, hnv] using hg
    exact h.vals ent k w hw
  · cases hg

end SimpleLRU
end NogoCommons.Nogopow
