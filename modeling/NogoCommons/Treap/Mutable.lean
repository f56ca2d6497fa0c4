import NogoCommons.Lib.SearchTree

/-!
# `database/internal/treap/mutable.go` — the mutable treap

A treap with byte strings for keys and values. A new node's priority comes from `rand.Int`, so it
is an argument of `put`. The order of the keys is what every search relies on, and a treap carries
it; the heap order of the priorities is not asked for.

To its caller the treap is a sorted map: `toMap_put` and `toMap_delete` are the only facts about
`put` and `delete` that the database's model uses, with the one about what `delete` leaves behind
(`mem_keys_delete`).
-/

namespace NogoCommons.Treap
open Lib

/-- `treapNode`, with the nodes it points to. The null pointer is `nil`. -/
abbrev TreapNode := SearchTree Bytes Bytes Nat
def nodeFieldsSize : UInt64 := 72

def nodeSize (key value : Bytes) : UInt64 :=
  nodeFieldsSize + UInt64.ofNat (key.length + value.length)

structure Mutable where
  root : TreapNode
  count : Nat
  totalSize : UInt64
  ordered : root.Ordered

namespace Mutable

/-- `NewMutable`. -/
def empty : Mutable := ⟨.nil, 0, 0, SearchTree.ordered_nil⟩

variable (t : Mutable)

def get (key : Bytes) : Option Bytes := t.root.find? key
def has (key : Bytes) : Bool := t.root.has key

/-- `Put`, when `rand.Int` answers `priority`. A nil value is the empty one. -/
def put (key value : Bytes) (priority : Nat) : Mutable where
  root := t.root.put key value priority (t.get key).isNone
  ordered := t.ordered.put key value priority _
  count :=
    match t.root, t.get key with
    | .nil, _ => 1
    | _, none => t.count + 1
    | _, some _ => t.count
  totalSize :=
    match t.root, t.get key with
    | .nil, _ => nodeSize key value
    | _, none => t.totalSize + nodeSize key value
    | _, some old => t.totalSize - UInt64.ofNat old.length + UInt64.ofNat value.length

def delete (key : Bytes) : Mutable :=
  match t.get key with
  | none => t
  | some value =>
    { root := t.root.delete key
      ordered := t.ordered.delete key
      count := match t.root with
        | .node _ _ _ .nil .nil => 0
        | _ => t.count - 1
      totalSize := match t.root with
        | .node _ _ _ .nil .nil => 0
        | _ => t.totalSize - nodeSize key value }

/-- The map a treap is. -/
def toMap : SortedMap Bytes Bytes := t.root.toMap t.ordered

variable {t}

theorem get_eq (key : Bytes) : t.get key = t.toMap.get? key :=
  (SearchTree.get?_toMap t.ordered key).symm

theorem has_eq (key : Bytes) : t.has key = t.toMap.has key := by
  rw [SortedMap.has, ← get_eq]
  rfl

theorem has_iff {key : Bytes} : t.has key = true ↔ key ∈ t.root.keys :=
  SearchTree.has_iff t.ordered

theorem toMap_put (key value : Bytes) (priority : Nat) : (t.put key value priority).toMap = t.toMap.insert key value :=
  SearchTree.toMap_put t.ordered key value priority _

theorem toMap_delete (key : Bytes) : (t.delete key).toMap = t.toMap.erase key := by
  unfold delete
  split
  · next hget =>
    -- Nothing to delete: the key is not in the map either.
    rw [get_eq] at hget
    refine SortedMap.ext_get? fun k => ?_
    rw [SortedMap.get?_erase]
    split_ifs with hk
    · rw [hk, hget]
    · rfl
  · exact SearchTree.toMap_delete t.ordered key

theorem mem_keys_delete {key k : Bytes} : k ∈ (t.delete key).root.keys ↔ k ≠ key ∧ k ∈ t.root.keys := by
  rw [← has_iff, ← has_iff, has_eq, has_eq, toMap_delete, SortedMap.has, SortedMap.get?_erase]
  split_ifs with hk
  · simp [hk]
  · simp [hk, SortedMap.has]

end Mutable
end NogoCommons.Treap
