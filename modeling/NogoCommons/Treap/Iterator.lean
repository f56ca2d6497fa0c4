import NogoCommons.Treap.Mutable
import Mathlib.Data.List.TakeWhile

/-!
# `database/internal/treap/treapiter.go` — iterating over a treap

An iterator holds pointers into the treap: its node, and the nodes above it. Here a pointer is the
key of the node it points to, and what is read through it is read from the treap as it is at that
time. A node that `Delete` has cut off has no children any more (`delete` rotates it down to a leaf
before it cuts it off), and `nodeAt` answers `nil` for it.

`ForceReseek` tells an iterator that the treap has changed. An iterator that is not told goes on
with the parents it has. If its own node was deleted, `next` finds no right subtree below it and
does not find it below its parent, so that it takes the parent, whatever side the node was on. From
there on the iterator climbs its parents one by one until one is out of range (`visits_next`):
everything that stood to the right of a deleted node is passed over.
-/

namespace NogoCommons.Treap
open Lib List

/-- `Iterator`. The treap is an argument of its operations. -/
structure Iterator where
  node : Option Bytes
  /-- The topmost first. -/
  parents : List Bytes
  isNew : Bool
  seekKey : Option Bytes
  startKey : Option Bytes
  limitKey : Option Bytes

namespace Iterator

/-- `Mutable.Iterator` and `Immutable.Iterator`. -/
def new (startKey limitKey : Option Bytes) : Iterator :=
  { node := none, parents := [], isNew := true, seekKey := none, startKey, limitKey }

/-- The two comparisons of `limitIterator`. -/
def inRange (it : Iterator) (key : Bytes) : Bool :=
  it.startKey.all (fun start => decide (start ≤ key)) && it.limitKey.all fun limit => decide (key < limit)

def limitIterator (it : Iterator) : Iterator := { it with node := it.node.filter it.inRange }

/-- The descent of `seek`: the node it selects, with the parents of that node. -/
def seekFrom (key : Bytes) (exactMatch greater : Bool) :
    TreapNode → List Bytes → Option (Bytes × List Bytes) → Option (Bytes × List Bytes)
  | .nil, _, selected => selected
  | .node k _ _ l r, parents, selected =>
    if key < k then
      seekFrom key exactMatch greater l (k :: parents) (if greater then some (k, parents) else selected)
    else if k < key then
      seekFrom key exactMatch greater r (k :: parents) (if greater then selected else some (k, parents))
    else if exactMatch then some (k, parents)
    else if greater then seekFrom key exactMatch greater r (k :: parents) selected
    else seekFrom key exactMatch greater l (k :: parents) selected

def seek (root : TreapNode) (key : Bytes) (exactMatch greater : Bool) (it : Iterator) : Iterator :=
  match seekFrom key exactMatch greater root [] none with
  | none => { it with node := none, parents := [] }
  | some (k, parents) => limitIterator { it with node := some k, parents }

/-- Down the left side of a subtree, from a node that is already there. -/
def descend : TreapNode → Bytes → List Bytes → Bytes × List Bytes
  | .nil, k, parents => (k, parents)
  | .node k' _ _ l _, k, parents => descend l k' (k :: parents)

def first (root : TreapNode) (it : Iterator) : Iterator :=
  match it.startKey with
  | some start => seek root start true true { it with isNew := false }
  | none =>
    match root with
    -- The node stays where it was.
    | .nil => { it with isNew := false, parents := [] }
    | .node k _ _ l _ =>
      let (node, parents) := descend l k []
      { it with isNew := false, node := some node, parents }

/-- Up the parents, as long as the parent's right node is the one come from. -/
def climb (root : TreapNode) : Bytes → List Bytes → Option Bytes × List Bytes
  | _, [] => (none, [])
  | node, parent :: parents =>
    if (root.nodeAt parent).right.rootKey? = some node then climb root parent parents
    else (some parent, parents)

def next (root : TreapNode) (it : Iterator) : Iterator :=
  if it.isNew then it.first root
  else match it.node with
  | none => it
  | some node =>
    match it.seekKey with
    | some key => seek root key false true { it with seekKey := none }
    | none =>
      match (root.nodeAt node).right with
      | .nil =>
        let (node, parents) := climb root node it.parents
        limitIterator { it with node, parents }
      | .node k _ _ l _ =>
        let (node, parents) := descend l k (node :: it.parents)
        limitIterator { it with node := some node, parents }

/-- Down the right side of a subtree, from a node that is already there. -/
def descendRight : TreapNode → Bytes → List Bytes → Bytes × List Bytes
  | .nil, k, parents => (k, parents)
  | .node k' _ _ _ r, k, parents => descendRight r k' (k :: parents)

def last (root : TreapNode) (it : Iterator) : Iterator :=
  match it.limitKey with
  | some limit => seek root limit false false { it with isNew := false }
  | none =>
    match root with
    -- The node stays where it was.
    | .nil => { it with isNew := false, parents := [] }
    | .node k _ _ _ r =>
      let (node, parents) := descendRight r k []
      { it with isNew := false, node := some node, parents }

/-- Up the parents, as long as the parent's left node is the one come from. -/
def climbLeft (root : TreapNode) : Bytes → List Bytes → Option Bytes × List Bytes
  | _, [] => (none, [])
  | node, parent :: parents =>
    if (root.nodeAt parent).left.rootKey? = some node then climbLeft root parent parents
    else (some parent, parents)

def prev (root : TreapNode) (it : Iterator) : Iterator :=
  if it.isNew then it.last root
  else match it.node with
  | none => it
  | some node =>
    match it.seekKey with
    | some key => seek root key false false { it with seekKey := none }
    | none =>
      match (root.nodeAt node).left with
      | .nil =>
        let (node, parents) := climbLeft root node it.parents
        limitIterator { it with node, parents }
      | .node k _ _ _ r =>
        let (node, parents) := descendRight r k (node :: it.parents)
        limitIterator { it with node := some node, parents }

/-- `Seek`. -/
def seekTo (root : TreapNode) (key : Bytes) (it : Iterator) : Iterator :=
  seek root key true true { it with isNew := false }

def valid (it : Iterator) : Bool := it.node.isSome
def key (it : Iterator) : Option Bytes := it.node
def value (root : TreapNode) (it : Iterator) : Option Bytes := it.node.bind fun k => root.find? k

/-- What `First` returns. -/
def firstOk (root : TreapNode) (it : Iterator) : Bool :=
  match it.startKey with
  | some _ => (it.first root).valid
  | none => root.rootKey?.isSome

/-- What `Last` returns. -/
def lastOk (root : TreapNode) (it : Iterator) : Bool :=
  match it.limitKey with
  | some _ => (it.last root).valid
  | none => root.rootKey?.isSome

/-- What `Next` returns. -/
def nextOk (root : TreapNode) (it : Iterator) : Bool :=
  if it.isNew then it.firstOk root else (it.next root).valid

/-- What `Prev` returns. -/
def prevOk (root : TreapNode) (it : Iterator) : Bool :=
  if it.isNew then it.lastOk root else (it.prev root).valid

/-- `ForceReseek`, for an iterator over a mutable treap. -/
def forceReseek (it : Iterator) : Iterator := { it with seekKey := it.node }

variable {k key : Bytes}

/-! ## An iterator that is not told of deletions -/

/-- The iterator has been positioned, within its limits, and nothing tells it to seek again. -/
structure Unaware (it : Iterator) : Prop where
  isNew : it.isNew = false
  seekKey : it.seekKey = none
  inRange : ∀ node ∈ it.node, it.inRange node = true

variable {it : Iterator} {node : Bytes}

/-- Whatever node it is put on, `limitIterator` leaves it within the limits. -/
theorem unaware_limitIterator (hnew : it.isNew = false) (hseek : it.seekKey = none) : it.limitIterator.Unaware :=
  ⟨hnew, hseek, fun _ hnode => (Option.filter_eq_some_iff.mp hnode).2⟩

/-- The nodes the iterator has still to stand on if each is deleted while it stands there: its
node, and the parents up to the first that is out of range. -/
def visits (it : Iterator) : List Bytes :=
  match it.node with
  | none => []
  | some node => (node :: it.parents).takeWhile it.inRange

theorem visits_none (h : it.node = none) : it.visits = [] := by
  simp only [visits, h]

theorem visits_some (h : it.node = some node) : it.visits = (node :: it.parents).takeWhile it.inRange := by
  simp only [visits, h]

theorem visits_limitIterator (it : Iterator) : it.limitIterator.visits = it.visits := by
  cases hnode : it.node with
  | none => rw [visits_none hnode, visits_none (by simp [limitIterator, hnode])]
  | some node =>
    rw [visits_some hnode]
    cases hin : it.inRange node with
    | true =>
      have hkept : it.limitIterator.node = some node := by simp [limitIterator, hnode, hin]
      rw [visits_some hkept]
      rfl
    | false =>
      rw [visits_none (by simp [limitIterator, hnode, hin]), takeWhile_cons_of_neg (by simp [hin])]

theorem inRange_of_mem_visits (h : k ∈ it.visits) : it.inRange k = true := by
  unfold visits at h
  split at h
  · cases h
  · exact mem_takeWhile_imp h

/-- After the node has been deleted, `next` goes to the parent. -/
theorem next_of_deleted {root : TreapNode} (hu : it.Unaware) (hnode : it.node = some node) (hdel : node ∉ root.keys) :
    it.next root =
      limitIterator { it with node := it.parents.head?, parents := it.parents.tail } := by
  unfold next
  rw [if_neg (by simp [hu.isNew]), hnode]
  simp only [hu.seekKey, SearchTree.nodeAt_of_notMem hdel, SearchTree.right]
  cases hps : it.parents with
  | nil => rfl
  | cons parent parents =>
    have hne : (root.nodeAt parent).right.rootKey? ≠ some node := fun h =>
      hdel (SearchTree.rootKey?_right_mem h)
    rw [climb, if_neg hne]
    rfl

theorem visits_next {root : TreapNode} (hu : it.Unaware) (hnode : it.node = some node) (hdel : node ∉ root.keys) :
    it.visits = node :: (it.next root).visits := by
  rw [next_of_deleted hu hnode hdel, visits_limitIterator, visits_some hnode,
    takeWhile_cons_of_pos (hu.inRange node hnode)]
  cases hps : it.parents with
  | nil => rfl
  | cons parent parents => rfl

theorem Unaware.next {root : TreapNode} (hu : it.Unaware)
    (hnode : it.node = some node) (hdel : node ∉ root.keys) : (it.next root).Unaware := by
  rw [next_of_deleted hu hnode hdel]
  exact unaware_limitIterator hu.isNew hu.seekKey

theorem inRange_new {start : Bytes} {limit : Option Bytes} : (new (some start) limit).inRange key = true ↔ start ≤ key ∧ ∀ l ∈ limit, key < l := by
  cases limit <;> simp [inRange, new]

end Iterator
end NogoCommons.Treap
