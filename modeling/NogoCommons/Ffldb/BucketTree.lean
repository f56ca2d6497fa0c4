import NogoCommons.Ffldb.BlockIO

/-!
# What buckets are for

A bucket is a map of its own, and it has named buckets in it. That is a tree of maps, and this is such a
tree, without IDs and without a key space that the buckets share: there is a map for every path at which
there is a bucket (`BucketTree`).

The calls are those of the interface `database.Bucket` that a writable transaction allows. They are made on
handles. A handle is what one of the calls that open a bucket has returned, and it is dead once its bucket
has been deleted, even if there is a bucket of the same name again (`Reference`). On a dead handle nothing is
asked for.
-/

namespace NogoCommons.Ffldb
open Lib List SortedMap

/-! ## Calls -/

/-- The calls of a bucket. Those that put a key have the priorities its node may get; a callback answers the
error it returns, and a nil slice is none. -/
inductive BucketCall (ε : Type) where
  | bucket (key : Bytes)
  | createBucket (key : Bytes) (priority priority' : Nat)
  | createBucketIfNotExists (key : Bytes) (priority priority' : Nat)
  | deleteBucket (key : Bytes)
  | put (key value : Bytes) (priority : Nat)
  | get (key : Bytes)
  | delete (key : Bytes)
  | forEach (fn : Option Bytes × Option Bytes → Option ε)
  | forEachBucket (fn : Option Bytes → Option ε)

/-- A call on the bucket of a handle. -/
structure BucketOp (ε : Type) where
  handle : Nat
  call : BucketCall ε

/-- What is returned; of a callback, what it was called with too. -/
inductive BucketAnswer (ε : Type) where
  | done
  | failed (e : Failure)
  | opened (handle : Nat)
  | noBucket
  | value (v : Option Bytes)
  | called (calls : List (Option Bytes × Option Bytes)) (err : Option ε)
  | calledNames (calls : List (Option Bytes)) (err : Option ε)
deriving DecidableEq

/-- The calls of a callback that is called until it returns an error, and that error. -/
def callEach {α ε : Type} (fn : α → Option ε) : List α → List α × Option ε
  | [] => ([], none)
  | a :: as =>
    match fn a with
    | some e => ([a], some e)
    | none =>
      let (calls, err) := callEach fn as
      (a :: calls, err)

/-- A callback that looks at a part of its arguments is called with the parts. -/
theorem callEach_map {α β ε : Type} {f : α → β} {g : β → α} (hg : ∀ a, g (f a) = a) (fn : α → Option ε) (as : List α) :
    ((callEach (fun b => fn (g b)) (as.map f)).1.map g, (callEach (fun b => fn (g b)) (as.map f)).2) =
      callEach fn as := by
  induction as with
  | nil => rfl
  | cons a as ih =>
    rw [map_cons, callEach, callEach, hg]
    cases fn a with
    | some e => simp [hg]
    | none =>
      simp only [← ih, map_cons, hg]

/-! ## The tree -/

/-- The names on the way from the top. -/
abbrev Path := List Bytes

/-- The buckets by their paths. There is one at the top, and a bucket is in a bucket. -/
structure BucketTree where
  buckets : SortedMap Path (SortedMap Bytes Bytes)
  root : buckets.has [] = true
  closed : ∀ p n, buckets.has (p ++ [n]) = true → buckets.has p = true

/-- What two lists begin with does not decide between them. -/
theorem append_lt_append_left {α : Type} [LinearOrder α] (p : List α) {a b : List α} : p ++ a < p ++ b ↔ a < b := by
  induction p with
  | nil => rfl
  | cons x p ih => simp [ih]

namespace BucketTree

def has (T : BucketTree) (p : Path) : Bool := T.buckets.has p
def get? (T : BucketTree) (p : Path) : Option (SortedMap Bytes Bytes) := T.buckets.get? p
theorem has_eq (T : BucketTree) (p : Path) : T.has p = (T.get? p).isSome := rfl

/-- The name of a bucket in another one. -/
def childName (p q : Path) : Option Bytes := if q.dropLast = p then q.getLast? else none

/-- The names of the buckets in a bucket. -/
def names (T : BucketTree) (p : Path) : List Bytes := T.buckets.entries.filterMap fun e => childName p e.1

/-- A bucket is given this map, a new bucket if there is none yet. -/
def set (T : BucketTree) (p : Path) (m : SortedMap Bytes Bytes) : BucketTree :=
  if h : T.has p.dropLast = true then
    { buckets := T.buckets.insert p m
      root := by
        rw [SortedMap.has, get?_insert]
        split_ifs
        · rfl
        · exact T.root
      closed := by
        intro q n hq
        rw [SortedMap.has, get?_insert] at hq ⊢
        by_cases hpq : q = p
        · rw [if_pos hpq]
          rfl
        · rw [if_neg hpq]
          by_cases hqn : q ++ [n] = p
          · rwa [← hqn, dropLast_concat] at h
          · rw [if_neg hqn] at hq
            exact T.closed q n hq }
  else T

/-- A bucket is removed, with all that is nested in it. -/
def remove (T : BucketTree) (p : Path) : BucketTree :=
  if h : p = [] then T
  else
    { buckets := T.buckets.filter fun q => !p.isPrefixOf q
      root := by
        rw [SortedMap.has, get?_filter, if_pos]
        · exact T.root
        · cases p with
          | nil => exact absurd rfl h
          | cons n p => rfl
      closed := by
        intro q n hq
        rw [SortedMap.has, get?_filter] at hq ⊢
        split_ifs at hq with hn
        · rw [if_pos]
          · exact T.closed q n hq
          · simp only [Bool.not_eq_true', Bool.eq_false_iff, ne_eq, isPrefixOf_iff_prefix] at hn ⊢
            exact fun hp => hn (hp.trans (prefix_append q [n]))
        · cases hq }

variable {T : BucketTree} {p q : Path}

theorem has_dropLast (h : T.has p = true) : T.has p.dropLast = true := by
  rcases eq_nil_or_concat' p with rfl | ⟨q, n, rfl⟩
  · exact T.root
  · rw [dropLast_concat]
    exact T.closed q n h

theorem get?_set (m : SortedMap Bytes Bytes) (h : T.has p.dropLast = true) :
    (T.set p m).get? q = if q = p then some m else T.get? q := by
  rw [get?, set, dif_pos h]
  rw [get?_insert]
  split_ifs <;> rfl

theorem get?_remove (h : p ≠ []) : (T.remove p).get? q = if p <+: q then none else T.get? q := by
  rw [get?, remove, dif_neg h]
  rw [get?_filter]
  by_cases hp : p <+: q
  · rw [if_pos hp, if_neg (by simpa using hp)]
  · rw [if_neg hp, if_pos (by simpa [Bool.eq_false_iff] using hp)]
    rfl

theorem childName_eq_some {n : Bytes} : childName p q = some n ↔ q = p ++ [n] := by
  rw [childName]
  rcases eq_nil_or_concat' q with rfl | ⟨q, n', rfl⟩
  · simp
  · rw [dropLast_concat, getLast?_concat]
    by_cases hqp : q = p
    · simp [hqp]
    · rw [if_neg hqp]
      simp [hqp]

theorem mem_names {n : Bytes} : n ∈ T.names p ↔ T.has (p ++ [n]) = true := by
  rw [names, mem_filterMap, has, has_iff]
  constructor
  · rintro ⟨⟨q, m⟩, hmem, hname⟩
    obtain rfl := childName_eq_some.mp hname
    exact ⟨m, hmem⟩
  · rintro ⟨m, hmem⟩
    exact ⟨(p ++ [n], m), hmem, childName_eq_some.mpr rfl⟩

theorem sorted_names : (T.names p).Pairwise (· < ·) := by
  rw [names, pairwise_filterMap]
  refine T.buckets.sorted.imp fun {e e'} hlt n hn n' hn' => ?_
  rw [childName_eq_some.mp hn, childName_eq_some.mp hn', append_lt_append_left, cons_lt_cons_iff] at hlt
  rcases hlt with hlt | ⟨-, hlt⟩
  · exact hlt
  · exact absurd hlt (lt_irrefl _)

end BucketTree

/-! ## The calls on the tree -/

/-- A tree, with the handles of its buckets. -/
structure Reference where
  tree : BucketTree
  handles : List (Option Path)

namespace Reference
variable {ε : Type} (w : Reference)

/-- A handle for the bucket at a path. -/
def openAt (p : Path) : BucketAnswer ε × Reference :=
  (.opened w.handles.length, { w with handles := w.handles ++ [some p] })

def bucket (p : Path) (key : Bytes) : BucketAnswer ε × Reference :=
  if w.tree.has (p ++ [key]) then w.openAt (p ++ [key]) else (.noBucket, w)

def createBucket (p : Path) (key : Bytes) : BucketAnswer ε × Reference :=
  if key = [] then (.failed (.err .bucketNameRequired), w)
  else if w.tree.has (p ++ [key]) then (.failed (.err .bucketExists), w)
  else { w with tree := w.tree.set (p ++ [key]) .empty : Reference }.openAt (p ++ [key])

/-- The handles of what is deleted are dead. -/
def deleteBucket (p : Path) (key : Bytes) : BucketAnswer ε × Reference :=
  if w.tree.has (p ++ [key]) then
    (.done, ⟨w.tree.remove (p ++ [key]), w.handles.map fun h => h.filter fun q => !(p ++ [key]).isPrefixOf q⟩)
  else (.failed (.err .bucketNotFound), w)

def put (p : Path) (m : SortedMap Bytes Bytes) (key value : Bytes) : BucketAnswer ε × Reference :=
  if key = [] then (.failed (.err .keyRequired), w)
  else (.done, { w with tree := w.tree.set p (m.insert key value) })

def delete (p : Path) (m : SortedMap Bytes Bytes) (key : Bytes) : BucketAnswer ε × Reference :=
  if key = [] then (.done, w) else (.done, { w with tree := w.tree.set p (m.erase key) })

/-- A call on the bucket at a path, which has this map. -/
def call (p : Path) (m : SortedMap Bytes Bytes) : BucketCall ε → BucketAnswer ε × Reference
  | .bucket key => w.bucket p key
  | .createBucket key _ _ => w.createBucket p key
  | .createBucketIfNotExists key _ _ =>
    if w.tree.has (p ++ [key]) then w.openAt (p ++ [key]) else w.createBucket p key
  | .deleteBucket key => w.deleteBucket p key
  | .put key value _ => w.put p m key value
  | .get key => (.value (if key = [] then none else m.get? key), w)
  | .delete key => w.delete p m key
  | .forEach fn =>
    let (calls, err) := callEach fn (m.entries.map fun e => (some e.1, some e.2))
    (.called calls err, w)
  | .forEachBucket fn =>
    let (calls, err) := callEach fn ((w.tree.names p).map some)
    (.calledNames calls err, w)

/-- A call on a handle, if it is not dead. -/
def step (w : Reference) (op : BucketOp ε) : Option (BucketAnswer ε × Reference) := do
  let p ← (w.handles[op.handle]?).join
  let m ← w.tree.get? p
  return w.call p m op.call

end Reference
end NogoCommons.Ffldb
