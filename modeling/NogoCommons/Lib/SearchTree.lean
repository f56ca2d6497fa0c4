import NogoCommons.Lib.SortedMap

/-!
# Search trees

A binary search tree with a priority in every node, as a treap has it. What a tree means is its
in-order list of entries, and it is ordered if that list is: a rotation is then no more than a
regrouping of a list, and `toMap` takes every ordered tree to the map it stands for.

Nothing here needs the priorities to be in heap order. They only choose the shape.

A place in the tree is named by the key of its node. `nodeAt` finds the subtree at a key, and
answers `nil` for a key that is not in the tree.
-/

namespace NogoCommons.Lib
open List

inductive SearchTree (K V P : Type) where
  | nil
  | node (key : K) (value : V) (priority : P) (left right : SearchTree K V P)

namespace SearchTree
variable {K V P : Type}

def entries : SearchTree K V P → List (K × V)
  | nil => []
  | node k v _ l r => l.entries ++ (k, v) :: r.entries

def keys (t : SearchTree K V P) : List K := t.entries.map Prod.fst

def rootKey? : SearchTree K V P → Option K
  | nil => none
  | node k _ _ _ _ => some k

def rootValue? : SearchTree K V P → Option V
  | nil => none
  | node _ v _ _ _ => some v

def left : SearchTree K V P → SearchTree K V P
  | nil => nil
  | node _ _ _ l _ => l

def right : SearchTree K V P → SearchTree K V P
  | nil => nil
  | node _ _ _ _ r => r

@[simp] theorem keys_nil : (nil : SearchTree K V P).keys = [] := rfl

@[simp] theorem keys_node (k : K) (v : V) (p : P) (l r : SearchTree K V P) :
    (node k v p l r).keys = l.keys ++ k :: r.keys := by
  simp [keys, entries]

variable {t : SearchTree K V P}

theorem keys_eq_nil : t.keys = [] ↔ t = nil := by
  cases t <;> simp

theorem mem_keys {k : K} : k ∈ t.keys ↔ ∃ v, (k, v) ∈ t.entries := by
  simp [keys]

/-! ## Rotations -/

/-- A node between two subtrees, rotated under its left child if that one is `fresh` and its
priority is the smaller. -/
def rotateRight [LT P] [DecidableLT P] (fresh : K → Bool) (k : K) (v : V) (p : P) :
    SearchTree K V P → SearchTree K V P → SearchTree K V P
  | nil, r => node k v p nil r
  | node k' v' p' l' r', r =>
    if fresh k' ∧ p' < p then node k' v' p' l' (node k v p r' r)
    else node k v p (node k' v' p' l' r') r

/-- The mirror image of `rotateRight`. -/
def rotateLeft [LT P] [DecidableLT P] (fresh : K → Bool) (k : K) (v : V) (p : P) (l : SearchTree K V P) :
    SearchTree K V P → SearchTree K V P
  | nil => node k v p l nil
  | node k' v' p' l' r' =>
    if fresh k' ∧ p' < p then node k' v' p' (node k v p l l') r'
    else node k v p l (node k' v' p' l' r')

/-- What the subtrees of a node become when the node is rotated down to a leaf, each time under the
child of the higher priority, and then cut off. -/
def sink [LE P] [DecidableLE P] : SearchTree K V P → SearchTree K V P → SearchTree K V P
  | nil, nil => nil
  | nil, node k v p l r => node k v p (sink nil l) r
  | node k v p l r, nil => node k v p l (sink r nil)
  | node lk lv lp ll lr, node rk rv rp rl rr =>
    if rp ≤ lp then node lk lv lp ll (sink lr (node rk rv rp rl rr))
    else node rk rv rp (sink (node lk lv lp ll lr) rl) rr
termination_by l r => sizeOf l + sizeOf r

section Rotations
variable [LT P] [DecidableLT P] (fresh : K → Bool) (k : K) (v : V) (p : P)

@[simp] theorem entries_rotateRight (l r : SearchTree K V P) :
    (rotateRight fresh k v p l r).entries = l.entries ++ (k, v) :: r.entries := by
  cases l with
  | nil => rfl
  | node k' v' p' l' r' =>
    rw [rotateRight]
    split_ifs <;> simp [entries]

@[simp] theorem entries_rotateLeft (l r : SearchTree K V P) :
    (rotateLeft fresh k v p l r).entries = l.entries ++ (k, v) :: r.entries := by
  cases r with
  | nil => rfl
  | node k' v' p' l' r' =>
    rw [rotateLeft]
    split_ifs <;> simp [entries]

end Rotations

@[simp] theorem entries_sink [LE P] [DecidableLE P] (l r : SearchTree K V P) :
    (sink l r).entries = l.entries ++ r.entries := by
  induction l, r using sink.induct with
  | case1 => simp [sink, entries]
  | case2 k v p l r ih => simp [sink, entries, ih]
  | case3 k v p l r ih => simp [sink, entries, ih]
  | case4 lk lv lp ll lr rk rv rp rl rr hle ih =>
    rw [sink, if_pos hle]
    simp [entries, ih]
  | case5 lk lv lp ll lr rk rv rp rl rr hle ih =>
    rw [sink, if_neg hle]
    simp [entries, ih]

/-! ## Search -/

variable [LinearOrder K]

/-- The subtree at a key. -/
def nodeAt (key : K) : SearchTree K V P → SearchTree K V P
  | nil => nil
  | node k v p l r =>
    if key < k then nodeAt key l
    else if k < key then nodeAt key r
    else node k v p l r

def find? (key : K) (t : SearchTree K V P) : Option V := (t.nodeAt key).rootValue?
def has (key : K) (t : SearchTree K V P) : Bool := (t.find? key).isSome
def Ordered (t : SearchTree K V P) : Prop := t.entries.Pairwise fun a b => a.1 < b.1
def toMap (t : SearchTree K V P) (h : t.Ordered) : SortedMap K V := ⟨t.entries, h⟩
theorem ordered_nil : (nil : SearchTree K V P).Ordered := Pairwise.nil

theorem ordered_node {k : K} {v : V} {p : P} {l r : SearchTree K V P} :
    (node k v p l r).Ordered ↔ (∀ e ∈ l.entries, e.1 < k) ∧ (∀ e ∈ r.entries, k < e.1) ∧
      l.Ordered ∧ r.Ordered := by
  unfold Ordered
  rw [entries, pairwise_append, pairwise_cons]
  constructor
  · rintro ⟨hl, ⟨hkr, hr⟩, hcross⟩
    exact ⟨fun e he => hcross e he (k, v) mem_cons_self, hkr, hl, hr⟩
  · rintro ⟨hlk, hkr, hl, hr⟩
    refine ⟨hl, ⟨hkr, hr⟩, fun a ha b hb => ?_⟩
    rcases mem_cons.mp hb with rfl | hb
    · exact hlk a ha
    · exact (hlk a ha).trans (hkr b hb)

variable {key : K}

/-- Searching is looking the key up in the list. -/
theorem find?_eq_some (h : t.Ordered) {value : V} : t.find? key = some value ↔ (key, value) ∈ t.entries := by
  induction t with
  | nil => simp [find?, nodeAt, rootValue?, entries]
  | node k v p l r ihl ihr =>
    obtain ⟨hlk, hkr, hl, hr⟩ := ordered_node.mp h
    have notLeft : k ≤ key → (key, value) ∉ l.entries := fun hle hmem =>
      (hlk _ hmem).not_ge hle
    have notRight : key ≤ k → (key, value) ∉ r.entries := fun hle hmem =>
      (hkr _ hmem).not_ge hle
    simp only [find?, nodeAt, entries, mem_append, mem_cons, Prod.mk.injEq]
    split_ifs with hlt hgt
    · rw [← find?, ihl hl]
      simp [notRight hlt.le, hlt.ne]
    · rw [← find?, ihr hr]
      simp [notLeft hgt.le, hgt.ne']
    · obtain rfl : key = k := le_antisymm (not_lt.mp hgt) (not_lt.mp hlt)
      simp [notLeft le_rfl, notRight le_rfl, rootValue?, eq_comm]

theorem get?_toMap (h : t.Ordered) (key : K) : (t.toMap h).get? key = t.find? key := by
  ext value
  rw [SortedMap.get?_eq_some, find?_eq_some h]
  rfl

theorem has_iff (h : t.Ordered) : t.has key = true ↔ key ∈ t.keys := by
  simp only [has, Option.isSome_iff_exists, find?_eq_some h, mem_keys]

/-- A key that is not in the tree has no node, whatever the order. -/
theorem nodeAt_of_notMem (h : key ∉ t.keys) : t.nodeAt key = nil := by
  induction t with
  | nil => rfl
  | node k v p l r ihl ihr =>
    rw [keys_node, mem_append, mem_cons] at h
    rw [nodeAt]
    split_ifs with hlt hgt
    · exact ihl fun hmem => h (.inl hmem)
    · exact ihr fun hmem => h (.inr (.inr hmem))
    · exact absurd (.inr (.inl (le_antisymm (not_lt.mp hgt) (not_lt.mp hlt)))) h

/-- What stands under a node is in the tree. -/
theorem keys_nodeAt_subset (key : K) (t : SearchTree K V P) : (t.nodeAt key).keys ⊆ t.keys := by
  induction t with
  | nil => exact Subset.refl _
  | node k v p l r ihl ihr =>
    rw [nodeAt, keys_node]
    split_ifs
    · exact fun x hx => mem_append_left _ (ihl hx)
    · exact fun x hx => mem_append_right _ (mem_cons_of_mem _ (ihr hx))
    · rw [keys_node]
      exact Subset.refl _

theorem rootKey?_right_mem {k : K} (h : (t.nodeAt key).right.rootKey? = some k) : k ∈ t.keys := by
  refine keys_nodeAt_subset key t ?_
  cases hn : t.nodeAt key with
  | nil => simp [hn, right, rootKey?] at h
  | node k' v' p' l' r' =>
    cases r' with
    | nil => simp [hn, right, rootKey?] at h
    | node =>
      obtain rfl : _ = k := by simpa [hn, right, rootKey?] using h
      simp

/-! ## Updates -/

/-- A key put at its place with this value. The node of a key that was not there yet gets the
priority and is rotated up while its parent's priority is the greater. -/
def put [LT P] [DecidableLT P] (key : K) (value : V) (priority : P) (fresh : Bool) : SearchTree K V P → SearchTree K V P
  | nil => node key value priority nil nil
  | node k v p l r =>
    if key < k then rotateRight (fun k' => fresh && k' == key) k v p (put key value priority fresh l) r
    else if k < key then rotateLeft (fun k' => fresh && k' == key) k v p l (put key value priority fresh r)
    else node k value p l r

def delete [LE P] [DecidableLE P] (key : K) : SearchTree K V P → SearchTree K V P
  | nil => nil
  | node k v p l r =>
    if key < k then node k v p (delete key l) r
    else if k < key then node k v p l (delete key r)
    else sink l r

theorem filter_lt_entries (h : ∀ e ∈ t.entries, e.1 < key) :
    t.entries.filter (·.1 < key) = t.entries ∧ t.entries.filter (key < ·.1) = [] := by
  constructor
  · exact filter_eq_self.mpr fun e he => by simpa using h e he
  · exact filter_eq_nil_iff.mpr fun e he => by simpa using (h e he).le

theorem filter_gt_entries (h : ∀ e ∈ t.entries, key < e.1) :
    t.entries.filter (·.1 < key) = [] ∧ t.entries.filter (key < ·.1) = t.entries := by
  constructor
  · exact filter_eq_nil_iff.mpr fun e he => by simpa using (h e he).le
  · exact filter_eq_self.mpr fun e he => by simpa using h e he

variable (h : t.Ordered)
include h

theorem entries_put [LT P] [DecidableLT P] {value : V} {priority : P} {fresh : Bool} :
    (t.put key value priority fresh).entries =
      t.entries.filter (·.1 < key) ++ (key, value) :: t.entries.filter (key < ·.1) := by
  induction t with
  | nil => rfl
  | node k v p l r ihl ihr =>
    obtain ⟨hlk, hkr, hl, hr⟩ := ordered_node.mp h
    rw [put]
    split_ifs with hlt hgt
    · have hright := filter_gt_entries fun e he => hlt.trans (hkr e he)
      simp [entries, ihl hl, hright, hlt, hlt.not_gt]
    · have hleft := filter_lt_entries fun e he => (hlk e he).trans hgt
      simp [entries, ihr hr, hleft, hgt, hgt.not_gt]
    · obtain rfl : key = k := le_antisymm (not_lt.mp hgt) (not_lt.mp hlt)
      simp [entries, filter_lt_entries hlk, filter_gt_entries hkr]

theorem entries_delete [LE P] [DecidableLE P] : (t.delete key).entries = t.entries.filter (·.1 ≠ key) := by
  induction t with
  | nil => rfl
  | node k v p l r ihl ihr =>
    obtain ⟨hlk, hkr, hl, hr⟩ := ordered_node.mp h
    have keep : ∀ {s : SearchTree K V P}, (∀ e ∈ s.entries, e.1 ≠ key) →
        s.entries.filter (·.1 ≠ key) = s.entries := fun hs =>
      filter_eq_self.mpr fun e he => by simpa using hs e he
    rw [delete]
    split_ifs with hlt hgt
    · rw [entries, entries, ihl hl, filter_append, filter_cons_of_pos (by simpa using hlt.ne'),
        keep fun e he => (hlt.trans (hkr e he)).ne']
    · rw [entries, entries, ihr hr, filter_append, filter_cons_of_pos (by simpa using hgt.ne),
        keep fun e he => ((hlk e he).trans hgt).ne]
    · obtain rfl : key = k := le_antisymm (not_lt.mp hgt) (not_lt.mp hlt)
      rw [entries_sink, entries, filter_append, filter_cons_of_neg (by simp),
        keep fun e he => (hlk e he).ne, keep fun e he => (hkr e he).ne']

theorem Ordered.put [LT P] [DecidableLT P] (key : K) (value : V) (priority : P) (fresh : Bool) :
    (t.put key value priority fresh).Ordered := by
  unfold Ordered
  rw [entries_put h]
  exact ((t.toMap h).insert key value).sorted

theorem Ordered.delete [LE P] [DecidableLE P] (key : K) : (t.delete key).Ordered := by
  unfold Ordered
  rw [entries_delete h]
  exact h.filter _

theorem toMap_put [LT P] [DecidableLT P] (key : K) (value : V) (priority : P) (fresh : Bool) :
    (t.put key value priority fresh).toMap (h.put key value priority fresh) =
      (t.toMap h).insert key value :=
  SortedMap.ext (entries_put h)

theorem toMap_delete [LE P] [DecidableLE P] (key : K) : (t.delete key).toMap (h.delete key) = (t.toMap h).erase key :=
  SortedMap.ext (entries_delete h)

end SearchTree
end NogoCommons.Lib
