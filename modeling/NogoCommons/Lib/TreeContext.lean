import NogoCommons.Lib.SearchTree

/-!
# A place in a search tree, with what is around it

A loop that walks down a tree with a stack of parents has the tree in two parts: the subtree it
has come to, and the nodes above it, each with the subtree on its other side. The nodes above are
a list of frames, the nearest first, and `plug` puts the two parts together again.

The recursive updates of `SearchTree` are all of the form "go down to the key, and rebuild on the
way up". For a way down that leads to the key, `nodeAt_plug`, `put_plug` and `delete_plug` say what
they do at its end; the rebuilding of `put` is `rise`, one possible rotation for every frame.
-/

namespace NogoCommons.Lib
open List

/-- A node with a hole in the place of one of its subtrees. -/
inductive Frame (K V P : Type) where
  | left (key : K) (value : V) (priority : P) (right : SearchTree K V P)
  | right (key : K) (value : V) (priority : P) (left : SearchTree K V P)

namespace Frame
variable {K V P : Type}

def key : Frame K V P → K
  | left k _ _ _ => k
  | right k _ _ _ => k

def value : Frame K V P → V
  | left _ v _ _ => v
  | right _ v _ _ => v

def priority : Frame K V P → P
  | left _ _ p _ => p
  | right _ _ p _ => p

def sibling : Frame K V P → SearchTree K V P
  | left _ _ _ r => r
  | right _ _ _ l => l

def plug : Frame K V P → SearchTree K V P → SearchTree K V P
  | left k v p r, t => .node k v p t r
  | right k v p l, t => .node k v p l t

/-- The node under another one that was in its hole: a rotation. -/
def beneath : Frame K V P → K → V → P → SearchTree K V P → SearchTree K V P → SearchTree K V P
  | left k v p r, k', v', p', l', r' => .node k' v' p' l' (.node k v p r' r)
  | right k v p l, k', v', p', l', r' => .node k' v' p' (.node k v p l l') r'

/-- After a rotation, the other way round: the frame of the node that has come out on top. -/
def flip : Frame K V P → K → V → P → SearchTree K V P → SearchTree K V P → Frame K V P
  | left .., k', v', p', l', _ => right k' v' p' l'
  | right .., k', v', p', _, r' => left k' v' p' r'

/-- The subtree that changes sides in a rotation. -/
def inner : Frame K V P → SearchTree K V P → SearchTree K V P → SearchTree K V P
  | left .., _, r' => r'
  | right .., l', _ => l'

theorem beneath_eq (f : Frame K V P) (k : K) (v : V) (p : P) (l r : SearchTree K V P) :
    f.beneath k v p l r = (f.flip k v p l r).plug (f.plug (f.inner l r)) := by
  cases f <;> rfl

/-- The node with this subtree, rotated under it if its root is `fresh` and of a smaller
priority. -/
def rotate [LT P] [DecidableLT P] (fresh : K → Bool) : Frame K V P → SearchTree K V P → SearchTree K V P
  | left k v p r, t => .rotateRight fresh k v p t r
  | right k v p l, t => .rotateLeft fresh k v p l t

/-- The search for this key goes through the hole. -/
def Leads [LT K] (key : K) : Frame K V P → Prop
  | left k _ _ _ => key < k
  | right k _ _ _ => k < key

variable {f : Frame K V P}

theorem Leads.ne [Preorder K] {key : K} (h : f.Leads key) : f.key ≠ key := by
  cases f with
  | left => exact ne_of_gt h
  | right => exact ne_of_lt h

/-- A tree is left where it is if its root is not `fresh`. -/
theorem rotate_of_not_fresh [LT P] [DecidableLT P] {fresh : K → Bool} {t : SearchTree K V P}
    (h : ∀ k ∈ t.rootKey?, fresh k = false) : f.rotate fresh t = f.plug t := by
  cases f with
  | left k v p r =>
    cases t with
    | nil => rfl
    | node k' v' p' l' r' =>
      have hk : fresh k' = false := h k' rfl
      simp [rotate, SearchTree.rotateRight, plug, hk]
  | right k v p l =>
    cases t with
    | nil => rfl
    | node k' v' p' l' r' =>
      have hk : fresh k' = false := h k' rfl
      simp [rotate, SearchTree.rotateLeft, plug, hk]

theorem rotate_node [LT P] [DecidableLT P] {fresh : K → Bool} {k : K} {v : V} {p : P} {l r : SearchTree K V P}
    (hk : fresh k = true) :
    f.rotate fresh (.node k v p l r) =
      if p < f.priority then f.beneath k v p l r else f.plug (.node k v p l r) := by
  split_ifs with hlt
  · cases f with
    | left => exact if_pos ⟨hk, hlt⟩
    | right => exact if_pos ⟨hk, hlt⟩
  · cases f with
    | left => exact if_neg fun h => hlt h.2
    | right => exact if_neg fun h => hlt h.2

end Frame

namespace SearchTree
variable {K V P : Type}

/-- The whole tree: the nearest frame is the first. -/
def plug : List (Frame K V P) → SearchTree K V P → SearchTree K V P
  | [], t => t
  | f :: fs, t => plug fs (f.plug t)

/-- The whole tree, with a rotation at every frame where there is one to make. -/
def rise [LT P] [DecidableLT P] (fresh : K → Bool) : List (Frame K V P) → SearchTree K V P → SearchTree K V P
  | [], t => t
  | f :: fs, t => rise fresh fs (f.rotate fresh t)

theorem plug_append (fs gs : List (Frame K V P)) :
    ∀ t, plug (fs ++ gs) t = plug gs (plug fs t) := by
  induction fs with
  | nil =>
    intro t
    rfl
  | cons f fs ih =>
    intro t
    exact ih (f.plug t)

/-! ## Rotations -/

section Rise
variable [LT P] [DecidableLT P] {fresh : K → Bool}

/-- From a root that is not `fresh` on, nothing is rotated any more. -/
theorem rise_of_not_fresh {fs : List (Frame K V P)} (hfs : ∀ f ∈ fs, fresh f.key = false) :
    ∀ {t}, (∀ k ∈ t.rootKey?, fresh k = false) → rise fresh fs t = plug fs t := by
  induction fs with
  | nil =>
    intro t _
    rfl
  | cons f fs ih =>
    intro t ht
    rw [rise, plug, Frame.rotate_of_not_fresh ht]
    apply ih
    · intro g hg
      exact hfs g (mem_cons_of_mem _ hg)
    · intro k hk
      have hkey := hfs f mem_cons_self
      cases f <;> cases hk <;> exact hkey

end Rise

@[simp] theorem entries_rise [LT P] [DecidableLT P] (fresh : K → Bool) (fs : List (Frame K V P)) :
    ∀ t, (rise fresh fs t).entries = (plug fs t).entries := by
  -- A plugged tree's entries depend on those of the subtree only.
  have congr : ∀ gs {t t' : SearchTree K V P}, t.entries = t'.entries →
      (plug gs t).entries = (plug gs t').entries := by
    intro gs
    induction gs with
    | nil =>
      intro t t' h
      exact h
    | cons g gs ih =>
      intro t t' h
      apply ih
      cases g <;> simp [Frame.plug, entries, h]
  induction fs with
  | nil =>
    intro t
    rfl
  | cons f fs ih =>
    intro t
    rw [rise, ih, plug]
    apply congr
    cases f <;> simp [Frame.rotate, Frame.plug, entries]

/-! ## Updates at the end of a way down -/

section Updates
variable [LinearOrder K] {key : K} {fs : List (Frame K V P)}

/-- The way down to a key ends at its node, or at the place where it would be. -/
theorem exists_way (key : K) (t : SearchTree K V P) : ∃ fs c, t = plug fs c ∧ (∀ f ∈ fs, f.Leads key) ∧
    (c = nil ∨ ∃ v p l r, c = node key v p l r) := by
  induction t with
  | nil => exact ⟨[], nil, rfl, by simp, .inl rfl⟩
  | node k v p l r ihl ihr =>
    have deeper : ∀ {t} (g : Frame K V P), g.Leads key →
        (∃ fs c, t = plug fs c ∧ (∀ f ∈ fs, f.Leads key) ∧ (c = nil ∨ ∃ v p l r, c = node key v p l r)) →
        ∃ fs c, g.plug t = plug fs c ∧ (∀ f ∈ fs, f.Leads key) ∧
          (c = nil ∨ ∃ v p l r, c = node key v p l r) := by
      rintro t g hg ⟨fs, c, ht, hfs, hc⟩
      refine ⟨fs ++ [g], c, by rw [plug_append, ← ht]; rfl, ?_, hc⟩
      intro f hf
      rcases mem_append.mp hf with hf | hf
      · exact hfs f hf
      · exact mem_singleton.mp hf ▸ hg
    rcases lt_trichotomy key k with hlt | rfl | hgt
    · exact deeper (.left k v p r) hlt ihl
    · exact ⟨[], node key v p l r, rfl, by simp, .inr ⟨v, p, l, r, rfl⟩⟩
    · exact deeper (.right k v p l) hgt ihr

variable (h : ∀ f ∈ fs, f.Leads key)
include h

theorem nodeAt_plug : ∀ t, (plug fs t).nodeAt key = t.nodeAt key := by
  induction fs with
  | nil =>
    intro t
    rfl
  | cons f fs ih =>
    intro t
    have hf := h f mem_cons_self
    rw [plug, ih fun g hg => h g (mem_cons_of_mem _ hg)]
    cases f with
    | left k v p r => exact if_pos hf
    | right k v p l => exact (if_neg (not_lt_of_gt hf)).trans (if_pos hf)

theorem put_plug [LT P] [DecidableLT P] (value : V) (priority : P) (fresh : Bool) :
    ∀ t, (plug fs t).put key value priority fresh =
      rise (fun k => fresh && k == key) fs (t.put key value priority fresh) := by
  induction fs with
  | nil =>
    intro t
    rfl
  | cons f fs ih =>
    intro t
    have hf := h f mem_cons_self
    rw [plug, ih fun g hg => h g (mem_cons_of_mem _ hg), rise]
    cases f with
    | left k v p r => exact congrArg _ (if_pos hf)
    | right k v p l => exact congrArg _ ((if_neg (not_lt_of_gt hf)).trans (if_pos hf))

/-- A key that is put for the first time rises from the end of its way. Its node is `fresh`, and no other
node on the way is. -/
theorem exists_fresh [LT P] [DecidableLT P] : ∃ fresh : K → Bool, fresh key = true ∧ (∀ f ∈ fs, fresh f.key = false) ∧
      ∀ value priority, (plug fs nil).put key value priority true =
        rise fresh fs (node key value priority nil nil) := by
  refine ⟨fun k => true && k == key, by simp, fun f hf => ?_, fun value priority => ?_⟩
  · simpa using (h f hf).ne
  · exact put_plug h value priority true nil

theorem delete_plug [LE P] [DecidableLE P] :
    ∀ t, (plug fs t).delete key = plug fs (t.delete key) := by
  induction fs with
  | nil =>
    intro t
    rfl
  | cons f fs ih =>
    intro t
    have hf := h f mem_cons_self
    rw [plug, ih fun g hg => h g (mem_cons_of_mem _ hg), plug]
    cases f with
    | left k v p r => exact congrArg _ (if_pos hf)
    | right k v p l => exact congrArg _ ((if_neg (not_lt_of_gt hf)).trans (if_pos hf))

end Updates
end SearchTree
end NogoCommons.Lib
