import NogoCommons.Lib.Transition
import NogoCommons.Treap.IteratorLaws

/-!
# An iterator over a treap that changes

A mutable treap may change under its iterator, which is then told to seek its key again. The key to seek
is kept until a `Next` or a `Prev` uses it. `First`, `Last` and `Seek` move the iterator without forgetting
it, so that the next step starts from where the iterator was before; and `First` or `Last` on a treap that
has become empty does not move it at all.

Apart from these two, an iterator never loses its place: as long as it has nothing to seek, the stack it
has is that of its node in the treap as it is (`Tracks`), whatever has been called before.
-/

namespace NogoCommons.Treap.Iterator
open Lib

/-- A mutable treap and an iterator over it. -/
structure Session where
  treap : Mutable
  it : Iterator

inductive Event where
  | put (key value : Bytes) (priority : Nat)
  | delete (key : Bytes)
  | call (c : CursorCall Bytes)

namespace Session

/-- A change of the treap is followed by `ForceReseek`. -/
def step (s : Session) : Event → Session
  | .put key value priority => ⟨s.treap.put key value priority, s.it.forceReseek⟩
  | .delete key => ⟨s.treap.delete key, s.it.forceReseek⟩
  | .call c => ⟨s.treap, (s.it.call s.treap.root c).2⟩

/-- The entries in the iterator's range. -/
def entries (s : Session) : SortedMap Bytes Bytes := inside s.treap.root s.treap.ordered s.it.startKey s.it.limitKey

/-- The nearest key in the range that is ahead of one. -/
def neighbour (s : Session) (forwards : Bool) (k : Bytes) : Option Bytes :=
  (s.entries.nearest? forwards fun x => decide (Ahead forwards k x)).map Prod.fst

/-- A step from a key comes to its neighbour, and on an empty treap there is nothing to stand on. -/
def StepsRight (s : Session) : Event → Prop
  | .call .next => ∀ k ∈ s.it.node, (s.step (.call .next)).it.node = s.neighbour true k
  | .call .prev => ∀ k ∈ s.it.node, (s.step (.call .prev)).it.node = s.neighbour false k
  | .call .first => s.treap.root = .nil → (s.step (.call .first)).it.node = none
  | .call .last => s.treap.root = .nil → (s.step (.call .last)).it.node = none
  | _ => True

/-- The iterator stands in its range and has no other key to seek. -/
def Settled (s : Session) : Prop :=
  ∀ k ∈ s.it.node, s.it.inRange k = true ∧ ∀ key ∈ s.it.seekKey, key = k

/-- A step is taken from where the iterator is settled; and if there is nothing to seek and nothing in the
treap, the iterator is exhausted already. -/
def Fit (s : Session) : Event → Prop
  | .call .next => s.Settled
  | .call .prev => s.Settled
  | .call .first => s.treap.root = .nil → s.it.startKey = none → s.it.node = none
  | .call .last => s.treap.root = .nil → s.it.limitKey = none → s.it.node = none
  | _ => True

/-- An iterator that has nothing to seek stands in the treap as it is. -/
structure Tracks (s : Session) : Prop where
  isNew : s.it.node ≠ none → s.it.isNew = false
  stands : ∀ k ∈ s.it.node, s.it.seekKey = none → s.treap.root.Stands k s.it.parents

theorem tracks_new (t : Mutable) (startKey limitKey : Option Bytes) : Tracks ⟨t, new startKey limitKey⟩ :=
  ⟨fun h => absurd rfl h, fun _ hk => absurd hk (by simp [new])⟩

section Runs
variable {s : Session} {forwards : Bool}

theorem tracks_goes {t : Mutable} (it : Iterator) {it' : Iterator} {k? : Option Bytes} (hnew : it.isNew = false)
    (hgoes : Goes t.root it k? it') : Tracks ⟨t, it'⟩ := by
  obtain ⟨parents, rfl, hstands⟩ := hgoes
  exact ⟨fun _ => hnew, fun k hk _ => hstands k hk⟩

variable (h : s.Tracks)
include h

theorem Tracks.reset (forwards : Bool) : Tracks ⟨s.treap, s.it.reset forwards s.treap.root⟩ := by
  cases hb : s.it.bound forwards with
  | some key =>
    rw [reset_of_bound hb]
    exact tracks_goes { s.it with isNew := false } rfl (seek_goes s.treap.ordered ..)
  | none =>
    by_cases hroot : s.treap.root.keys = []
    · have hnil := SearchTree.keys_eq_nil.mp hroot
      rw [hnil, reset_empty hb]
      refine ⟨fun _ => rfl, fun k hk hseek => ?_⟩
      have hmem := (h.stands k hk hseek).mem
      rw [hroot] at hmem
      cases hmem
    · exact tracks_goes { s.it with isNew := false } rfl (reset_goes s.treap.ordered hb hroot)

theorem Tracks.advance (forwards : Bool) : Tracks ⟨s.treap, s.it.advance forwards s.treap.root⟩ := by
  cases hnew : s.it.isNew with
  | true =>
    rw [advance_new forwards hnew]
    exact h.reset forwards
  | false =>
    cases hnode : s.it.node with
    | none =>
      rwa [advance_exhausted hnew hnode]
    | some k =>
      cases hseek : s.it.seekKey with
      | some key =>
        rw [advance_reseek hnew hnode hseek]
        exact tracks_goes { s.it with seekKey := none } hnew (seek_goes s.treap.ordered ..)
      | none => exact tracks_goes s.it hnew (advance_goes s.treap.ordered forwards hnew hnode hseek (h.stands k hnode hseek))

theorem Tracks.step (e : Event) : (s.step e).Tracks := by
  -- After a change there is a key to seek, if the iterator stands on one.
  have hchange : ∀ t, Tracks ⟨t, s.it.forceReseek⟩ := by
    refine fun t => ⟨h.isNew, fun k hk hseek => ?_⟩
    cases hk.symm.trans hseek
  cases e with
  | put key value priority => exact hchange _
  | delete key => exact hchange _
  | call c =>
    cases c with
    | first => exact h.reset true
    | last => exact h.reset false
    | next => exact h.advance true
    | prev => exact h.advance false
    | seek key => exact tracks_goes { s.it with isNew := false } rfl (seek_goes s.treap.ordered ..)

/-- A step of a settled iterator goes to the neighbour of its key, and leaves nothing to seek. -/
theorem Tracks.goes (forwards : Bool) (hsettled : s.Settled) {k : Bytes} (hk : s.it.node = some k) :
    Goes s.treap.root { s.it with seekKey := none } (s.neighbour forwards k) (s.it.advance forwards s.treap.root) := by
  obtain ⟨hin, hseek⟩ := hsettled k hk
  have hnew := h.isNew (by simp [hk])
  have hconvex : ∀ x y, decide (Ahead forwards k x) = true → decide (Ahead forwards k y) = true →
      Ahead forwards x y → (new s.it.startKey s.it.limitKey).inRange y = true →
      (new s.it.startKey s.it.limitKey).inRange x = true :=
    fun x y hx _ hxy hy => inRange_between hin (of_decide_eq_true hx) hxy hy
  have hto := filter_nearest (h := s.treap.ordered) hconvex
  rw [Session.neighbour, entries, ← hto]
  cases hkey : s.it.seekKey with
  | none =>
    obtain ⟨parents, hgoes, hstands⟩ := advance_goes s.treap.ordered forwards hnew hk hkey (h.stands k hk hkey)
    refine ⟨parents, ?_, hstands⟩
    rw [hgoes, ← hkey]
    rfl
  | some key =>
    obtain rfl : key = k := hseek key hkey
    have hkind : wanted key false forwards = fun x => decide (Ahead forwards key x) := by
      funext x
      simp [wanted]
    rw [advance_reseek hnew hk hkey, ← hkind]
    exact seek_goes s.treap.ordered key false forwards { s.it with seekKey := none }

theorem Tracks.neighbour (forwards : Bool) (hsettled : s.Settled) {k : Bytes} (hk : s.it.node = some k) :
    (s.it.advance forwards s.treap.root).node = s.neighbour forwards k := by
  obtain ⟨parents, hgoes, -⟩ := h.goes forwards hsettled hk
  rw [hgoes]

omit h in
theorem reset_nil_node {it : Iterator} (hfit : it.bound forwards = none → it.node = none) :
    (it.reset forwards .nil).node = none := by
  cases hb : it.bound forwards with
  | some key =>
    rw [reset_of_bound hb]
    rfl
  | none =>
    rw [reset_empty hb]
    exact hfit hb

theorem Tracks.stepsRight {e : Event} (hfit : s.Fit e) : s.StepsRight e := by
  cases e with
  | put key value priority => trivial
  | delete key => trivial
  | call c =>
    cases c with
    | first =>
      intro hroot
      show (s.it.reset true s.treap.root).node = none
      rw [hroot]
      exact reset_nil_node fun hb => hfit hroot hb
    | last =>
      intro hroot
      show (s.it.reset false s.treap.root).node = none
      rw [hroot]
      exact reset_nil_node fun hb => hfit hroot hb
    | next => exact fun k hk => h.neighbour true hfit hk
    | prev => exact fun k hk => h.neighbour false hfit hk
    | seek key => trivial

end Runs

/-- In every run, a step that is fit is right. -/
theorem stepsRight_of_fit (t : Mutable) (startKey limitKey : Option Bytes) (s : Session)
    (hs : Reaches (fun s e => some (Session.step s e)) ⟨t, new startKey limitKey⟩ s) (e : Event) (he : s.Fit e) :
    s.StepsRight e := by
  refine (hs.invariant (I := Tracks) ?_ (tracks_new t startKey limitKey)).stepsRight he
  rintro s e _ h ⟨rfl⟩
  exact h.step e

/-- The node the iterator stands on is deleted. -/
theorem stepsRight_of_fit_deleted :
    let events : List Event := [.put [1] [] 0, .put [2] [] 1, .call .first, .delete [1]]
    ∃ s, runSchedule (fun s e => some (Session.step s e)) ⟨Mutable.empty, new none none⟩ events = some s ∧
      s.it.node = some [1] ∧ (s.step (.call .next)).it.node = s.neighbour true [1] ∧
      s.neighbour true [1] = some [2] := by
  intro events
  obtain ⟨s, hrun, hnode, hfit, hnext⟩ : ∃ s, runSchedule (fun s e => some (Session.step s e))
      ⟨Mutable.empty, new none none⟩ events = some s ∧ s.it.node = some [1] ∧ s.Fit (.call .next) ∧
      s.neighbour true [1] = some [2] := by
    refine ⟨_, rfl, by decide +kernel, ?_, by decide +kernel⟩
    intro k hk
    cases hk
    exact ⟨by decide, fun key hkey => (Option.some.inj hkey).symm⟩
  exact ⟨s, hrun, hnode, stepsRight_of_fit _ none none s (.of_runSchedule hrun) (.call .next) hfit [1] hnode, hnext⟩

/-- A key that was to be sought is still sought after `First`: the step from 1 goes past 2 and 3. And
`First` on a treap that has become empty leaves the iterator where it was. -/
theorem not_stepsRight : (∃ s, runSchedule (fun s e => some (Session.step s e)) ⟨Mutable.empty, new none none⟩
        [.put [1] [] 0, .put [2] [] 1, .put [3] [] 2, .call (.seek [3]), .put [4] [] 3, .call .first] = some s ∧
      s.it.node = some [1] ∧ s.neighbour true [1] = some [2] ∧ (s.step (.call .next)).it.node = some [4]) ∧
    ∃ s, runSchedule (fun s e => some (Session.step s e)) ⟨Mutable.empty, new none none⟩
        [.put [1] [] 0, .call .first, .delete [1]] = some s ∧
      s.treap.root = .nil ∧ (s.step (.call .first)).it.node = some [1] := by
  refine ⟨⟨_, rfl, ?_, ?_, ?_⟩, ⟨_, rfl, ?_, ?_⟩⟩
  · decide
  · decide
  · decide
  · exact SearchTree.keys_eq_nil.mp (by decide +kernel)
  · decide +kernel

end Session
end NogoCommons.Treap.Iterator
