import NogoCommons.Lib.SortedMap

/-!
# Cursors on a sorted map

A map can be walked through in two directions, and most of what is to be said about a cursor is the same
for both. So the direction is an argument, `forwards`, and the order on the keys is read accordingly:
`Ahead forwards a b` says that `b` comes after `a` on the way.

What a cursor goes to is always the nearest entry of some kind: the nearest one at all, the nearest one
ahead of the key it stands on, the nearest one that is not below a key. `nearest?` is that, and its two
characterisations are all that is needed of it. The cursor itself is a `Position`: it has not been
positioned yet, it stands on a key, or it has run out. Since it is the key that is remembered, the map
may change under it.
-/

namespace NogoCommons.Lib
open List
variable {K V : Type} [LinearOrder K]

/-- On a way in this direction, the second key comes after the first. -/
def Ahead (forwards : Bool) (a b : K) : Prop := if forwards then a < b else b < a

instance decidableAhead (forwards : Bool) (a b : K) : Decidable (Ahead forwards a b) := by
  unfold Ahead
  infer_instance

section Ahead
variable {forwards : Bool} {a b c : K}

theorem Ahead.trans (h : Ahead forwards a b) (h' : Ahead forwards b c) : Ahead forwards a c := by
  cases forwards with
  | false => exact h'.trans h
  | true => exact h.trans h'

theorem Ahead.irrefl (a : K) : ¬ Ahead forwards a a := by
  cases forwards with
  | false => exact lt_irrefl a
  | true => exact lt_irrefl a

theorem Ahead.asymm (h : Ahead forwards a b) : ¬ Ahead forwards b a :=
  fun h' => Ahead.irrefl a (h.trans h')

theorem Ahead.ne (h : Ahead forwards a b) : a ≠ b := by
  rintro rfl
  exact Ahead.irrefl a h

theorem ahead_trichotomy (forwards : Bool) (a b : K) : Ahead forwards a b ∨ a = b ∨ Ahead forwards b a := by
  cases forwards with
  | false => exact lt_trichotomy b a |>.imp_right fun h => h.imp_left Eq.symm
  | true => exact lt_trichotomy a b

@[simp] theorem ahead_not : Ahead (!forwards) a b ↔ Ahead forwards b a := by
  cases forwards <;> rfl

end Ahead

namespace SortedMap
variable {m : SortedMap K V} {forwards : Bool} {p : K → Bool} {e : K × V}

/-- The entries, in the order of the direction. -/
def walk (forwards : Bool) (m : SortedMap K V) : List (K × V) :=
  if forwards then m.entries else m.entries.reverse

/-- The first entry on the way that is of this kind. -/
def nearest? (forwards : Bool) (p : K → Bool) (m : SortedMap K V) : Option (K × V) :=
  (m.walk forwards).find? fun e => p e.1

@[simp] theorem mem_walk : e ∈ m.walk forwards ↔ e ∈ m.entries := by
  cases forwards <;> simp [walk]

theorem sorted_walk (forwards : Bool) (m : SortedMap K V) :
    (m.walk forwards).Pairwise fun a b => Ahead forwards a.1 b.1 := by
  cases forwards with
  | false => exact pairwise_reverse.mpr m.sorted
  | true => exact m.sorted

theorem nearest?_eq_none : m.nearest? forwards p = none ↔ ∀ e ∈ m.entries, p e.1 = false := by
  simp [nearest?, find?_eq_none]

/-- The one that the way comes to after only such as are not of the kind. -/
theorem nearest?_of_walk {before after : List (K × V)} (h : m.walk forwards = before ++ e :: after)
    (hbefore : ∀ e' ∈ before, p e'.1 = false) (he : p e.1 = true) : m.nearest? forwards p = some e := by
  rw [nearest?, h, find?_append, find?_eq_none.mpr fun e' he' => by simp [hbefore e' he'],
    Option.none_or]
  exact find?_cons_of_pos he

/-- Where the kind begins on the way, if from there on everything is of it. -/
theorem nearest?_eq_head? {before after : List (K × V)} (h : m.walk forwards = before ++ after)
    (hbefore : ∀ e ∈ before, p e.1 = false) (hafter : ∀ e ∈ after, p e.1 = true) :
    m.nearest? forwards p = after.head? := by
  cases after with
  | nil =>
    rw [nearest?, h, append_nil]
    exact find?_eq_none.mpr fun e he => by simp [hbefore e he]
  | cons e after => exact nearest?_of_walk h hbefore (hafter e mem_cons_self)

theorem nearest?_eq_some : m.nearest? forwards p = some e ↔
    e ∈ m.entries ∧ p e.1 = true ∧ ∀ e' ∈ m.entries, p e'.1 = true → ¬ Ahead forwards e'.1 e.1 := by
  constructor
  · intro h
    obtain ⟨he, before, after, hwalk, hbefore⟩ := find?_eq_some_iff_append.mp h
    have hsorted := sorted_walk forwards m
    rw [hwalk] at hsorted
    have hmem : e ∈ m.walk forwards := by simp [hwalk]
    refine ⟨mem_walk.mp hmem, he, fun e' he' hp hahead => ?_⟩
    have hmem' : e' ∈ before ++ e :: after := hwalk ▸ mem_walk.mpr he'
    rcases mem_append.mp hmem' with hmem' | hmem'
    · simpa [hp] using hbefore e' hmem'
    · rcases mem_cons.mp hmem' with rfl | hmem'
      · exact Ahead.irrefl _ hahead
      · have hafter := (pairwise_cons.mp (pairwise_append.mp hsorted).2.1).1 e' hmem'
        exact hafter.asymm hahead
  · rintro ⟨hmem, he, hfirst⟩
    have hmem' : e ∈ m.walk forwards := mem_walk.mpr hmem
    obtain ⟨before, after, hwalk⟩ := append_of_mem hmem'
    refine nearest?_of_walk hwalk (fun e' he' => ?_) he
    have hsorted := sorted_walk forwards m
    rw [hwalk] at hsorted
    have hahead : Ahead forwards e'.1 e.1 :=
      (pairwise_append.mp hsorted).2.2 e' he' e mem_cons_self
    have hmem' : e' ∈ m.entries := mem_walk.mp (hwalk ▸ mem_append_left _ he')
    cases hp : p e'.1 with
    | false => rfl
    | true => exact absurd hahead (hfirst e' hmem' hp)

/-- Kinds that agree on the map's keys. -/
theorem nearest?_congr {q : K → Bool} (h : ∀ e ∈ m.entries, p e.1 = q e.1) :
    m.nearest? forwards p = m.nearest? forwards q := by
  ext e
  rw [nearest?_eq_some, nearest?_eq_some]
  refine and_congr_right fun he => ?_
  rw [h e he]
  refine and_congr_right fun _ => forall₂_congr fun e' he' => ?_
  rw [h e' he']

/-- A part of the map that the kind cannot leave and come back to: the nearest entry of the part is the
nearest of all, if that is in the part. -/
theorem nearest?_filter_of_convex {q : K → Bool} (h : ∀ x y, p x = true → p y = true → Ahead forwards x y →
    q y = true → q x = true) :
    (m.filter q).nearest? forwards p = (m.nearest? forwards p).filter fun e => q e.1 := by
  ext e
  rw [nearest?_eq_some, Option.filter_eq_some_iff, nearest?_eq_some]
  simp only [filter, mem_filter]
  constructor
  · rintro ⟨⟨hmem, hq⟩, hp, hfirst⟩
    refine ⟨⟨hmem, hp, fun e' he' hp' hahead => ?_⟩, hq⟩
    exact hfirst e' ⟨he', h _ _ hp' hp hahead hq⟩ hp' hahead
  · rintro ⟨⟨hmem, hp, hfirst⟩, hq⟩
    exact ⟨⟨hmem, hq⟩, hp, fun e' he' hp' => hfirst e' he'.1 hp'⟩

end SortedMap

/-! ## The cursor -/

/-- Where a cursor is. -/
inductive Position (K : Type) where
  | fresh
  | standing (key : K)
  | exhausted
deriving DecidableEq

inductive CursorCall (K : Type) where
  | first
  | last
  | next
  | prev
  | seek (key : K)
deriving DecidableEq

namespace Position
variable (m : SortedMap K V)

/-- The position on an entry, if there is one. -/
def ofEntry : Option (K × V) → Position K
  | none => exhausted
  | some e => standing e.1

/-- To the first entry in a direction. -/
def start (forwards : Bool) : Position K := ofEntry (m.nearest? forwards fun _ => true)

/-- To the next entry in a direction. -/
def move (forwards : Bool) : Position K → Position K
  | fresh => start m forwards
  | standing key => ofEntry (m.nearest? forwards fun k => decide (Ahead forwards key k))
  | exhausted => exhausted

def call (pos : Position K) : CursorCall K → Position K
  | .first => start m true
  | .last => start m false
  | .next => pos.move m true
  | .prev => pos.move m false
  | .seek key => ofEntry (m.nearest? true fun k => decide (key ≤ k))

def key? : Position K → Option K
  | standing key => some key
  | _ => none

/-- The entry the cursor stands on. -/
def entry? (pos : Position K) : Option (K × V) := pos.key?.bind fun k => (m.get? k).map fun v => (k, v)

omit [LinearOrder K] in
theorem ofEntry_ne_fresh (e : Option (K × V)) : ofEntry e ≠ fresh := by
  cases e <;> simp [ofEntry]

theorem call_ne_fresh {m : SortedMap K V} (pos : Position K) (c : CursorCall K) : pos.call m c ≠ fresh := by
  have hmove : ∀ forwards, pos.move m forwards ≠ fresh := by
    intro forwards
    cases pos with
    | fresh => exact ofEntry_ne_fresh _
    | standing key => exact ofEntry_ne_fresh _
    | exhausted => simp [move]
  cases c with
  | first => exact ofEntry_ne_fresh _
  | last => exact ofEntry_ne_fresh _
  | next => exact hmove true
  | prev => exact hmove false
  | seek key => exact ofEntry_ne_fresh _

omit [LinearOrder K] in
theorem key?_ofEntry (e : Option (K × V)) : (ofEntry e).key? = e.map Prod.fst := by
  cases e <;> rfl

end Position
end NogoCommons.Lib
