import NogoCommons.Lib.MapCursor
import NogoCommons.Lib.Overlay

/-!
# Two iterators as one, in both directions

`Lib.Overlay` scans two iterators as one. Here both can be moved either way, and so can the two together: a
step moves the iterator that is stood on, and then chooses the one whose key is nearer in that direction.

What an iterator stands on is a relation (`on`) between its states and keys of a map, and an iterator is
right if its steps keep that relation (`Walks`). It takes the direction as an argument. A single iterator
does not care; two as one do. The iterator that is not stood on is the one thing that a step does not move.
It has to be on its nearest key in the direction of the step already, which is what the clauses of `On` for
the two sides say. Then the step is right, and the two stand on their merged entries again. After a change
of direction the other iterator is as a rule on the wrong side, and nothing in a step puts it right.
-/

namespace NogoCommons.Lib
open List SortedMap
variable {K V : Type} [LinearOrder K]

/-! ## Kinds of keys that go on -/

/-- In this direction the kind does not end. -/
def Onward (forwards : Bool) (p : K → Bool) : Prop := ∀ x y, p x = true → Ahead forwards x y → p y = true

/-- Not behind the key, if there is one. -/
def notBehind (forwards : Bool) (k? : Option K) (x : K) : Bool := k?.any fun k => !decide (Ahead forwards x k)

def SortedMap.nearestKey? (forwards : Bool) (p : K → Bool) (m : SortedMap K V) : Option K :=
  (m.nearest? forwards p).map Prod.fst

variable {forwards : Bool} {k : K}
section Kinds
variable {p q : K → Bool} {m : SortedMap K V} {x : K}

theorem notBehind_some : notBehind forwards (some k) x = true ↔ x = k ∨ Ahead forwards k x := by
  simp only [notBehind, Option.any_some, Bool.not_eq_true', decide_eq_false_iff_not]
  constructor
  · intro h
    rcases ahead_trichotomy forwards x k with h' | h' | h'
    · exact absurd h' h
    · exact .inl h'
    · exact .inr h'
  · rintro (rfl | h)
    · exact Ahead.irrefl x
    · exact h.asymm

theorem onward_ahead (k : K) : Onward forwards fun x => decide (Ahead forwards k x) := by
  intro x y hx hxy
  exact decide_eq_true ((of_decide_eq_true hx).trans hxy)

theorem onward_notBehind (k : K) : Onward forwards (notBehind forwards (some k)) := by
  intro x y hx hxy
  rcases notBehind_some.mp hx with rfl | hx
  · exact notBehind_some.mpr (.inr hxy)
  · exact notBehind_some.mpr (.inr (hx.trans hxy))

theorem nearestKey?_eq_some : m.nearestKey? forwards p = some k ↔
    (∃ v, (k, v) ∈ m.entries) ∧ p k = true ∧ ∀ e ∈ m.entries, p e.1 = true → ¬ Ahead forwards e.1 k := by
  simp only [SortedMap.nearestKey?, Option.map_eq_some_iff, nearest?_eq_some]
  constructor
  · rintro ⟨e, ⟨hmem, hp, hfirst⟩, rfl⟩
    exact ⟨⟨e.2, hmem⟩, hp, hfirst⟩
  · rintro ⟨⟨v, hmem⟩, hp, hfirst⟩
    exact ⟨(k, v), ⟨hmem, hp, hfirst⟩, rfl⟩

theorem nearestKey?_eq_none : m.nearestKey? forwards p = none ↔ ∀ e ∈ m.entries, p e.1 = false := by
  rw [SortedMap.nearestKey?, Option.map_eq_none_iff, nearest?_eq_none]

theorem nearestKey?_congr (h : ∀ e ∈ m.entries, p e.1 = q e.1) :
    m.nearestKey? forwards p = m.nearestKey? forwards q := by
  rw [SortedMap.nearestKey?, SortedMap.nearestKey?, nearest?_congr h]

/-- It is the entries of the kind that matter. -/
theorem nearestKey?_eq_of_mem {n : SortedMap K V} (h : ∀ e, p e.1 = true → (e ∈ m.entries ↔ e ∈ n.entries)) :
    m.nearestKey? forwards p = n.nearestKey? forwards p := by
  cases hn : n.nearestKey? forwards p with
  | none =>
    refine nearestKey?_eq_none.mpr fun e he => ?_
    by_contra hp
    rw [Bool.not_eq_false] at hp
    exact absurd (nearestKey?_eq_none.mp hn e ((h e hp).mp he)) (by simp [hp])
  | some k =>
    obtain ⟨⟨v, hv⟩, hk, hfirst⟩ := nearestKey?_eq_some.mp hn
    exact nearestKey?_eq_some.mpr ⟨⟨v, (h (k, v) hk).mpr hv⟩, hk, fun e he hp => hfirst e ((h e hp).mp he) hp⟩

theorem nearestKey?_all : m.nearestKey? true (fun _ => true) = m.entries.head?.map Prod.fst := by
  rw [SortedMap.nearestKey?, nearest?_eq_head? (nil_append (m.walk true)).symm (by simp) (by simp)]
  rfl

/-- Where the map has been gone through up to a key, the nearest one ahead of it is the next. -/
theorem nearestKey?_ahead {before after : List (K × V)} (h : m.entries = before ++ after)
    (hbefore : ∀ e ∈ before, e.1 ≤ k) (hafter : ∀ e ∈ after, k < e.1) :
    m.nearestKey? true (fun x => decide (Ahead true k x)) = after.head?.map Prod.fst := by
  have hwalk : m.walk true = before ++ after := h
  rw [SortedMap.nearestKey?, nearest?_eq_head? hwalk]
  · intro e he
    exact decide_eq_false (not_lt.mpr (hbefore e he))
  · intro e he
    exact decide_eq_true (hafter e he)

/-- The entries of a kind that goes on are those that are not behind the nearest of them. -/
theorem notBehind_nearestKey? (hp : Onward forwards p) {e : K × V} (he : e ∈ m.entries) :
    notBehind forwards (m.nearestKey? forwards p) e.1 = p e.1 := by
  cases hn : m.nearestKey? forwards p with
  | none => rw [nearestKey?_eq_none.mp hn e he]; rfl
  | some b =>
    obtain ⟨-, hb, hfirst⟩ := nearestKey?_eq_some.mp hn
    cases hpe : p e.1 with
    | true => simp [notBehind, hfirst e he hpe]
    | false =>
      rw [Bool.eq_false_iff]
      intro hnot
      rcases notBehind_some.mp hnot with heq | hahead
      · rw [heq, hb] at hpe
        cases hpe
      · rw [hp b e.1 hb hahead] at hpe
        cases hpe

/-- From a key of the kind that nothing of the kind is behind, it is the same kind. -/
theorem notBehind_of_first (hp : Onward forwards p) (hk : p k = true)
    (hfirst : ∀ e ∈ m.entries, p e.1 = true → ¬ Ahead forwards e.1 k) :
    ∀ e ∈ m.entries, p e.1 = notBehind forwards (some k) e.1 := by
  intro e he
  rw [Bool.eq_iff_iff]
  constructor
  · intro hpe
    simp [notBehind, hfirst e he hpe]
  · intro hnot
    rcases notBehind_some.mp hnot with heq | hahead
    · rwa [heq]
    · exact hp k e.1 hk hahead

/-- A key of the map is the nearest that is not behind it. -/
theorem nearestKey?_notBehind {v : V} (h : (k, v) ∈ m.entries) :
    m.nearestKey? forwards (notBehind forwards (some k)) = some k := by
  refine nearestKey?_eq_some.mpr ⟨⟨v, h⟩, notBehind_some.mpr (.inl rfl), fun e _ he hahead => ?_⟩
  rcases notBehind_some.mp he with heq | he
  · exact Ahead.irrefl _ (heq ▸ hahead)
  · exact he.asymm hahead

end Kinds

/-! ## Iterators -/

/-- An iterator that can be moved both ways. -/
structure TwoWay (σ K V : Type) where
  entry : σ → Option (K × V)
  /-- `First` and `Last`. -/
  start : Bool → σ → σ
  /-- `Next` and `Prev`. -/
  step : Bool → σ → σ
  seek : K → σ → σ
  /-- At least as many entries as there are. -/
  size : σ → Nat

/-- The iterator steps through the entries of a map. -/
structure TwoWay.Walks {σ : Type} (A : TwoWay σ K V) (m : SortedMap K V) (on : Bool → σ → Option K → Prop) :
    Prop where
  key : ∀ {d s k?}, on d s k? → (A.entry s).map Prod.fst = k?
  value : ∀ {d s e}, on d s (some e.1) → e ∈ m.entries → A.entry s = some e
  step : ∀ {d s k}, on d s (some k) → on d (A.step d s) (m.nearestKey? d fun x => decide (Ahead d k x))
  size : ∀ {d s k?}, on d s k? → m.entries.length ≤ A.size s

/-- It can be sent to either end, and to a key of a kind that can be sought. -/
structure TwoWay.Starts {σ : Type} (A : TwoWay σ K V) (m : SortedMap K V) (on : Bool → σ → Option K → Prop)
    (seekable : K → Prop) : Prop where
  start : ∀ {d e s k?}, on e s k? → on d (A.start d s) (m.nearestKey? d fun _ => true)
  seek : ∀ {e s k? key}, on e s k? → seekable key →
    on true (A.seek key s) (m.nearestKey? true fun x => decide (key ≤ x))

namespace TwoWay
variable {α β : Type} (A : TwoWay α K V) (B : TwoWay β K V) (updated : K → Bool)

/-- The base is moved past entries that are updated. -/
def skip (forwards : Bool) : Nat → α → α
  | 0, s => s
  | n + 1, s =>
    match A.entry s with
    | none => s
    | some e => if updated e.1 then skip forwards n (A.step forwards s) else s

/-- Skip on the base, then stand on the nearer of the two entries. -/
def choose (forwards : Bool) (base : α) (upper : β) : Overlay α β :=
  let base := skip A updated forwards (A.size base) base
  { base, upper
    current :=
      match A.entry base, B.entry upper with
      | none, none => none
      | some _, none => some .base
      | none, some _ => some .upper
      | some a, some b => if Ahead forwards b.1 a.1 then some .upper else some .base }

/-- The two iterators as one. -/
def overlay : TwoWay (Overlay α β) K V where
  entry o :=
    match o.current with
    | none => none
    | some .base => A.entry o.base
    | some .upper => B.entry o.upper
  start forwards o := choose A B updated forwards (A.start forwards o.base) (B.start forwards o.upper)
  step forwards o :=
    match o.current with
    | none => o
    | some .base => choose A B updated forwards (A.step forwards o.base) o.upper
    | some .upper => choose A B updated forwards o.base (B.step forwards o.upper)
  seek key o := choose A B updated true (A.seek key o.base) (B.seek key o.upper)
  size o := A.size o.base + B.size o.upper

/-- The entries of the base that are not updated. -/
def kept (m : SortedMap K V) : SortedMap K V := m.filter fun k => !updated k

variable {A B updated} {m₁ m₂ m : SortedMap K V} {onA : Bool → α → Option K → Prop}
  {onB : Bool → β → Option K → Prop}

theorem mem_kept {e : K × V} : e ∈ (kept updated m₁).entries ↔ e ∈ m₁.entries ∧ updated e.1 = false := by
  simp [kept, SortedMap.filter]

/-- Where the two stand as one. The iterator that is not stood on is on its nearest key in the direction. -/
inductive On (m₁ m₂ : SortedMap K V) (updated : K → Bool) (onA : Bool → α → Option K → Prop)
    (onB : Bool → β → Option K → Prop) (forwards : Bool) (o : Overlay α β) : Option K → Prop
  | nowhere {d b? e u?} (hcur : o.current = none) (hbase : onA d o.base b?) (hupper : onB e o.upper u?) :
      On m₁ m₂ updated onA onB forwards o none
  | base {k v} (hcur : o.current = some .base) (hbase : onA forwards o.base (some k))
      (hmem : (k, v) ∈ (kept updated m₁).entries)
      (hupper : onB forwards o.upper (m₂.nearestKey? forwards (notBehind forwards (some k)))) :
      On m₁ m₂ updated onA onB forwards o (some k)
  | upper {k v} (hcur : o.current = some .upper) (hupper : onB forwards o.upper (some k))
      (hmem : (k, v) ∈ m₂.entries)
      (hbase : onA forwards o.base ((kept updated m₁).nearestKey? forwards (notBehind forwards (some k)))) :
      On m₁ m₂ updated onA onB forwards o (some k)

/-- The iterator that is not stood on is on its nearest key in the direction. -/
def Aligned (A : TwoWay α K V) (B : TwoWay β K V) (m₁ m₂ : SortedMap K V) (updated : K → Bool) (forwards : Bool)
    (o : Overlay α β) : Prop :=
  match o.current with
  | none => True
  | some .base => (B.entry o.upper).map Prod.fst =
      m₂.nearestKey? forwards (notBehind forwards ((A.entry o.base).map Prod.fst))
  | some .upper => (A.entry o.base).map Prod.fst =
      (kept updated m₁).nearestKey? forwards (notBehind forwards ((B.entry o.upper).map Prod.fst))

section Turns
variable (hA : A.Walks m₁ onA) (hB : B.Walks m₂ onB) {d : Bool} {o : Overlay α β} {k? : Option K}

include hA hB

theorem On.aligned (h : On m₁ m₂ updated onA onB forwards o k?) : Aligned A B m₁ m₂ updated forwards o := by
  unfold Aligned
  cases h with
  | nowhere hcur hbase hupper =>
    rw [hcur]
    trivial
  | base hcur hbase hkmem hupper =>
    rw [hcur]
    rw [hA.key hbase, hB.key hupper]
  | upper hcur hupper hkmem hbase =>
    rw [hcur]
    rw [hA.key hbase, hB.key hupper]

/-- Where the two are aligned, they can be moved in that direction, whichever they have come from. -/
theorem On.turn (h : On m₁ m₂ updated onA onB d o k?) (haligned : Aligned A B m₁ m₂ updated forwards o)
    (hbase : ∀ b?, o.current ≠ none → onA d o.base b? → onA forwards o.base b?)
    (hupper : ∀ u?, onB d o.upper u? → onB forwards o.upper u?) : On m₁ m₂ updated onA onB forwards o k? := by
  unfold Aligned at haligned
  cases h with
  | nowhere hcur hb hu => exact .nowhere hcur hb hu
  | base hcur hb hkmem hu =>
    rw [hcur] at haligned
    dsimp only at haligned
    rw [hA.key hb, hB.key hu] at haligned
    refine .base hcur (hbase _ (by simp [hcur]) hb) hkmem ?_
    rw [← haligned]
    exact hupper _ hu
  | upper hcur hu hkmem hb =>
    rw [hcur] at haligned
    dsimp only at haligned
    rw [hA.key hb, hB.key hu] at haligned
    refine .upper hcur (hupper _ hu) hkmem ?_
    rw [← haligned]
    exact hbase _ (by simp [hcur]) hb

end Turns

section Moves
variable (hA : A.Walks m₁ onA) (hmem : ∀ {d s k}, onA d s (some k) → ∃ v, (k, v) ∈ m₁.entries)

include hA hmem

/-- Skipping comes to the nearest entry that is kept. -/
theorem skip_spec {n : Nat} : ∀ {s} {b?}, onA forwards s b? →
    (m₁.entries.filter fun e => notBehind forwards b? e.1).length ≤ n →
    onA forwards (skip A updated forwards n s) ((kept updated m₁).nearestKey? forwards (notBehind forwards b?)) := by
  -- An exhausted iterator stays where it is.
  have hnone : ∀ {n} {s}, onA forwards s none → onA forwards (skip A updated forwards n s)
      ((kept updated m₁).nearestKey? forwards (notBehind forwards none)) := by
    intro n s hs
    rw [nearestKey?_eq_none.mpr fun e _ => rfl]
    cases n with
    | zero => exact hs
    | succ n =>
      have hentry : A.entry s = none := Option.map_eq_none_iff.mp (hA.key hs)
      rwa [skip, hentry]
  induction n with
  | zero =>
    intro s b? hs hn
    cases b? with
    | none => exact hnone hs
    | some b =>
      obtain ⟨v, hv⟩ := hmem hs
      have hin : (b, v) ∈ m₁.entries.filter fun e => notBehind forwards (some b) e.1 :=
        mem_filter.mpr ⟨hv, notBehind_some.mpr (.inl rfl)⟩
      rw [length_eq_zero_iff.mp (Nat.le_zero.mp hn)] at hin
      cases hin
  | succ n ih =>
    intro s b? hs hn
    cases b? with
    | none => exact hnone hs
    | some b =>
      obtain ⟨v, hv⟩ := hmem hs
      rw [skip, hA.value (e := (b, v)) hs hv]
      cases hup : updated b with
      | false =>
        simp only [hup, Bool.false_eq_true, if_false]
        rwa [nearestKey?_notBehind (mem_kept.mpr ⟨hv, hup⟩)]
      | true =>
        simp only [hup, if_true]
        have hnext : ∀ e ∈ m₁.entries, notBehind forwards (m₁.nearestKey? forwards fun x =>
            decide (Ahead forwards b x)) e.1 = decide (Ahead forwards b e.1) :=
          fun e he => notBehind_nearestKey? (onward_ahead b) he
        have hkept : (kept updated m₁).nearestKey? forwards (notBehind forwards (some b)) =
            (kept updated m₁).nearestKey? forwards (notBehind forwards (m₁.nearestKey? forwards fun x =>
              decide (Ahead forwards b x))) := by
          refine nearestKey?_congr fun e he => ?_
          obtain ⟨he, hnot⟩ := mem_kept.mp he
          rw [hnext e he, Bool.eq_iff_iff, notBehind_some, decide_eq_true_iff]
          refine or_iff_right fun heq => ?_
          rw [heq, hup] at hnot
          cases hnot
        rw [hkept]
        refine ih (hA.step hs) ?_
        -- The entry that is skipped is one less to come.
        have hlt : (m₁.entries.filter fun e => decide (Ahead forwards b e.1)).length <
            (m₁.entries.filter fun e => notBehind forwards (some b) e.1).length := by
          have hsub : (m₁.entries.filter fun e => decide (Ahead forwards b e.1)).Sublist
              (m₁.entries.filter fun e => notBehind forwards (some b) e.1) := by
            refine monotone_filter_right m₁.entries fun e he => ?_
            exact notBehind_some.mpr (.inr (of_decide_eq_true he))
          refine lt_of_le_of_ne hsub.length_le fun heq => ?_
          have hin : (b, v) ∈ m₁.entries.filter fun e => notBehind forwards (some b) e.1 :=
            mem_filter.mpr ⟨hv, notBehind_some.mpr (.inl rfl)⟩
          rw [← hsub.eq_of_length heq] at hin
          exact Ahead.irrefl b (of_decide_eq_true (mem_filter.mp hin).2)
        rw [filter_congr hnext]
        omega

variable (hB : B.Walks m₂ onB) (hup : ∀ e ∈ m₂.entries, updated e.1 = true)
  (hm : ∀ e, e ∈ m.entries ↔ e ∈ m₂.entries ∨ e ∈ (kept updated m₁).entries)

include hB hup hm

/-- The choice between two iterators that are at the beginning of a kind of keys. -/
theorem choose_spec {base : α} {upper : β} {b? : Option K} {p : K → Bool} (hp : Onward forwards p)
    (hbase : onA forwards base b?) (hb : ∀ e ∈ (kept updated m₁).entries, notBehind forwards b? e.1 = p e.1)
    (hupper : onB forwards upper (m₂.nearestKey? forwards p)) :
    On m₁ m₂ updated onA onB forwards (choose A B updated forwards base upper) (m.nearestKey? forwards p) := by
  have hskip : onA forwards (skip A updated forwards (A.size base) base)
      ((kept updated m₁).nearestKey? forwards (notBehind forwards b?)) :=
    skip_spec hA hmem hbase ((length_filter_le ..).trans (hA.size hbase))
  rw [nearestKey?_congr hb] at hskip
  have hakey := hA.key hskip
  have hbkey := hB.key hupper
  cases hn : m.nearestKey? forwards p with
  | none =>
    have hall := nearestKey?_eq_none.mp hn
    have ha : (kept updated m₁).nearestKey? forwards p = none :=
      nearestKey?_eq_none.mpr fun e he => hall e ((hm e).mpr (.inr he))
    have hc : m₂.nearestKey? forwards p = none :=
      nearestKey?_eq_none.mpr fun e he => hall e ((hm e).mpr (.inl he))
    rw [ha, Option.map_eq_none_iff] at hakey
    rw [hc, Option.map_eq_none_iff] at hbkey
    exact .nowhere (by simp only [choose, hakey, hbkey]) hskip hupper
  | some k =>
    obtain ⟨⟨v, hv⟩, hk, hfirst⟩ := nearestKey?_eq_some.mp hn
    -- On both sides the kind is what is not behind the key that is nearest of all.
    have hside : ∀ {n : SortedMap K V}, (∀ e ∈ n.entries, e ∈ m.entries) →
        n.nearestKey? forwards p = n.nearestKey? forwards (notBehind forwards (some k)) := by
      intro n hsub
      exact nearestKey?_congr (notBehind_of_first hp hk fun e he => hfirst e (hsub e he))
    have hkept : ∀ e ∈ (kept updated m₁).entries, e ∈ m.entries := fun e he => (hm e).mpr (.inr he)
    have hover : ∀ e ∈ m₂.entries, e ∈ m.entries := fun e he => (hm e).mpr (.inl he)
    rw [hside hkept] at hskip hakey
    rw [hside hover] at hupper hbkey
    -- What the other side stands on is further on.
    have hfurther : ∀ {n : SortedMap K V} {x}, n.nearestKey? forwards (notBehind forwards (some k)) = some x →
        x ≠ k → Ahead forwards k x := by
      intro n x hx hne
      exact (notBehind_some.mp (nearestKey?_eq_some.mp hx).2.1).resolve_left hne
    rcases (hm (k, v)).mp hv with hv | hv
    · rw [nearestKey?_notBehind hv] at hupper hbkey
      refine .upper ?_ hupper hv hskip
      obtain ⟨c, hc, hck⟩ := Option.map_eq_some_iff.mp hbkey
      cases ha : A.entry (skip A updated forwards (A.size base) base) with
      | none => simp only [choose, ha, hc]
      | some a =>
        rw [ha, Option.map_some] at hakey
        obtain ⟨⟨w, hw⟩, -⟩ := nearestKey?_eq_some.mp hakey.symm
        have hne : a.1 ≠ k := by
          intro heq
          have hnot := (mem_kept.mp hw).2
          rw [heq, hup (k, v) hv] at hnot
          cases hnot
        simp only [choose, ha, hc, hck, if_pos (hfurther hakey.symm hne)]
    · rw [nearestKey?_notBehind hv] at hskip hakey
      refine .base ?_ hskip hv hupper
      obtain ⟨a, ha, hak⟩ := Option.map_eq_some_iff.mp hakey
      cases hc : B.entry upper with
      | none => simp only [choose, ha, hc]
      | some c =>
        rw [hc, Option.map_some] at hbkey
        obtain ⟨⟨w, hw⟩, -⟩ := nearestKey?_eq_some.mp hbkey.symm
        have hne : c.1 ≠ k := by
          intro heq
          have hnot := (mem_kept.mp hv).2
          rw [← heq, hup (c.1, w) hw] at hnot
          cases hnot
        simp only [choose, ha, hc, hak, if_neg (hfurther hbkey.symm hne).asymm]

variable {o : Overlay α β}

/-- A step from a key after what is on top has changed at that key, if the iterator that is not stood on is
where the direction needs it. -/
theorem on_step_changed {m₀ : SortedMap K V} {updated₀ : K → Bool} {on₀ : Bool → β → Option K → Prop}
    (h : On m₁ m₀ updated₀ onA on₀ forwards o (some k)) (hmap : ∀ e, e.1 ≠ k → (e ∈ m₂.entries ↔ e ∈ m₀.entries))
    (hupdated : ∀ x, x ≠ k → updated x = updated₀ x) (hk : updated₀ k = true → updated k = true)
    (hup₀ : ∀ e ∈ m₀.entries, updated₀ e.1 = true) {upper : β}
    (hnotified : ∀ {u?}, on₀ forwards o.upper u? → onB forwards upper u?) :
    On m₁ m₂ updated onA onB forwards ((overlay A B updated).step forwards { o with upper })
      (m.nearestKey? forwards fun x => decide (Ahead forwards k x)) := by
  cases h with
  | base hcur hbase hkmem hupper =>
    have hstep : (overlay A B updated).step forwards { o with upper } =
        choose A B updated forwards (A.step forwards o.base) upper := by simp only [overlay, hcur]
    rw [hstep]
    refine choose_spec hA hmem hB hup hm (onward_ahead k) (hA.step hbase) (fun e he => ?_) ?_
    · exact notBehind_nearestKey? (onward_ahead k) (mem_kept.mp he).1
    · have hahead : m₀.nearestKey? forwards (notBehind forwards (some k)) =
          m₂.nearestKey? forwards fun x => decide (Ahead forwards k x) := by
        -- The key is not among those that were on top.
        have hkind : ∀ e ∈ m₀.entries, notBehind forwards (some k) e.1 = decide (Ahead forwards k e.1) := by
          intro e he
          rw [Bool.eq_iff_iff, notBehind_some, decide_eq_true_iff]
          refine or_iff_right fun heq => ?_
          have hnot := (mem_kept.mp hkmem).2
          rw [← heq, hup₀ e he] at hnot
          cases hnot
        refine (nearestKey?_congr (q := fun x => decide (Ahead forwards k x)) hkind).trans ?_
        refine nearestKey?_eq_of_mem fun e he => (hmap e ?_).symm
        exact (of_decide_eq_true he).ne.symm
      rw [← hahead]
      exact hnotified hupper
  | upper hcur hupper hkmem hbase =>
    have hstep : (overlay A B updated).step forwards { o with upper } =
        choose A B updated forwards o.base (B.step forwards upper) := by simp only [overlay, hcur]
    rw [hstep]
    refine choose_spec hA hmem hB hup hm (onward_ahead k) hbase (fun e he => ?_) (hB.step (hnotified hupper))
    obtain ⟨he, hnot⟩ := mem_kept.mp he
    have hne : e.1 ≠ k := by
      intro heq
      rw [heq, hk (hup₀ _ hkmem)] at hnot
      cases hnot
    rw [hupdated _ hne] at hnot
    rw [notBehind_nearestKey? (onward_notBehind k) (mem_kept.mpr ⟨he, hnot⟩), Bool.eq_iff_iff, notBehind_some,
      decide_eq_true_iff]
    exact or_iff_right hne

/-- A step from a key, if the iterator that is not stood on is where the direction needs it. -/
theorem on_step (h : On m₁ m₂ updated onA onB forwards o (some k)) :
    On m₁ m₂ updated onA onB forwards ((overlay A B updated).step forwards o)
      (m.nearestKey? forwards fun x => decide (Ahead forwards k x)) :=
  on_step_changed hA hmem hB hup hm h (fun _ _ => Iff.rfl) (fun _ _ => rfl) id hup id

/-- The two are sent to the same end. -/
theorem on_start (hbase : onA forwards (A.start forwards o.base) (m₁.nearestKey? forwards fun _ => true))
    (hupper : onB forwards (B.start forwards o.upper) (m₂.nearestKey? forwards fun _ => true)) :
    On m₁ m₂ updated onA onB forwards ((overlay A B updated).start forwards o)
      (m.nearestKey? forwards fun _ => true) := by
  have hall : Onward forwards fun _ : K => true := fun _ _ _ _ => rfl
  refine choose_spec hA hmem hB hup hm hall hbase (fun e he => ?_) hupper
  exact notBehind_nearestKey? hall (mem_kept.mp he).1

omit hA hmem hB hup in
theorem On.mem (h : On m₁ m₂ updated onA onB forwards o (some k)) : ∃ v, (k, v) ∈ m.entries := by
  cases h with
  | base hcur hbase hkmem hupper => exact ⟨_, (hm _).mpr (.inr hkmem)⟩
  | upper hcur hupper hkmem hbase => exact ⟨_, (hm _).mpr (.inl hkmem)⟩

omit hA hmem hB hup hm in
/-- Wherever the two stand, each of them stands somewhere. -/
theorem On.parts {k? : Option K} (h : On m₁ m₂ updated onA onB forwards o k?) :
    ∃ d b? d' u?, onA d o.base b? ∧ onB d' o.upper u? := by
  cases h with
  | nowhere hcur hbase hupper => exact ⟨_, _, _, _, hbase, hupper⟩
  | base hcur hbase hkmem hupper => exact ⟨_, _, _, _, hbase, hupper⟩
  | upper hcur hupper hkmem hbase => exact ⟨_, _, _, _, hbase, hupper⟩

/-- The two as one walk through the merged entries. -/
theorem walks_overlay : (overlay A B updated).Walks m (On m₁ m₂ updated onA onB) where
  key := by
    intro d o k? h
    cases h with
    | nowhere hcur hbase hupper => simp [overlay, hcur]
    | base hcur hbase hkmem hupper =>
      simp only [overlay, hcur]
      exact hA.key hbase
    | upper hcur hupper hkmem hbase =>
      simp only [overlay, hcur]
      exact hB.key hupper
  value := by
    intro d o e h he
    obtain ⟨k, v⟩ := e
    cases h with
    | base hcur hbase hkmem hupper =>
      rename_i w
      have hsame : (k, w) = (k, v) := eq_of_mem ((hm _).mpr (.inr hkmem)) he rfl
      rw [hsame] at hkmem
      simp only [overlay, hcur]
      exact hA.value hbase (mem_kept.mp hkmem).1
    | upper hcur hupper hkmem hbase =>
      rename_i w
      have hsame : (k, w) = (k, v) := eq_of_mem ((hm _).mpr (.inl hkmem)) he rfl
      rw [hsame] at hkmem
      simp only [overlay, hcur]
      exact hB.value hupper hkmem
  step := on_step hA hmem hB hup hm
  size := by
    intro d o k? h
    obtain ⟨d₁, b?, d₂, u?, hbase, hupper⟩ := h.parts
    have hnodup : m.entries.Nodup := m.sorted.imp fun hlt heq => absurd (heq ▸ hlt) (lt_irrefl _)
    have hsub : m.entries ⊆ m₁.entries ++ m₂.entries := by
      intro e he
      rcases (hm e).mp he with he | he
      · exact mem_append_right _ he
      · exact mem_append_left _ (mem_kept.mp he).1
    have hle := (subperm_of_subset hnodup hsub).length_le
    rw [length_append] at hle
    exact hle.trans (Nat.add_le_add (hA.size hbase) (hB.size hupper))

theorem starts_overlay {seekable : K → Prop} (hA' : A.Starts m₁ onA seekable) (hB' : B.Starts m₂ onB seekable) :
    (overlay A B updated).Starts m (On m₁ m₂ updated onA onB) seekable where
  start := by
    intro d d' o k? h
    obtain ⟨d₁, b?, d₂, u?, hbase, hupper⟩ := h.parts
    exact on_start hA hmem hB hup hm (hA'.start hbase) (hB'.start hupper)
  seek := by
    intro d' o k? key h hkey
    obtain ⟨d₁, b?, d₂, u?, hbase, hupper⟩ := h.parts
    have hfrom : Onward true fun x : K => decide (key ≤ x) :=
      fun x y hx hxy => decide_eq_true ((of_decide_eq_true hx).trans (le_of_lt hxy))
    refine choose_spec hA hmem hB hup hm hfrom (hA'.seek hbase hkey) (fun e he => ?_) (hB'.seek hupper hkey)
    exact notBehind_nearestKey? hfrom (mem_kept.mp he).1

end Moves

/-! ## A cursor on a map -/

/-- The cursor on a map, as an iterator. -/
def ofMap (m : SortedMap K V) : TwoWay (Position K) K V where
  entry pos := pos.entry? m
  start forwards _ := .start m forwards
  step forwards pos := pos.move m forwards
  seek key pos := pos.call m (.seek key)
  size _ := m.entries.length

/-- It stands on a key of the map. -/
def OnMap (m : SortedMap K V) (pos : Position K) (k? : Option K) : Prop :=
  pos.key? = k? ∧ ∀ k ∈ k?, ∃ v, (k, v) ∈ m.entries

theorem onMap_ofEntry (m : SortedMap K V) (d : Bool) (p : K → Bool) :
    OnMap m (.ofEntry (m.nearest? d p)) (m.nearestKey? d p) := by
  refine ⟨Position.key?_ofEntry _, fun k hk => ?_⟩
  exact (nearestKey?_eq_some.mp hk).1

theorem walks_ofMap (m : SortedMap K V) : (ofMap m).Walks m fun _ => OnMap m where
  key := by
    rintro d pos k? ⟨hkey, hmem⟩
    simp only [ofMap, Position.entry?, hkey]
    cases k? with
    | none => rfl
    | some k =>
      obtain ⟨v, hv⟩ := hmem k rfl
      simp [SortedMap.get?_eq_some.mpr hv]
  value := by
    rintro d pos e ⟨hkey, -⟩ he
    simp [ofMap, Position.entry?, hkey, SortedMap.get?_eq_some.mpr he]
  step := by
    rintro d pos k ⟨hkey, -⟩
    cases pos with
    | fresh => cases hkey
    | exhausted => cases hkey
    | standing k' =>
      cases hkey
      exact onMap_ofEntry m d _
  size := by
    intro d pos k? _
    exact le_rfl

theorem starts_ofMap (m : SortedMap K V) (seekable : K → Prop) : (ofMap m).Starts m (fun _ => OnMap m) seekable where
  start := by
    intro d d' pos k? _
    exact onMap_ofEntry m d _
  seek := by
    intro d' pos k? key _ _
    exact onMap_ofEntry m true _

end TwoWay
end NogoCommons.Lib
