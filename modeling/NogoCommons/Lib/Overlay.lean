import NogoCommons.Lib.SortedMap

/-!
# Scans of a map laid over another one

An iterator is judged by the list of the entries it still has to deliver (`Iter.Lists`). A list is
scanned by a cursor on it. Two iterators are scanned as one if the entries of the one replace, or
delete, those of the other: the base skips what is `updated`, and of the two entries that are next
the smaller one comes first.

`choose_cases` says what one such step can do. It asks nothing of the iterator on top and holds for
any set of updated keys, so that it serves a scan during which both change. If nothing changes, the
scan delivers the entries on top and those below that are not updated (`lists_choose`).
-/

namespace NogoCommons.Lib
open List

/-- The part of an iterator that a forward scan uses. -/
structure Iter (σ K V : Type) where
  /-- What the iterator stands on. -/
  entry : σ → Option (K × V)
  next : σ → σ
  /-- At least as many entries as are still to come. -/
  size : σ → Nat

namespace Iter
variable {σ K V : Type}

/-- The iterator stands on the first of these entries and delivers the others after it. -/
def Lists (A : Iter σ K V) : σ → List (K × V) → Prop
  | s, [] => A.entry s = none
  | s, e :: es => A.entry s = some e ∧ es.length < A.size s ∧ A.Lists (A.next s) es

theorem Lists.length_le {A : Iter σ K V} {s : σ} {es : List (K × V)} (h : A.Lists s es) : es.length ≤ A.size s := by
  cases es with
  | nil => exact Nat.zero_le _
  | cons e es => exact h.2.1

end Iter

/-! ## A cursor on a list -/

/-- Position 0 is before the first entry, a position above the length is after the last. -/
structure ListCursor (K V : Type) where
  entries : List (K × V)
  pos : Nat

namespace ListCursor
variable {K V : Type}

def iter : Iter (ListCursor K V) K V where
  entry c := if c.pos = 0 then none else c.entries[c.pos - 1]?
  next c := { c with pos := min (c.pos + 1) (c.entries.length + 1) }
  size c := c.entries.length + 1 - c.pos

def first (entries : List (K × V)) : ListCursor K V := ⟨entries, 1⟩

theorem lists_drop (entries : List (K × V)) : ∀ n i, i + n = entries.length →
    iter.Lists ⟨entries, i + 1⟩ (entries.drop i)
  | 0, i, h => by
    rw [drop_eq_nil_of_le (by omega)]
    simp [Iter.Lists, iter, show entries.length = i by omega]
  | n + 1, i, h => by
    rw [drop_eq_getElem_cons (by omega)]
    refine ⟨by simp [iter, show i < entries.length by omega], ?_, ?_⟩
    · rw [length_drop]
      show _ < entries.length + 1 - (i + 1)
      omega
    · have hnext : iter.next ⟨entries, i + 1⟩ = ⟨entries, i + 1 + 1⟩ := by
        simp only [iter]
        congr 1
        omega
      rw [hnext]
      exact lists_drop entries n (i + 1) (by omega)

theorem lists_first (entries : List (K × V)) : iter.Lists (first entries) entries :=
  lists_drop entries entries.length 0 (by omega)

end ListCursor

/-! ## Two iterators as one -/

inductive Side where
  | base
  | upper

/-- Two iterators, and the one of them the scan stands on. -/
structure Overlay (α β : Type) where
  base : α
  upper : β
  current : Option Side

namespace Overlay
variable {α β K V : Type} (A : Iter α K V) (B : Iter β K V)

/-- The base is moved past entries that are updated. -/
def skip (updated : K → Bool) : Nat → α → α
  | 0, s => s
  | n + 1, s =>
    match A.entry s with
    | none => s
    | some e => if updated e.1 then skip updated n (A.next s) else s

section Choose
variable [LT K] [DecidableLT K] (updated : K → Bool)

/-- Skip on the base, then stand on the smaller of the two entries. -/
def choose (base : α) (upper : β) : Overlay α β :=
  let base := skip A updated (A.size base) base
  { base, upper
    current :=
      match A.entry base, B.entry upper with
      | none, none => none
      | some _, none => some .base
      | none, some _ => some .upper
      | some a, some b => if b.1 < a.1 then some .upper else some .base }

def next (o : Overlay α β) : Overlay α β :=
  match o.current with
  | none => o
  | some .base => choose A B updated (A.next o.base) o.upper
  | some .upper => choose A B updated o.base (B.next o.upper)

end Choose

def entry (o : Overlay α β) : Option (K × V) :=
  match o.current with
  | none => none
  | some .base => A.entry o.base
  | some .upper => B.entry o.upper

/-- The two iterators as one iterator. -/
def iter [LT K] [DecidableLT K] (updated : K → Bool) : Iter (Overlay α β) K V where
  entry := entry A B
  next := next A B updated
  size o := A.size o.base + B.size o.upper

variable {A B}

/-- Skipping drops only updated entries, and stops at one that is not. -/
theorem lists_skip (updated : K → Bool) : ∀ {n} {s} {L}, A.Lists s L → L.length ≤ n →
    ∃ L', A.Lists (skip A updated n s) L' ∧ L' <:+ L ∧
      (∀ e, updated e.1 = false → (e ∈ L' ↔ e ∈ L)) ∧ ∀ e ∈ L'.head?, updated e.1 = false
  | 0, s, L, h, hn => by
    obtain rfl := length_eq_zero_iff.mp (Nat.le_zero.mp hn)
    exact ⟨[], h, suffix_rfl, fun _ _ => Iff.rfl, by simp⟩
  | n + 1, s, [], h, _ => by
    have hentry : A.entry s = none := h
    rw [skip, hentry]
    exact ⟨[], h, suffix_rfl, fun _ _ => Iff.rfl, by simp⟩
  | n + 1, s, e :: L, h, hn => by
    rw [skip, h.1]
    cases hu : updated e.1 with
    | false =>
      simp only [hu, Bool.false_eq_true, if_false]
      exact ⟨e :: L, h, suffix_rfl, fun _ _ => Iff.rfl, by simpa using hu⟩
    | true =>
      obtain ⟨L', hL', hsuf, hmem, hhead⟩ :=
        lists_skip updated h.2.2 (Nat.le_of_succ_le_succ hn)
      simp only [hu, if_true]
      refine ⟨L', hL', hsuf.trans (suffix_cons e L), fun x hx => ?_, hhead⟩
      have hne : x ≠ e := fun heq => by simp [heq, hu] at hx
      rw [hmem x hx, mem_cons, or_iff_right hne]

section Choose
variable [LT K] [DecidableLT K]

/-- What `choose` can do. -/
inductive Chosen (B : Iter β K V) (updated : K → Bool) (upper : β) (o : Overlay α β)
    (L' : List (K × V)) : Prop
  | exhausted (hcur : o.current = none) (hbase : L' = []) (hover : B.entry upper = none)
  | base (hcur : o.current = some .base) (a : K × V) (L'' : List (K × V)) (hL : L' = a :: L'')
      (hnew : updated a.1 = false)
  | upper (hcur : o.current = some .upper) (b : K × V) (hover : B.entry upper = some b)

theorem choose_cases (B : Iter β K V) (updated : K → Bool) (upper : β) {base : α} {L : List (K × V)}
    (hL : A.Lists base L) :
    ∃ L', A.Lists (choose A B updated base upper).base L' ∧ L' <:+ L ∧
      (∀ e, updated e.1 = false → (e ∈ L' ↔ e ∈ L)) ∧
      Chosen B updated upper (choose A B updated base upper) L' := by
  obtain ⟨L', hL', hsuf, hmem, hhead⟩ := lists_skip updated hL hL.length_le
  refine ⟨L', hL', hsuf, hmem, ?_⟩
  cases L' with
  | nil =>
    have hentry : A.entry (skip A updated (A.size base) base) = none := hL'
    cases hover : B.entry upper with
    | none => exact .exhausted (by simp [choose, hentry, hover]) rfl hover
    | some b => exact .upper (by simp [choose, hentry, hover]) b hover
  | cons a L'' =>
    have hentry : A.entry (skip A updated (A.size base) base) = some a := hL'.1
    have hnew : updated a.1 = false := hhead a rfl
    cases hover : B.entry upper with
    | none => exact .base (by simp [choose, hentry, hover]) a L'' rfl hnew
    | some b =>
      by_cases hlt : b.1 < a.1
      · exact .upper (by simp [choose, hentry, hover, hlt]) b hover
      · exact .base (by simp [choose, hentry, hover, hlt]) a L'' rfl hnew

/-- A scan with nothing changing delivers both lists, without what is updated below. -/
theorem lists_choose (updated : K → Bool) {base : α} {upper : β} {L C : List (K × V)}
    (hL : A.Lists base L) (hC : B.Lists upper C) :
    ∃ M, (iter A B updated).Lists (choose A B updated base upper) M ∧
      M.length ≤ L.length + C.length ∧
      ∀ e, e ∈ M ↔ e ∈ C ∨ e ∈ L ∧ updated e.1 = false := by
  -- Each step takes an entry off one of the two lists.
  generalize hn : L.length + C.length = n
  induction n using Nat.strong_induction_on generalizing base upper L C with
  | _ n ih =>
    obtain ⟨L', hL', hsuf, hmem, hcase⟩ := choose_cases B updated upper hL
    have hlen := hsuf.length_le
    have below : ∀ e, e ∈ L ∧ updated e.1 = false ↔ e ∈ L' ∧ updated e.1 = false := fun e =>
      and_congr_left fun hu => (hmem e hu).symm
    simp only [below]
    have hCsize := hC.length_le
    cases hcase with
    | exhausted hcur hbase hover =>
      have hCnil : C = [] := by
        cases C with
        | nil => rfl
        | cons c C => exact absurd (hover.symm.trans hC.1) (by simp)
      refine ⟨[], ?_, Nat.zero_le _, by simp [hbase, hCnil]⟩
      show entry A B _ = none
      rw [entry, hcur]
    | base hcur a L'' hcons hnew =>
      subst hcons
      obtain ⟨hentry, hsize, hrest⟩ := hL'
      rw [length_cons] at hlen
      obtain ⟨M, hM, hMlen, hMmem⟩ := ih _ (by omega) hrest hC rfl
      refine ⟨a :: M, ⟨?_, ?_, ?_⟩, ?_, fun e => ?_⟩
      · show entry A B _ = some a
        rwa [entry, hcur]
      · show M.length < A.size _ + B.size upper
        omega
      · show (iter A B updated).Lists (next A B updated _) M
        rwa [next, hcur]
      · rw [length_cons]
        omega
      · simp only [mem_cons, hMmem, or_and_right]
        constructor
        · rintro (rfl | h | h)
          · exact .inr (.inl ⟨rfl, hnew⟩)
          · exact .inl h
          · exact .inr (.inr h)
        · rintro (h | ⟨rfl, -⟩ | h)
          · exact .inr (.inl h)
          · exact .inl rfl
          · exact .inr (.inr h)
    | upper hcur b hover =>
      cases C with
      | nil => exact absurd (hover.symm.trans hC) (by simp)
      | cons c C =>
        obtain ⟨hentry, hsize, hrest⟩ := hC
        have hLsize := hL'.length_le
        rw [length_cons] at hn
        obtain ⟨M, hM, hMlen, hMmem⟩ := ih _ (by omega) hL' hrest rfl
        refine ⟨c :: M, ⟨?_, ?_, ?_⟩, ?_, fun e => ?_⟩
        · show entry A B _ = some c
          rwa [entry, hcur]
        · show M.length < A.size _ + B.size upper
          omega
        · show (iter A B updated).Lists (next A B updated _) M
          rwa [next, hcur]
        · rw [length_cons]
          omega
        · simp only [mem_cons, hMmem, or_assoc]

end Choose
end Overlay
end NogoCommons.Lib
