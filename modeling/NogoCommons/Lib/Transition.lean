import Mathlib.Logic.Relation
import Mathlib.Algebra.BigOperators.Fin

/-!
# Interleavings

A program of several goroutines is a state and a function `next` that says what one atomic step
does: the label names who moves, `none` means that this one cannot. A schedule is a list of
labels, and every interleaving is one.

A few things are proved once. What every step keeps, every run keeps (`Reaches.invariant`). If each
step spends some of a number, no run goes on for ever, so that from every state some run ends where
nobody can move (`exists_stuck`); and if besides nobody is stuck before the end, every run gets there,
whoever moves (`Inevitable.of_fuel`). And where the steps are calls that answer something, two sides
whose calls answer the same have the same answers in every run (`runAnswers_eq_of_simulates`).
-/

namespace NogoCommons.Lib
variable {σ ℓ : Type}

/-- One step of somebody. -/
def Steps (next : σ → ℓ → Option σ) (s t : σ) : Prop := ∃ l, next s l = some t

/-- Some interleaving leads from one state to the other. -/
def Reaches (next : σ → ℓ → Option σ) : σ → σ → Prop := Relation.ReflTransGen (Steps next)

/-- The state a schedule leads to. -/
def runSchedule (next : σ → ℓ → Option σ) (s : σ) (ls : List ℓ) : Option σ := ls.foldlM next s

/-- Nobody with one of the labels in `who` can move. -/
def Stuck (next : σ → ℓ → Option σ) (who : ℓ → Prop) (s : σ) : Prop :=
  ∀ l, who l → next s l = none

variable {next : σ → ℓ → Option σ} {s t u : σ} {l : ℓ}

theorem Reaches.refl (s : σ) : Reaches next s s := Relation.ReflTransGen.refl

theorem Reaches.trans (h : Reaches next s t) (h' : Reaches next t u) : Reaches next s u :=
  Relation.ReflTransGen.trans h h'

theorem Reaches.step (h : Reaches next s t) (ht : next t l = some u) : Reaches next s u :=
  Relation.ReflTransGen.tail h ⟨l, ht⟩

theorem runSchedule_cons {ls : List ℓ} (h : runSchedule next s (l :: ls) = some u) :
    ∃ t, next s l = some t ∧ runSchedule next t ls = some u := by
  simpa [runSchedule, List.foldlM_cons, Option.bind_eq_some_iff] using h

theorem Reaches.of_runSchedule : ∀ {ls} {s}, runSchedule next s ls = some t → Reaches next s t
  | [], s, h => by
    obtain rfl : s = t := Option.some.inj h
    exact .refl s
  | l :: ls, s, h => by
    obtain ⟨s', hs', hrest⟩ := runSchedule_cons h
    exact ((Reaches.refl s).step hs').trans (.of_runSchedule hrest)

/-- What every step keeps, every run keeps. -/
theorem Reaches.invariant {I : σ → Prop} (hI : ∀ s l t, I s → next s l = some t → I t)
    (h : Reaches next s t) (hs : I s) : I t := by
  induction h with
  | refl => exact hs
  | tail _ hstep ih =>
    obtain ⟨l, hl⟩ := hstep
    exact hI _ l _ ih hl

/-- A run all of whose steps meet a condition on the label and the state it is taken in. -/
def ReachesWhen (next : σ → ℓ → Option σ) (ok : σ → ℓ → Prop) : σ → σ → Prop :=
  Relation.ReflTransGen fun s t => ∃ l, ok s l ∧ next s l = some t

theorem ReachesWhen.invariant {ok : σ → ℓ → Prop} {I : σ → Prop}
    (hI : ∀ s l t, I s → ok s l → next s l = some t → I t) (h : ReachesWhen next ok s t) (hs : I s) : I t := by
  induction h with
  | refl => exact hs
  | tail _ hstep ih =>
    obtain ⟨l, hok, hl⟩ := hstep
    exact hI _ l _ ih hok hl

/-- The same for one schedule, whose labels may be restricted. -/
theorem runSchedule_invariant {I : σ → Prop} {P : ℓ → Prop}
    (hI : ∀ s l t, I s → P l → next s l = some t → I t) : ∀ {ls} {s},
    (∀ l ∈ ls, P l) → I s → runSchedule next s ls = some t → I t
  | [], s, _, hs, h => by
    cases h
    exact hs
  | l :: ls, s, hP, hs, h => by
    obtain ⟨s', hs', hrest⟩ := runSchedule_cons h
    exact runSchedule_invariant hI (fun l' hl' => hP l' (List.mem_cons_of_mem l hl'))
      (hI s l s' hs (hP l List.mem_cons_self) hs') hrest

/-- If every step spends some of `fuel`, then from every state a run of the labels in `who` ends
where none of them can move; and what each step of the run keeps still holds there. -/
theorem exists_stuck {who : ℓ → Prop} {I : σ → Prop} (fuel : σ → Nat)
    (hspend : ∀ s l t, I s → next s l = some t → fuel t < fuel s)
    (hI : ∀ s l t, I s → who l → next s l = some t → I t) (s : σ) (hs : I s) :
    ∃ t, Reaches next s t ∧ I t ∧ Stuck next who t := by
  by_cases hstuck : Stuck next who s
  · exact ⟨s, .refl s, hs, hstuck⟩
  · obtain ⟨l, hwho, hl⟩ : ∃ l, who l ∧ next s l ≠ none := by
      simpa [Stuck] using hstuck
    obtain ⟨s', hs'⟩ := Option.ne_none_iff_exists'.mp hl
    have hlt := hspend s l s' hs hs'
    obtain ⟨t, hreach, hrest⟩ := exists_stuck fuel hspend hI s' (hI s l s' hs hwho hs')
    exact ⟨t, ((Reaches.refl s).step hs').trans hreach, hrest⟩
termination_by fuel s

/-- Whatever happens, `P` is reached: it holds already, or somebody can move and every move leads to such a state again.
Only steps that meet the condition `ok` count, and steps with an idle label are left out: they may come at any time
but change nothing. -/
inductive Inevitable (next : σ → ℓ → Option σ) (ok : σ → ℓ → Prop) (idle : ℓ → Prop) (P : σ → Prop) : σ → Prop
  | now {s : σ} (h : P s) : Inevitable next ok idle P s
  | later {s : σ} (hmove : ∃ l t, ¬ idle l ∧ ok s l ∧ next s l = some t)
    (hidle : ∀ l t, idle l → next s l = some t → t = s)
    (hall : ∀ l t, ¬ idle l → ok s l → next s l = some t → Inevitable next ok idle P t) : Inevitable next ok idle P s

/-- If every step spends some of `fuel`, and nobody is stuck before `P` holds, then `P` is inevitable. -/
theorem Inevitable.of_fuel {ok : σ → ℓ → Prop} {idle : ℓ → Prop} {I P : σ → Prop} (fuel : σ → Nat)
    (hI : ∀ s l t, I s → ok s l → next s l = some t → I t)
    (hspend : ∀ s l t, I s → ¬ idle l → ok s l → next s l = some t → fuel t < fuel s)
    (hidle : ∀ s l t, I s → idle l → next s l = some t → t = s)
    (hstuck : ∀ s, I s → (∀ l, ¬ idle l → ok s l → next s l = none) → P s) (s : σ) (hs : I s) :
    Inevitable next ok idle P s := by
  by_cases hmove : ∃ l t, ¬ idle l ∧ ok s l ∧ next s l = some t
  · refine .later hmove (fun l t => hidle s l t hs) fun l t hl hok ht => ?_
    have hlt := hspend s l t hs hl hok ht
    exact Inevitable.of_fuel fuel hI hspend hidle hstuck t (hI s l t hs hok ht)
  · refine .now (hstuck s hs fun l hl hok => ?_)
    rw [Option.eq_none_iff_forall_ne_some]
    exact fun t ht => hmove ⟨l, t, hl, hok, ht⟩
termination_by fuel s

/-- What holds of every state with the invariant may be used where `P` is reached. -/
theorem Inevitable.mono {ok : σ → ℓ → Prop} {idle : ℓ → Prop} {I P Q : σ → Prop}
    (hI : ∀ s l t, I s → ok s l → next s l = some t → I t) (hPQ : ∀ s, I s → P s → Q s) (h : Inevitable next ok idle P s) :
    I s → Inevitable next ok idle Q s := by
  induction h with
  | now h => exact fun hs => .now (hPQ _ hs h)
  | later hmove hidle hall ih => exact fun hs => .later hmove hidle fun l t hl hok ht => ih l t hl hok ht (hI _ l t hs hok ht)

/-- How a sum over the goroutines changes when one of them moves from `a` to `b`. -/
theorem sum_update_move {α : Type} {n : Nat} (g : α → Nat) {f : Fin n → α} {i : Fin n} {a : α} (ha : f i = a) (b : α) :
    ∑ j, g (Function.update f i b j) + g a = ∑ j, g (f j) + g b := by
  have hrest : ∑ j ∈ Finset.univ.erase i, g (Function.update f i b j) =
      ∑ j ∈ Finset.univ.erase i, g (f j) := by
    refine Finset.sum_congr rfl fun j hj => ?_
    rw [Function.update_of_ne (Finset.ne_of_mem_erase hj)]
  rw [← Finset.add_sum_erase _ _ (Finset.mem_univ i), hrest, Function.update_self,
    ← Finset.add_sum_erase Finset.univ (fun j => g (f j)) (Finset.mem_univ i), ha]
  omega

/-! ## What is answered on the way -/

section Answers
variable {τ α : Type}

/-- What the calls of a run answer, if all of them do. -/
def runAnswers (call : σ → ℓ → Option (α × σ)) : σ → List ℓ → Option (List α)
  | _, [] => some []
  | s, l :: ls => (call s l).bind fun r => (runAnswers call r.2 ls).map (r.1 :: ·)

/-- Every call of a run is made in a state that meets a condition. -/
def AllCalls (call : σ → ℓ → Option (α × σ)) (ok : σ → ℓ → Prop) : σ → List ℓ → Prop
  | _, [] => True
  | s, l :: ls => ok s l ∧ ∀ r, call s l = some r → AllCalls call ok r.2 ls

/-- If a call that meets the condition answers what the other side answers, so does a run of such calls. -/
theorem runAnswers_eq_of_simulates {call : σ → ℓ → Option (α × σ)} {call' : τ → ℓ → Option (α × τ)}
    {ok : σ → ℓ → Prop} {R : σ → τ → Prop}
    (hcall : ∀ {s t l a t'}, R s t → ok s l → call' t l = some (a, t') → ∃ s', call s l = some (a, s') ∧ R s' t')
    {ls : List ℓ} : ∀ {s} {t} {as}, R s t → AllCalls call ok s ls →
      runAnswers call' t ls = some as → runAnswers call s ls = some as := by
  induction ls with
  | nil =>
    intro s t as hR hok has
    exact has
  | cons l ls ih =>
    intro s t as hR hok has
    obtain ⟨hl, hrest⟩ := hok
    obtain ⟨⟨a, t'⟩, ht', htail⟩ := Option.bind_eq_some_iff.mp has
    obtain ⟨as', has', rfl⟩ := Option.map_eq_some_iff.mp htail
    obtain ⟨s', hs', hR'⟩ := hcall hR hl ht'
    rw [runAnswers, hs', Option.bind_some, ih hR' (hrest _ hs') has', Option.map_some]

end Answers
end NogoCommons.Lib
