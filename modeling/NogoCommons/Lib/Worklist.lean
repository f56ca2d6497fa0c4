import Mathlib.Logic.Relation
import Mathlib.Data.Set.Insert

/-!
# Worklists

A loop with a stack of things to visit: it takes one off the stack, visits it, which changes the
state, and pushes what the visit has found. Two rules are proved for it. If what a visit pushes is
paid for by the state, the loop comes to its end, and what every visit keeps holds there
(`worklist_returns`). And if a visit pushes the successors of what it visits, then at the end
exactly what can be reached has been visited (`Explored.complete`), in whatever order, and also if
something was visited twice.
-/

namespace NogoCommons.Lib
open List
variable {α σ : Type}

/-- The loop, for at most so many visits. -/
def worklist (visit : σ → α → Option (List α × σ)) : Nat → List α → σ → Option σ
  | _, [], s => some s
  | 0, _ :: _, _ => none
  | n + 1, a :: stack, s => do
    let (found, s) ← visit s a
    worklist visit n (found ++ stack) s

/-- Every visit takes one thing off the stack, and the state gets smaller by what it pushes. -/
theorem worklist_returns {visit : σ → α → Option (List α × σ)} {I : List α → σ → Prop} (size : σ → Nat)
    (hvisit : ∀ s a stack, I (a :: stack) s → ∃ found s', visit s a = some (found, s') ∧
      found.length + size s' ≤ size s ∧ I (found ++ stack) s') :
    ∀ {n} {stack} {s}, stack.length + size s ≤ n → I stack s →
      ∃ s', worklist visit n stack s = some s' ∧ I [] s'
  | n, [], s, _, hI => by
    cases n <;> exact ⟨s, rfl, hI⟩
  | 0, _ :: _, _, hn, _ => by
    rw [length_cons] at hn
    omega
  | n + 1, a :: stack, s, hn, hI => by
    obtain ⟨found, s', hrun, hsize, hI'⟩ := hvisit s a stack hI
    rw [length_cons] at hn
    have hlen : (found ++ stack).length + size s' ≤ n := by
      rw [length_append]
      omega
    obtain ⟨t, ht, hIt⟩ := worklist_returns size hvisit hlen hI'
    exact ⟨t, by rw [worklist, hrun]; exact ht, hIt⟩

/-- How far an exploration from `root` has come: what has been visited, and what is on the stack. -/
structure Explored (edge : α → α → Prop) (root : α) (done : Set α) (stack : List α) : Prop where
  doneReached : ∀ a ∈ done, Relation.ReflTransGen edge root a
  stackReached : ∀ a ∈ stack, Relation.ReflTransGen edge root a
  root : root ∈ done ∨ root ∈ stack
  closed : ∀ a ∈ done, ∀ b, edge a b → b ∈ done ∨ b ∈ stack

namespace Explored
variable {edge : α → α → Prop} {root : α} {done : Set α} {stack : List α}

theorem start (edge : α → α → Prop) (root : α) : Explored edge root ∅ [root] where
  doneReached _ h := h.elim
  stackReached _ h := mem_singleton.mp h ▸ .refl
  root := .inr mem_cons_self
  closed _ h := h.elim

theorem pop {a : α} (h : Explored edge root done (a :: stack)) {found : List α} (hfound : ∀ b ∈ found, edge a b)
    (hall : a ∉ done → ∀ b, edge a b → b ∈ found) :
    Explored edge root (insert a done) (found ++ stack) := by
  have hreach := h.stackReached a mem_cons_self
  -- What was known before is known still: `a` itself is visited now.
  have keep : ∀ b, b ∈ done ∨ b ∈ a :: stack → b ∈ insert a done ∨ b ∈ found ++ stack := by
    rintro b (hb | hb)
    · exact .inl (.inr hb)
    · rcases mem_cons.mp hb with rfl | hb
      · exact .inl (.inl rfl)
      · exact .inr (mem_append_right _ hb)
  constructor
  · rintro b (rfl | hb)
    · exact hreach
    · exact h.doneReached b hb
  · intro b hb
    rcases mem_append.mp hb with hb | hb
    · exact hreach.tail (hfound b hb)
    · exact h.stackReached b (mem_cons_of_mem _ hb)
  · exact keep _ h.root
  · rintro b hb c hbc
    by_cases hdone : b ∈ done
    · exact keep c (h.closed b hdone c hbc)
    · obtain rfl : b = a := hb.resolve_right hdone
      exact .inr (mem_append_left _ (hall hdone c hbc))

/-- With the stack empty, what is visited is what can be reached. -/
theorem complete (h : Explored edge root done []) {a : α} : a ∈ done ↔ Relation.ReflTransGen edge root a := by
  have hin : ∀ {b}, b ∈ done ∨ b ∈ ([] : List α) → b ∈ done := fun hb =>
    hb.resolve_right not_mem_nil
  refine ⟨h.doneReached a, fun hreach => ?_⟩
  induction hreach with
  | refl => exact hin h.root
  | tail _ hbc ih => exact hin (h.closed _ ih _ hbc)

end Explored
end NogoCommons.Lib
