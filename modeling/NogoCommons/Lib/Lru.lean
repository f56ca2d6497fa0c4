import Mathlib.Data.List.Induction
import Mathlib.Data.List.Nodup

/-!
# Least-recently-used caches

What a cache with the least-recently-used policy is, as a list of entries with the most
recently used first. A use moves an entry to the front; an addition past the capacity drops
the last.

The three results are over runs of calls from the empty cache: the keys stay distinct and
within the capacity (`run_wf`), the order is the order of last use (`run_sorted`), and a key is
answered with the value last added for it for as long as nothing has ended that entry
(`lookup_run_iff`). Nothing here says how a cache is stored.
-/

namespace NogoCommons.Lib
open List

universe u v

/-- A call on a cache. -/
inductive CacheOp (K : Type u) (V : Type v) where
  | add (key : K) (value : V)
  | get (key : K)
  | remove (key : K)

/-- The key a call counts as a use of. -/
def CacheOp.used {K : Type u} {V : Type v} : CacheOp K V → Option K
  | .add k _ => some k
  | .get k => some k
  | .remove _ => none

namespace Lru
variable {K : Type u} {V : Type v} [DecidableEq K]

def keys (c : List (K × V)) : List K := c.map Prod.fst
def lookup (c : List (K × V)) (k : K) : Option V := (c.find? (·.1 = k)).map Prod.snd
def erase (c : List (K × V)) (k : K) : List (K × V) := c.filter (·.1 ≠ k)

/-- One call on a cache of capacity `cap`. -/
def step (cap : Nat) (c : List (K × V)) : CacheOp K V → List (K × V)
  | .add k v => ((k, v) :: erase c k).take cap
  | .get k =>
    match lookup c k with
    | some v => (k, v) :: erase c k
    | none => c
  | .remove k => erase c k

/-- The cache after a run of calls. -/
def run (cap : Nat) (ops : List (CacheOp K V)) : List (K × V) := ops.foldl (step cap) []
@[simp] theorem run_nil (cap : Nat) : run cap ([] : List (CacheOp K V)) = [] := rfl

@[simp] theorem run_concat (cap : Nat) (ops : List (CacheOp K V)) (op : CacheOp K V) :
    run cap (ops ++ [op]) = step cap (run cap ops) op := by
  simp [run]

variable {cap : Nat} {c : List (K × V)} {k k' : K} {v v' : V} {op : CacheOp K V}

/-! ## Looking up and erasing -/

theorem lookup_cons (e : K × V) (c : List (K × V)) (k : K) :
    lookup (e :: c) k = if e.1 = k then some e.2 else lookup c k := by
  unfold lookup
  rw [find?_cons]
  by_cases he : e.1 = k <;> simp [he]

theorem lookup_eq_none : lookup c k = none ↔ k ∉ keys c := by
  simp only [lookup, keys, Option.map_eq_none_iff, find?_eq_none, decide_eq_true_eq, mem_map, not_exists, not_and]

theorem mem_keys_iff : k ∈ keys c ↔ ∃ v, lookup c k = some v := by
  rw [← Option.isSome_iff_exists, ← not_iff_not, Option.not_isSome_iff_eq_none, lookup_eq_none]

/-- With distinct keys, looking up a key finds the one entry that has it. -/
theorem lookup_eq_some (hnd : (keys c).Nodup) : lookup c k = some v ↔ (k, v) ∈ c := by
  induction c with
  | nil => simp [lookup]
  | cons e c ih =>
    obtain ⟨k₀, v₀⟩ := e
    obtain ⟨hk₀, hnd'⟩ := nodup_cons.mp hnd
    rw [lookup_cons, mem_cons, Prod.mk.injEq]
    by_cases he : k₀ = k
    · subst he
      have hno : (k₀, v) ∉ c := fun hm => hk₀ (mem_map.mpr ⟨_, hm, rfl⟩)
      simp [hno, eq_comm]
    · simp [he, Ne.symm he, ih hnd']

theorem lookup_erase (c : List (K × V)) (k k' : K) : lookup (erase c k) k' = if k = k' then none else lookup c k' := by
  induction c with
  | nil => simp [erase, lookup]
  | cons e c ih =>
    by_cases he : e.1 = k
    · rw [show erase (e :: c) k = erase c k by simp [erase, he], ih, lookup_cons, he]
      split <;> simp_all
    · rw [show erase (e :: c) k = e :: erase c k by simp [erase, he], lookup_cons, lookup_cons, ih]
      by_cases hk : k = k'
      · subst hk
        simp [he]
      · simp [hk]

theorem erase_sublist (c : List (K × V)) (k : K) : (erase c k).Sublist c := filter_sublist

theorem not_mem_keys_erase (c : List (K × V)) (k : K) : k ∉ keys (erase c k) := by
  rw [← lookup_eq_none, lookup_erase, if_pos rfl]

theorem erase_of_not_mem (hk : k ∉ keys c) : erase c k = c := by
  refine filter_eq_self.mpr fun e he => ?_
  simp only [ne_eq, decide_not, Bool.not_eq_true', decide_eq_false_iff_not]
  rintro rfl
  exact hk (mem_map_of_mem he)

/-- Erasing the key of an entry takes out that entry. -/
theorem erase_split {xs ys : List (K × V)} (hnd : (keys (xs ++ (k, v) :: ys)).Nodup) :
    erase (xs ++ (k, v) :: ys) k = xs ++ ys := by
  simp only [keys, map_append, map_cons, nodup_append, nodup_cons] at hnd
  obtain ⟨-, ⟨hys, -⟩, hxs⟩ := hnd
  have hx : erase xs k = xs :=
    erase_of_not_mem fun hm => hxs k hm k (mem_cons_self ..) rfl
  have hy : erase ys k = ys := erase_of_not_mem hys
  simp only [erase, filter_append] at hx hy ⊢
  rw [hx, filter_cons_of_neg (by simp), hy]

theorem erase_cons_self (hnd : (keys ((k, v) :: c)).Nodup) : erase ((k, v) :: c) k = c :=
  erase_split (show (keys ([] ++ (k, v) :: c)).Nodup from hnd)

theorem erase_length_lt (hk : k ∈ keys c) : (erase c k).length < c.length := by
  obtain ⟨e, he, rfl⟩ := mem_map.mp hk
  exact length_filter_lt_length_iff_exists.mpr ⟨e, he, by simp⟩

/-! ## Distinct keys, within the capacity -/

structure Wf (cap : Nat) (c : List (K × V)) : Prop where
  nodup : (keys c).Nodup
  length_le : c.length ≤ cap

theorem Wf.nodup_front (h : Wf cap c) (k : K) (v : V) : (keys ((k, v) :: erase c k)).Nodup :=
  nodup_cons.mpr
    ⟨not_mem_keys_erase c k, h.nodup.sublist ((erase_sublist c k).map Prod.fst)⟩

/-- Moving a present key to the front stays within the capacity. -/
theorem Wf.front_length_le (h : Wf cap c) (hk : k ∈ keys c) (v : V) : ((k, v) :: erase c k).length ≤ cap := by
  have := erase_length_lt hk
  have := h.length_le
  rw [length_cons]
  omega

theorem step_wf (op : CacheOp K V) (h : Wf cap c) : Wf cap (step cap c op) := by
  cases op with
  | add k v =>
    refine ⟨(h.nodup_front k v).sublist ((take_sublist ..).map Prod.fst), ?_⟩
    exact length_take_le ..
  | get k =>
    simp only [step]
    split
    · rename_i v hv
      exact ⟨h.nodup_front k v, h.front_length_le (mem_keys_iff.mpr ⟨v, hv⟩) v⟩
    · exact h
  | remove k =>
    exact ⟨h.nodup.sublist ((erase_sublist c k).map Prod.fst), Nat.le_trans (erase_sublist c k).length_le h.length_le⟩

/-- **Keys stay distinct and within the capacity.** -/
theorem run_wf (cap : Nat) (ops : List (CacheOp K V)) : Wf cap (run cap ops) := by
  induction ops using List.reverseRecOn with
  | nil => exact ⟨nodup_nil, Nat.zero_le _⟩
  | append_singleton ops op ih =>
    rw [run_concat]
    exact step_wf op ih

/-! ## What each call does to an entry -/

/-- The call is the addition of a new key to a full cache whose last entry has key `k`. -/
def Evicts (cap : Nat) (c : List (K × V)) (op : CacheOp K V) (k : K) : Prop :=
  ∃ k' v', op = .add k' v' ∧ k' ∉ keys c ∧ c.length = cap ∧ (keys c).getLast? = some k

/-- The call ends whatever entry `k` had: it gives the key a new value, removes it, or pushes
it out. -/
def Ends (cap : Nat) (c : List (K × V)) (op : CacheOp K V) (k : K) : Prop :=
  (∃ v, op = .add k v) ∨ op = .remove k ∨ Evicts cap c op k

theorem lookup_front (hk : lookup c k = some v) : lookup ((k, v) :: erase c k) k' = lookup c k' := by
  rw [lookup_cons, lookup_erase]
  split
  · rename_i h
    rw [← h, hk]
  · rfl

/-- An addition to a cache with room keeps every other entry. -/
theorem step_add_of_room (hk : k ∉ keys c) (hroom : c.length < cap) : step cap c (.add k v) = (k, v) :: c := by
  rw [step, erase_of_not_mem hk]
  exact take_of_length_le hroom

/-- An addition to a full cache drops the last entry. -/
theorem step_add_of_full (hk : k ∉ keys c) (hfull : c.length = cap) (hcap : 1 ≤ cap) :
    step cap c (.add k v) = (k, v) :: c.dropLast := by
  obtain ⟨n, rfl⟩ : ∃ n, cap = n + 1 := ⟨cap - 1, by omega⟩
  rw [step, erase_of_not_mem hk, take_succ_cons, dropLast_eq_take, hfull]
  rfl

/-- An addition of a present key only moves its entry to the front and replaces the value. -/
theorem step_add_of_mem (h : Wf cap c) (hk : k ∈ keys c) : step cap c (.add k v) = (k, v) :: erase c k :=
  take_of_length_le (h.front_length_le hk v)

/-- Dropping the last of distinct entries loses that entry's key and no other. -/
theorem lookup_dropLast (hnd : (keys c).Nodup) (k : K) :
    lookup c.dropLast k = if (keys c).getLast? = some k then none else lookup c k := by
  obtain rfl | ⟨xs, ⟨k₀, v₀⟩, rfl⟩ := eq_nil_or_concat' c
  · rfl
  have hk₀ : k₀ ∉ keys xs := by
    rw [keys, map_append, nodup_append] at hnd
    exact fun hm => hnd.2.2 k₀ hm k₀ (by simp) rfl
  have hlast : (keys (xs ++ [(k₀, v₀)])).getLast? = some k₀ := by simp [keys]
  rw [dropLast_concat, hlast]
  by_cases he : k₀ = k
  · subst he
    rwa [if_pos rfl, lookup_eq_none]
  · rw [if_neg (by simpa using he)]
    simp only [lookup, find?_append]
    simp [he]

theorem lookup_step_add_self (hcap : 1 ≤ cap) (c : List (K × V)) (k : K) (v : V) :
    lookup (step cap c (.add k v)) k = some v := by
  obtain ⟨n, rfl⟩ : ∃ n, cap = n + 1 := ⟨cap - 1, by omega⟩
  rw [step, take_succ_cons, lookup_cons, if_pos rfl]

/-- A use of a present key leaves it present. -/
theorem lookup_step_used (hcap : 1 ≤ cap) (hu : op.used = some k) (hk : k ∈ keys c) :
    ∃ v, lookup (step cap c op) k = some v := by
  cases op with
  | add k' v =>
    obtain rfl : k' = k := by simpa [CacheOp.used] using hu
    exact ⟨v, lookup_step_add_self hcap c k' v⟩
  | get k' =>
    obtain rfl : k' = k := by simpa [CacheOp.used] using hu
    obtain ⟨v, hv⟩ := mem_keys_iff.mp hk
    exact ⟨v, by simp [step, hv, lookup_cons]⟩
  | remove k' => simp [CacheOp.used] at hu

/-- Whatever does not end an entry keeps it. -/
theorem lookup_step_of_not_ends (h : Wf cap c) (hcap : 1 ≤ cap) (hends : ¬ Ends cap c op k) :
    lookup (step cap c op) k = lookup c k := by
  cases op with
  | add k' v' =>
    have hne : k' ≠ k := by
      rintro rfl
      exact hends (.inl ⟨v', rfl⟩)
    by_cases hm : k' ∈ keys c
    · rw [step_add_of_mem h hm, lookup_cons, if_neg hne, lookup_erase, if_neg hne]
    obtain hroom | hfull := Nat.lt_or_eq_of_le h.length_le
    · rw [step_add_of_room hm hroom, lookup_cons, if_neg hne]
    · rw [step_add_of_full hm hfull hcap, lookup_cons, if_neg hne, lookup_dropLast h.nodup,
        if_neg fun hlast => hends (.inr (.inr ⟨k', v', rfl, hm, hfull, hlast⟩))]
  | get k' =>
    simp only [step]
    split
    · rename_i v hv
      exact lookup_front hv
    · rfl
  | remove k' =>
    rw [step, lookup_erase, if_neg]
    rintro rfl
    exact hends (.inr (.inl rfl))

/-- Whatever ends an entry without adding its key again leaves the key absent. -/
theorem lookup_step_of_ends (h : Wf cap c) (hcap : 1 ≤ cap) (hends : Ends cap c op k)
    (hadd : ∀ v, op ≠ .add k v) : lookup (step cap c op) k = none := by
  obtain ⟨v, rfl⟩ | rfl | ⟨k', v', rfl, hm, hfull, hlast⟩ := hends
  · exact absurd rfl (hadd v)
  · rw [step, lookup_erase, if_pos rfl]
  · have hne : k' ≠ k := by
      rintro rfl
      exact hadd v' rfl
    rw [step_add_of_full hm hfull hcap, lookup_cons, if_neg hne, lookup_dropLast h.nodup, if_pos hlast]

/-! ## Which value a key is answered with -/

/-- Some call of the run adds `v` for `k`, and none after it ends that entry. -/
def Kept (cap : Nat) (ops : List (CacheOp K V)) (k : K) (v : V) : Prop :=
  ∃ pre post, ops = pre ++ .add k v :: post ∧
    ∀ mid op rest, post = mid ++ op :: rest →
      ¬ Ends cap (run cap (pre ++ .add k v :: mid)) op k

theorem not_kept_nil : ¬ Kept cap ([] : List (CacheOp K V)) k v := by
  rintro ⟨pre, post, h, -⟩
  simp at h

variable {ops : List (CacheOp K V)}

theorem kept_concat : Kept cap (ops ++ [op]) k v ↔
      op = .add k v ∨ (¬ Ends cap (run cap ops) op k ∧ Kept cap ops k v) := by
  constructor
  · rintro ⟨pre, post, hops, hpost⟩
    obtain rfl | ⟨post, op', rfl⟩ := eq_nil_or_concat' post
    · have := append_inj_right' hops rfl
      exact .inl (by simpa using this)
    · rw [← cons_append, ← append_assoc] at hops
      obtain ⟨rfl, hop⟩ := append_inj' hops rfl
      obtain rfl : op = op' := by simpa using hop
      refine .inr ⟨hpost post op [] rfl, pre, post, rfl, fun mid op₁ rest hmid => ?_⟩
      exact hpost mid op₁ (rest ++ [op]) (by simp [hmid])
  · rintro (rfl | ⟨hends, pre, post, rfl, hpost⟩)
    · exact ⟨ops, [], rfl, fun mid op rest h => by simp at h⟩
    · refine ⟨pre, post ++ [op], by simp, fun mid op₁ rest hmid => ?_⟩
      -- The call asked about is either the last one or one of those before it.
      obtain rfl | ⟨rest, op₂, rfl⟩ := eq_nil_or_concat' rest
      · obtain ⟨rfl, hop⟩ := append_inj' hmid rfl
        obtain rfl : op = op₁ := by simpa using hop
        exact hends
      · rw [← cons_append, ← append_assoc] at hmid
        exact hpost mid op₁ rest (append_inj' hmid rfl).1

/-- **A key is answered with the value last added for it, for as long as nothing has ended
that entry.** -/
theorem lookup_run_iff (hcap : 1 ≤ cap) (ops : List (CacheOp K V)) (k : K) (v : V) :
    lookup (run cap ops) k = some v ↔ Kept cap ops k v := by
  induction ops using List.reverseRecOn with
  | nil => exact ⟨fun h => absurd h (by simp [lookup]), fun h => absurd h not_kept_nil⟩
  | append_singleton ops op ih =>
    have hwf := run_wf cap ops
    rw [run_concat, kept_concat]
    by_cases hends : Ends cap (run cap ops) op k
    · by_cases hadd : ∃ w, op = .add k w
      · obtain ⟨w, rfl⟩ := hadd
        rw [lookup_step_add_self hcap]
        simp [hends]
      · rw [lookup_step_of_ends hwf hcap hends fun w hw => hadd ⟨w, hw⟩]
        simp only [hends, not_true_eq_false, false_and, or_false, reduceCtorEq, false_iff]
        exact fun h => hadd ⟨v, h⟩
    · rw [lookup_step_of_not_ends hwf hcap hends, ih]
      simp only [hends, not_false_eq_true, true_and]
      refine ⟨.inr, fun h => h.resolve_left ?_⟩
      rintro rfl
      exact hends (.inl ⟨v, rfl⟩)

/-! ## The order of last use -/

/-- The number of the last call that used `k`, counting from one; zero where none did. -/
def lastUse (ops : List (CacheOp K V)) (k : K) : Nat :=
  ops.length - ops.reverse.findIdx (·.used = some k)

theorem lastUse_le (ops : List (CacheOp K V)) (k : K) : lastUse ops k ≤ ops.length :=
  Nat.sub_le ..

theorem lastUse_concat_of_used (hu : op.used = some k) : lastUse (ops ++ [op]) k = ops.length + 1 := by
  simp [lastUse, findIdx_cons, hu]

theorem lastUse_concat_of_not_used (hu : op.used ≠ some k) : lastUse (ops ++ [op]) k = lastUse ops k := by
  simp [lastUse, findIdx_cons, hu]

/-- The entries stand in the order of last use, the latest first. -/
def Sorted (ops : List (CacheOp K V)) (c : List (K × V)) : Prop :=
  (keys c).Pairwise fun a b => lastUse ops b < lastUse ops a

theorem Sorted.sublist {c' : List (K × V)} (hs : Sorted ops c) (hsub : c'.Sublist c) : Sorted ops c' :=
  Pairwise.sublist (hsub.map Prod.fst) hs

/-- A call that uses none of the keys leaves the order. -/
theorem Sorted.concat (hs : Sorted ops c) (hu : ∀ k ∈ keys c, op.used ≠ some k) : Sorted (ops ++ [op]) c := by
  refine Pairwise.imp_of_mem (fun {a b} ha hb hab => ?_) hs
  rwa [lastUse_concat_of_not_used (hu a ha), lastUse_concat_of_not_used (hu b hb)]

/-- A used key belongs at the front. -/
theorem Sorted.front (hs : Sorted ops c) (hu : op.used = some k)
    (v : V) : Sorted (ops ++ [op]) ((k, v) :: erase c k) := by
  refine pairwise_cons.mpr ⟨fun b hb => ?_, ?_⟩
  · have hne : op.used ≠ some b := by
      rw [hu]
      rintro ⟨⟩
      exact not_mem_keys_erase c k hb
    rw [lastUse_concat_of_used hu, lastUse_concat_of_not_used hne]
    exact Nat.lt_succ_of_le (lastUse_le ops b)
  · refine (hs.sublist (erase_sublist c k)).concat fun b hb => ?_
    rw [hu]
    rintro ⟨⟩
    exact not_mem_keys_erase c k hb

/-- **The most recently used entry comes first.** -/
theorem run_sorted (cap : Nat) (ops : List (CacheOp K V)) : Sorted ops (run cap ops) := by
  induction ops using List.reverseRecOn with
  | nil => exact Pairwise.nil
  | append_singleton ops op ih =>
    rw [run_concat]
    cases op with
    | add k v => exact (ih.front rfl v).sublist (take_sublist ..)
    | get k =>
      simp only [step]
      split
      · exact ih.front rfl _
      · rename_i hnone
        refine ih.concat fun b hb => ?_
        rintro ⟨⟩
        exact lookup_eq_none.mp hnone hb
    | remove k => exact (ih.sublist (erase_sublist ..)).concat fun b _ => by simp [CacheOp.used]

end Lru
end NogoCommons.Lib
