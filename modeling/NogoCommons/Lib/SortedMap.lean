import NogoCommons.Lib.Bytes
import Mathlib.Data.List.Sort
import Mathlib.Data.List.Lex
import Mathlib.Order.Basic

/-!
# Sorted maps

A finite map whose keys are ordered is its list of entries in ascending order. Every ordered
store has one as its meaning: a search tree its in-order traversal, a log-structured store what
a full scan returns. Two maps with the same lookups are the same list (`SortedMap.ext_get?`), so
that what is proved of lookups is proved of scans, and the other way round.

An update cuts the list at its key. That is how a search tree sees it too: what is smaller, the
key, what is greater.
-/

namespace NogoCommons.Lib
open List

/-- The order of bytes, as the one `bytes.Compare` is lexicographic over. -/
instance linearOrderUInt8 : LinearOrder UInt8 where
  le_refl a := UInt8.le_refl a
  le_trans _ _ _ := UInt8.le_trans
  le_antisymm _ _ := UInt8.le_antisymm
  le_total a b := UInt8.le_total a b
  lt_iff_le_not_ge a b := by
    simp only [UInt8.lt_iff_toNat_lt, UInt8.le_iff_toNat_le]
    omega
  toDecidableLE := inferInstance
  toDecidableEq := inferInstance
  toDecidableLT := inferInstance

/-- A finite map, as its entries in the order of their keys. -/
@[ext]
structure SortedMap (K V : Type) [LinearOrder K] where
  entries : List (K × V)
  sorted : entries.Pairwise (fun a b => a.1 < b.1)

namespace SortedMap
variable {K V : Type} [LinearOrder K]

def empty : SortedMap K V := ⟨[], .nil⟩

def get? (m : SortedMap K V) (k : K) : Option V :=
  (m.entries.find? fun e => e.1 = k).map Prod.snd

def has (m : SortedMap K V) (k : K) : Bool := (m.get? k).isSome
def isEmpty (m : SortedMap K V) : Bool := m.entries.isEmpty

/-- The entries a condition on the keys selects. -/
def filter (m : SortedMap K V) (p : K → Bool) : SortedMap K V where
  entries := m.entries.filter fun e => p e.1
  sorted := m.sorted.filter _

def erase (m : SortedMap K V) (k : K) : SortedMap K V := m.filter (· ≠ k)

def insert (m : SortedMap K V) (k : K) (v : V) : SortedMap K V where
  entries := m.entries.filter (·.1 < k) ++ (k, v) :: m.entries.filter (k < ·.1)
  sorted := by
    refine pairwise_append.mpr ⟨m.sorted.filter _, pairwise_cons.mpr ⟨?_, m.sorted.filter _⟩, ?_⟩
    · intro e he
      simpa using (mem_filter.mp he).2
    · intro a ha b hb
      have hak : a.1 < k := by simpa using (mem_filter.mp ha).2
      rcases mem_cons.mp hb with rfl | hb
      · exact hak
      · have hkb : k < b.1 := by simpa using (mem_filter.mp hb).2
        exact hak.trans hkb

/-- All of one map's entries put into another. -/
def insertAll (m n : SortedMap K V) : SortedMap K V :=
  n.entries.foldl (fun m e => m.insert e.1 e.2) m

/-- All of one map's keys removed from another. -/
def eraseAll {W : Type} (m : SortedMap K V) (n : SortedMap K W) : SortedMap K V :=
  n.entries.foldl (fun m e => m.erase e.1) m

/-! ## Lookups -/

variable {m : SortedMap K V} {k : K}

/-- A key has one entry. -/
theorem eq_of_mem {a b : K × V} (ha : a ∈ m.entries) (hb : b ∈ m.entries) (hk : a.1 = b.1) : a = b := by
  have hnodup : (m.entries.map Prod.fst).Nodup := pairwise_map.mpr (m.sorted.imp ne_of_lt)
  exact inj_on_of_nodup_map hnodup ha hb hk

theorem get?_eq_some {v : V} : m.get? k = some v ↔ (k, v) ∈ m.entries := by
  unfold get?
  constructor
  · intro h
    obtain ⟨e, hfind, rfl⟩ := Option.map_eq_some_iff.mp h
    obtain rfl : e.1 = k := by simpa using find?_some hfind
    exact mem_of_find?_eq_some hfind
  · intro hmem
    have hfound : (m.entries.find? fun e => e.1 = k).isSome := by
      rw [find?_isSome]
      exact ⟨(k, v), hmem, by simp⟩
    obtain ⟨e, hfind⟩ := Option.isSome_iff_exists.mp hfound
    have hk : e.1 = k := by simpa using find?_some hfind
    rw [hfind, eq_of_mem (mem_of_find?_eq_some hfind) hmem hk]
    rfl

/-- What is before an entry is smaller, and what is after it greater. -/
theorem around {e : K × V} {before after : List (K × V)} (h : m.entries = before ++ e :: after) :
    (∀ e' ∈ before, e'.1 < e.1) ∧ ∀ e' ∈ after, e.1 < e'.1 := by
  have hsorted := m.sorted
  rw [h, pairwise_append, pairwise_cons] at hsorted
  obtain ⟨-, ⟨hafter, -⟩, hbefore⟩ := hsorted
  exact ⟨fun e' he' => hbefore e' he' e mem_cons_self, hafter⟩

theorem has_iff : m.has k = true ↔ ∃ v, (k, v) ∈ m.entries := by
  simp only [has, Option.isSome_iff_exists, get?_eq_some]

@[simp] theorem get?_empty (k : K) : (empty : SortedMap K V).get? k = none := rfl

theorem get?_filter (m : SortedMap K V) (p : K → Bool) (k : K) :
    (m.filter p).get? k = if p k then m.get? k else none := by
  ext v
  split_ifs with hp <;> simp [get?_eq_some, filter, hp]

theorem get?_erase (m : SortedMap K V) (k k' : K) : (m.erase k).get? k' = if k' = k then none else m.get? k' := by
  rw [erase, get?_filter]
  by_cases h : k' = k <;> simp [h]

theorem get?_insert (m : SortedMap K V) (k : K) (v : V) (k' : K) :
    (m.insert k v).get? k' = if k' = k then some v else m.get? k' := by
  ext w
  rw [get?_eq_some]
  simp only [insert, mem_append, mem_cons, mem_filter, Prod.mk.injEq, decide_eq_true_eq]
  split_ifs with h
  · subst h
    simp [eq_comm]
  · rw [get?_eq_some]
    have := lt_or_gt_of_ne h
    tauto

/-- Equal lookups, equal maps. -/
theorem ext_get? {n : SortedMap K V} (h : ∀ k, m.get? k = n.get? k) : m = n := by
  have hmem : ∀ e, e ∈ m.entries ↔ e ∈ n.entries := fun e => by
    rw [← get?_eq_some (k := e.1) (v := e.2), h, get?_eq_some]
  have hnodup : ∀ m : SortedMap K V, m.entries.Nodup := fun m =>
    m.sorted.imp fun hlt heq => absurd (congrArg Prod.fst heq) hlt.ne
  have hperm := (perm_ext_iff_of_nodup (hnodup m) (hnodup n)).mpr hmem
  exact SortedMap.ext (hperm.eq_of_pairwise (fun _ _ _ _ hab hba => absurd hba hab.not_gt) m.sorted n.sorted)

/-! ## Batches -/

/-- The entries are the only sorted list of what the map has. -/
theorem entries_eq_of_mem {l : List (K × V)} (hl : l.Pairwise fun a b => a.1 < b.1)
    (h : ∀ e, e ∈ m.entries ↔ e ∈ l) : m.entries = l := by
  have hsame : m = ⟨l, hl⟩ := by
    refine ext_get? fun k => Option.ext fun v => ?_
    rw [get?_eq_some, get?_eq_some]
    exact h (k, v)
  rw [hsame]

theorem get?_foldl_insert (k : K) : ∀ (es : List (K × V)) (m : SortedMap K V), es.Pairwise (fun a b => a.1 < b.1) →
    (es.foldl (fun m e => m.insert e.1 e.2) m).get? k =
      ((es.find? fun e => e.1 = k).map Prod.snd).or (m.get? k)
  | [], m, _ => rfl
  | e :: es, m, h => by
    rw [foldl_cons, get?_foldl_insert k es _ h.of_cons, get?_insert]
    by_cases hk : k = e.1
    · -- A later entry for the same key there is none.
      have hrest : es.find? (fun e => e.1 = k) = none := by
        rw [find?_eq_none]
        intro x hx
        have := rel_of_pairwise_cons h hx
        simpa [hk] using this.ne'
      simp [hk, hk ▸ hrest]
    · simp [hk, Ne.symm hk]

/-- What is put in wins over what was there. -/
theorem get?_insertAll (m n : SortedMap K V) (k : K) : (m.insertAll n).get? k = (n.get? k).or (m.get? k) :=
  get?_foldl_insert k n.entries m n.sorted

theorem get?_foldl_erase {W : Type} (k : K) : ∀ (es : List (K × W)) (m : SortedMap K V),
    (es.foldl (fun m e => m.erase e.1) m).get? k =
      if k ∈ es.map Prod.fst then none else m.get? k
  | [], m => by simp
  | e :: es, m => by
    rw [foldl_cons, get?_foldl_erase k es, get?_erase]
    rw [map_cons]
    by_cases hk : k = e.1
    · simp [hk]
    · simp only [mem_cons, hk, false_or, if_false]

theorem get?_eraseAll {W : Type} (m : SortedMap K V) (n : SortedMap K W) (k : K) :
    (m.eraseAll n).get? k = if n.has k then none else m.get? k := by
  have hmem : k ∈ n.entries.map Prod.fst ↔ n.has k = true := by
    rw [has_iff, mem_map]
    constructor
    · rintro ⟨e, he, rfl⟩
      exact ⟨e.2, he⟩
    · rintro ⟨v, hv⟩
      exact ⟨(k, v), hv, rfl⟩
  rw [eraseAll, get?_foldl_erase, if_congr hmem rfl rfl]

theorem has_insertAll (m n : SortedMap K V) (k : K) : (m.insertAll n).has k = (n.has k || m.has k) := by
  rw [has, get?_insertAll, Option.isSome_or]
  rfl

theorem has_eraseAll {W : Type} (m : SortedMap K V) (n : SortedMap K W) (k : K) :
    (m.eraseAll n).has k = (!n.has k && m.has k) := by
  rw [has, get?_eraseAll]
  cases n.has k <;> rfl

theorem get?_eq_none_of_has (h : m.has k = false) : m.get? k = none := by
  simpa [has] using h

/-- An update puts one entry in the place of what was under the key. -/
theorem perm_insert (m : SortedMap K V) (k : K) (v : V) :
    (m.insert k v).entries.Perm ((k, v) :: (m.erase k).entries) := by
  refine perm_middle.trans (Perm.cons _ ?_)
  have hparts := filter_append_perm (fun e : K × V => decide (e.1 < k)) (m.erase k).entries
  have hsmaller : (m.erase k).entries.filter (fun e => decide (e.1 < k)) = m.entries.filter (·.1 < k) := by
    rw [erase, filter, filter_filter]
    refine filter_congr fun e _ => ?_
    by_cases h : e.1 < k
    · simp [h, h.ne]
    · simp [h]
  have hgreater : (m.erase k).entries.filter (fun e => !decide (e.1 < k)) = m.entries.filter (k < ·.1) := by
    rw [erase, filter, filter_filter]
    refine filter_congr fun e _ => ?_
    rcases lt_trichotomy e.1 k with h | h | h
    · simp [h, h.not_gt]
    · simp [h]
    · simp [h, h.ne', h.not_gt]
  rwa [hsmaller, hgreater] at hparts

theorem erase_of_get?_none (h : m.get? k = none) : m.erase k = m := by
  refine ext_get? fun k' => ?_
  rw [get?_erase]
  split_ifs with hk
  · rw [hk, h]
  · rfl

theorem perm_of_get? {v : V} (h : m.get? k = some v) : m.entries.Perm ((k, v) :: (m.erase k).entries) := by
  have hsame : m.insert k v = m := by
    refine ext_get? fun k' => ?_
    rw [get?_insert]
    split_ifs with hk
    · rw [hk, h]
    · rfl
  have hperm := perm_insert m k v
  rwa [hsame] at hperm

end SortedMap
end NogoCommons.Lib
