import NogoCommons.Nogopow.SimpleLru

/-!
# When `simpleLRU` is a least-recently-used cache

`moveToFront` unlinks its node by `removeElement`, which also takes the key out of the map,
counts the size down and reports an eviction; nothing puts the key back. So a hit anywhere but
at the head forgets the key it was a hit for (`moveToFront_forgets`). As long as no such hit
comes, the cache is the ideal one of `Lib/Lru.lean`: that is `sim_step` for one call, and
`simpleLRU_correct_iff` for whole runs, in both directions.
-/

namespace NogoCommons.Nogopow
open Lib List

universe u v

namespace SimpleLRU
variable {K : Type u} {V : Type v} [DecidableEq K]

/-! ## The representation -/

/-- The cache holds the entries `ns`, each with its node's address, and the map, the count and
the links all say so. -/
structure Rep (l : SimpleLRU K V) (ns : List (Addr × K × V)) : Prop where
  list : IsList l.heap l.head l.tail ns
  nodup : (Lru.keys (ns.map Prod.snd)).Nodup
  items : ∀ k a, l.items.lookup k = some a ↔ ∃ v, (a, k, v) ∈ ns
  size : l.size = ns.length

variable {l : SimpleLRU K V} {ns xs ys : List (Addr × K × V)} {a : Addr} {k : K} {v : V}

theorem rep_newSimpleLRU (capacity : Int) (onEvict : Bool) : Rep (newSimpleLRU capacity onEvict : SimpleLRU K V) [] :=
  ⟨.empty, nodup_nil, by simp [newSimpleLRU], rfl⟩

theorem Rep.mem_keys_iff (hr : Rep l ns) : k ∈ Lru.keys (ns.map Prod.snd) ↔ ∃ a, l.items.lookup k = some a := by
  simp only [hr.items, Lru.keys, mem_map]
  constructor
  · rintro ⟨_, ⟨⟨a, k, v⟩, hm, rfl⟩, rfl⟩
    exact ⟨a, v, hm⟩
  · rintro ⟨a, v, hm⟩
    exact ⟨_, ⟨_, hm, rfl⟩, rfl⟩

/-- Two entries of one key are one entry. -/
theorem Rep.entry_unique {b : Addr} {w : V} (hr : Rep l ns) (ha : (a, k, v) ∈ ns)
    (hb : (b, k, w) ∈ ns) : a = b ∧ v = w := by
  have hinj := inj_on_of_nodup_map (f := Prod.fst ∘ Prod.snd) (l := ns)
    (by simpa [Lru.keys] using hr.nodup) ha hb rfl
  simpa using hinj

/-- An entry that the map points to, by its place in the list. -/
theorem Rep.split (hr : Rep l ns) (ha : l.items.lookup k = some a) : ∃ v xs ys, ns = xs ++ (a, k, v) :: ys := by
  obtain ⟨v, hm⟩ := (hr.items k a).mp ha
  obtain ⟨xs, ys, rfl⟩ := append_of_mem hm
  exact ⟨v, xs, ys, rfl⟩

theorem rep_removeElement (hr : Rep l (xs ++ (a, k, v) :: ys)) : Rep (l.removeElement a) (xs ++ ys) := by
  have hsub : (xs ++ ys).Sublist (xs ++ (a, k, v) :: ys) :=
    (Sublist.refl xs).append (sublist_cons_self ..)
  rw [removeElement, hr.list.read]
  refine ⟨hr.list.unlink, hr.nodup.sublist ((hsub.map _).map _), fun k' b => ?_, ?_⟩
  · by_cases hk : k' = k
    · -- The key's only entry is the one taken out.
      subst hk
      have hnd : ((xs ++ (a, k', v) :: ys).map Prod.fst).Nodup := hr.list.nodup
      constructor
      · intro h
        exact absurd h (by simp)
      · rintro ⟨w, hw⟩
        obtain ⟨rfl, -⟩ := hr.entry_unique (hsub.mem hw) (mem_append_right _ (.head _))
        rw [map_append, map_cons] at hnd
        have hnot := nodup_middle.mp hnd
        rw [← map_append] at hnot
        exact absurd (mem_map_of_mem hw) (nodup_cons.mp hnot).1
    · show (l.items.erase k).lookup k' = some b ↔ _
      rw [Finmap.lookup_erase_ne hk, hr.items]
      simp [hk]
  · show l.size - 1 = _
    rw [hr.size]
    simp only [length_append, length_cons]
    omega

theorem rep_insertFront (hr : Rep l ns) (hk : k ∉ Lru.keys (ns.map Prod.snd)) :
    Rep (l.insertFront k v) ((l.heap.fresh, k, v) :: ns) := by
  -- With no head the list is empty, and there is nothing to link the new node to.
  have heq : l.insertFront k v =
      { l with
        items := l.items.insert k l.heap.fresh
        size := l.size + 1
        heap := (l.heap.alloc ⟨(k, v), none, l.head⟩).setPrev l.head (some l.heap.fresh)
        head := some l.heap.fresh
        tail := if l.tail.isSome then l.tail else some l.heap.fresh } := by
    have hhead := hr.list.head_eq
    have htail := hr.list.tail_eq
    cases ns with
    | nil =>
      simp [insertFront, hhead, htail, Heap.setPrev]
    | cons e ns =>
      obtain ⟨b, hb⟩ := lastAddr_cons e ns
      rw [hb] at htail
      simp only [insertFront, hhead, htail, firstAddr, head?_cons, Option.map_some]
      simp [Heap.setNext, Heap.update_alloc_fresh]
  rw [heq]
  refine ⟨hr.list.pushFront (k, v), nodup_cons.mpr ⟨hk, hr.nodup⟩, fun k' b => ?_, ?_⟩
  · show (l.items.insert k l.heap.fresh).lookup k' = some b ↔ _
    by_cases hkk : k' = k
    · subst hkk
      have hno : ∀ w, (b, k', w) ∉ ns := fun w hw =>
        hk (hr.mem_keys_iff.mpr ⟨b, (hr.items k' b).mpr ⟨w, hw⟩⟩)
      simp [hno, eq_comm]
    · rw [Finmap.lookup_insert_of_ne _ hkk, hr.items]
      simp [hkk]
  · show l.size + 1 = _
    rw [hr.size]
    simp

theorem rep_setFront {w : V} (hr : Rep l ((a, k, v) :: ns)) :
    Rep { l with heap := l.heap.update a fun n => { n with val := (n.val.1, w) } }
      ((a, k, w) :: ns) := by
  refine ⟨hr.list.modifyFront (f := fun e => (e.1, w)), hr.nodup, fun k' b => ?_, hr.size⟩
  rw [hr.items]
  by_cases hk : b = a ∧ k' = k
  · obtain ⟨rfl, rfl⟩ := hk
    exact ⟨fun _ => ⟨w, .head _⟩, fun _ => ⟨v, .head _⟩⟩
  · refine exists_congr fun x => ?_
    grind

theorem Rep.keys_eq (hr : Rep l ns) : l.keys = some (Lru.keys (ns.map Prod.snd)) := by
  -- Distinct addresses below `fresh` are no more than `fresh`.
  have hlen : ns.length ≤ l.heap.fresh := by
    have hsub : ns.map Prod.fst ⊆ range l.heap.fresh := by
      intro b hb
      obtain ⟨⟨b, x⟩, hm, rfl⟩ := mem_map.mp hb
      obtain ⟨n, hn, -⟩ := hr.list.read_of_mem hm
      exact mem_range.mpr (Heap.lt_fresh_of_read hn)
    simpa using (hr.list.nodup.subperm hsub).length_le
  rw [keys, hr.list.head_eq]
  exact keysFrom_seg hr.list.seg hlen

theorem Rep.items_keys (hr : Rep l ns) : l.items.keys = (Lru.keys (ns.map Prod.snd)).toFinset := by
  ext k
  rw [mem_toFinset, hr.mem_keys_iff, Finmap.mem_keys, Finmap.mem_iff]

/-! ## The ideal cache, step by step -/

/-- A use of a key that the cache holds is of the key at its front. -/
def AtFront (c : List (K × V)) (op : CacheOp K V) : Prop :=
  ∀ k ∈ op.used, k ∈ Lru.keys c → (Lru.keys c).head? = some k

/-- The cache holds, in the order of its list, what the ideal cache `c` holds. -/
def Sim (cap : Nat) (l : SimpleLRU K V) (c : List (K × V)) : Prop :=
  l.capacity = cap ∧ ∃ ns, Rep l ns ∧ ns.map Prod.snd = c

/-- A hit at the front leaves the list alone. -/
theorem moveToFront_head (hr : Rep l ((a, k, v) :: ns)) : l.moveToFront a = l := by
  rw [moveToFront, if_pos (by rw [hr.list.head_eq, firstAddr_cons])]

/-- A present key at the front, by its entry. -/
theorem Rep.front (hr : Rep l ns) (ha : l.items.lookup k = some a)
    (hfront : (Lru.keys (ns.map Prod.snd)).head? = some k) :
    ∃ v ns', ns = (a, k, v) :: ns' := by
  cases ns with
  | nil => simp [Lru.keys] at hfront
  | cons e ns =>
    obtain ⟨b, k₀, v⟩ := e
    obtain rfl : k₀ = k := by simpa [Lru.keys] using hfront
    obtain ⟨w, hw⟩ := (hr.items k₀ a).mp ha
    obtain ⟨rfl, -⟩ := hr.entry_unique hw (.head _)
    exact ⟨v, ns, rfl⟩

/-- A hit at the front. -/
theorem get_front (hr : Rep l ((a, k, v) :: ns)) : l.get k = (some v, l) := by
  have ha : l.items.lookup k = some a := (hr.items k a).mpr ⟨v, .head _⟩
  simp only [get, ha, moveToFront_head hr, hr.list.seg.1, Option.map_some]

theorem get_absent (ha : l.items.lookup k = none) : l.get k = (none, l) := by
  simp only [get, ha]

variable {c : List (K × V)} {cap : Nat}

theorem sim_get (h : Sim cap l c) (hfront : AtFront c (.get k)) : Sim cap (l.get k).2 (Lru.step cap c (.get k)) := by
  obtain ⟨hcap, ns, hr, rfl⟩ := h
  match ha : l.items.lookup k with
  | none =>
    have hno : Lru.lookup (ns.map Prod.snd) k = none :=
      Lru.lookup_eq_none.mpr fun hm => by simp [hr.mem_keys_iff, ha] at hm
    rw [get_absent ha]
    simp only [Lru.step, hno]
    exact ⟨hcap, ns, hr, rfl⟩
  | some a =>
    obtain ⟨v, ns, rfl⟩ := hr.front ha (hfront k rfl (hr.mem_keys_iff.mpr ⟨a, ha⟩))
    rw [get_front hr]
    refine ⟨hcap, (a, k, v) :: ns, hr, ?_⟩
    have hv : Lru.lookup ((k, v) :: ns.map Prod.snd) k = some v := by simp [Lru.lookup_cons]
    simp only [map_cons, Lru.step, hv, Lru.erase_cons_self hr.nodup]

theorem sim_remove (h : Sim cap l c) : Sim cap (l.remove k).2 (Lru.step cap c (.remove k)) := by
  obtain ⟨hcap, ns, hr, rfl⟩ := h
  unfold remove
  match ha : l.items.lookup k with
  | none =>
    refine ⟨hcap, ns, hr, (Lru.erase_of_not_mem fun hm => ?_).symm⟩
    simp [hr.mem_keys_iff, ha] at hm
  | some a =>
    obtain ⟨v, xs, ys, rfl⟩ := hr.split ha
    refine ⟨(removeElement_capacity l a).trans hcap, xs ++ ys, rep_removeElement hr, ?_⟩
    have hnd := hr.nodup
    simp only [map_append, map_cons] at hnd ⊢
    rw [Lru.step, Lru.erase_split hnd]

theorem sim_add (hcap : 1 ≤ cap) (hwf : Lru.Wf cap c) (h : Sim cap l c) (hfront : AtFront c (.add k v)) :
    Sim cap (l.add k v) (Lru.step cap c (.add k v)) := by
  obtain ⟨hc, ns, hr, rfl⟩ := h
  unfold add
  match ha : l.items.lookup k with
  | some a =>
    have hm := hr.mem_keys_iff.mpr ⟨a, ha⟩
    obtain ⟨w, ns, rfl⟩ := hr.front ha (hfront k rfl hm)
    refine ⟨?_, (a, k, v) :: ns, ?_, ?_⟩
    · simpa only [moveToFront_head hr] using hc
    · simpa only [moveToFront_head hr] using rep_setFront hr
    · rw [Lru.step_add_of_mem hwf hm]
      simp only [map_cons, Lru.erase_cons_self hr.nodup]
  | none =>
    have hk : k ∉ Lru.keys (ns.map Prod.snd) := fun hm => by simp [hr.mem_keys_iff, ha] at hm
    have hins := rep_insertFront (v := v) hr hk
    have hcap' : (l.insertFront k v).capacity = cap := (insertFront_capacity l k v).trans hc
    have hsize := hins.size
    have hle := hwf.length_le
    rw [length_map] at hle
    simp only [hcap', hsize, length_cons]
    obtain hroom | hfull := Nat.lt_or_eq_of_le hle
    · rw [if_neg (by omega)]
      refine ⟨hcap', _, hins, ?_⟩
      rw [Lru.step_add_of_room hk (by rwa [length_map])]
      rfl
    · rw [if_pos (by omega)]
      -- The list is not empty, so its last entry is not the one just added.
      obtain rfl | ⟨xs, ⟨b, k', w⟩, rfl⟩ := eq_nil_or_concat' ns
      · simp only [length_nil] at hfull
        omega
      rw [← cons_append] at hins
      have htail : (l.insertFront k v).tail = some b := by rw [hins.list.tail_eq, lastAddr_concat]
      rw [removeOldest_eq htail]
      refine ⟨(removeElement_capacity _ b).trans hcap', (l.heap.fresh, k, v) :: xs, ?_, ?_⟩
      · simpa using rep_removeElement hins
      · rw [Lru.step_add_of_full hk (by rwa [length_map]) hcap]
        simp

variable {op : CacheOp K V} {ops : List (CacheOp K V)}

/-- **One call keeps to the ideal cache**, so long as it reuses no key but the front one. -/
theorem sim_step (hcap : 1 ≤ cap) (hwf : Lru.Wf cap c) (h : Sim cap l c) (hfront : AtFront c op) :
    Sim cap (l.step op) (Lru.step cap c op) := by
  cases op with
  | add k v => exact sim_add hcap hwf h hfront
  | get k => exact sim_get h hfront
  | remove k => exact sim_remove h

/-! ## Whole runs -/

/-- Along a run from `c`, every use of a present key is of the key at the front. -/
def FrontReuse (cap : Nat) (c : List (K × V)) : List (CacheOp K V) → Prop
  | [] => True
  | op :: ops => AtFront c op ∧ FrontReuse cap (Lru.step cap c op) ops

theorem frontReuse_concat : ∀ {c}, FrontReuse cap c (ops ++ [op]) ↔
      FrontReuse cap c ops ∧ AtFront (ops.foldl (Lru.step cap) c) op := by
  induction ops with
  | nil => simp [FrontReuse]
  | cons op' ops ih => intro c; simp only [cons_append, FrontReuse, ih, foldl_cons, and_assoc]

theorem sim_run (hcap : 1 ≤ cap) (onEvict : Bool) (hfront : FrontReuse cap [] ops) :
    Sim cap (after cap onEvict ops) (Lru.run cap ops) := by
  induction ops using List.reverseRecOn with
  | nil => exact ⟨rfl, [], rep_newSimpleLRU cap onEvict, rfl⟩
  | append_singleton ops op ih =>
    obtain ⟨hops, hop⟩ := frontReuse_concat.mp hfront
    rw [after_concat, Lru.run_concat]
    exact sim_step hcap (Lru.run_wf cap ops) (ih hops) hop

/-- What a cache should be after the calls `ops`: the list from the head has distinct keys, the
keys of the map; `Len` counts both and is within the capacity; the pointers are consistent
and `Keys` walks them; the last used comes first; and `Get` answers with the value last
added, exactly for the keys neither removed nor pushed out. -/
structure LruCorrect (cap : Nat) (ops : List (CacheOp K V)) (l : SimpleLRU K V) : Prop where
  list : ∃ ns, IsList l.heap l.head l.tail ns ∧ l.keys = some (Lru.keys (ns.map Prod.snd)) ∧
    (Lru.keys (ns.map Prod.snd)).Nodup ∧ l.items.keys = (Lru.keys (ns.map Prod.snd)).toFinset ∧
    l.len = ns.length ∧ Lru.Sorted ops (ns.map Prod.snd)
  len_items : l.len = l.items.keys.card
  len_le : l.len ≤ cap
  get : ∀ k v, (l.get k).1 = some v ↔ Lru.Kept cap ops k v

theorem Rep.get_fst (hr : Rep l ns) (k : K) : (l.get k).1 = Lru.lookup (ns.map Prod.snd) k := by
  match ha : l.items.lookup k with
  | none =>
    rw [get_absent ha]
    exact (Lru.lookup_eq_none.mpr fun hm => by simp [hr.mem_keys_iff, ha] at hm).symm
  | some a =>
    obtain ⟨v, hm⟩ := (hr.items k a).mp ha
    obtain ⟨n, hn, hv⟩ := hr.list.read_of_mem hm
    have hread : ((l.moveToFront a).heap.read a).map Node.val = some (k, v) := by
      rw [moveToFront_read_val, hn, Option.map_some, hv]
    have hlook : Lru.lookup (ns.map Prod.snd) k = some v :=
      (Lru.lookup_eq_some hr.nodup).mpr (mem_map.mpr ⟨_, hm, rfl⟩)
    have hval : (l.get k).1 = (((l.moveToFront a).heap.read a).map Node.val).map Prod.snd := by
      simp [get, ha, Function.comp_def]
    rw [hval, hread, hlook, Option.map_some]

theorem lruCorrect_of_sim (hcap : 1 ≤ cap) (h : Sim cap l (Lru.run cap ops)) : LruCorrect cap ops l := by
  obtain ⟨-, ns, hr, hns⟩ := h
  have hwf := Lru.run_wf cap ops
  have hlen : l.len = ns.length := hr.size
  refine ⟨⟨ns, hr.list, hr.keys_eq, hr.nodup, hr.items_keys, hlen, ?_⟩, ?_, ?_, fun k v => ?_⟩
  · rw [hns]
    exact Lru.run_sorted cap ops
  · rw [hr.items_keys, toFinset_card_of_nodup hr.nodup, hlen]
    simp [Lru.keys]
  · have hle := hwf.length_le
    rw [← hns, length_map] at hle
    omega
  · rw [hr.get_fst, hns]
    exact Lru.lookup_run_iff hcap ops k v

/-- **A hit away from the head forgets its key**: the map has it no longer. -/
theorem moveToFront_forgets (hr : Rep l ns) (ha : l.items.lookup k = some a)
    (hhead : l.head ≠ some a) : (l.moveToFront a).items.lookup k = none := by
  obtain ⟨v, xs, ys, rfl⟩ := hr.split ha
  rw [moveToFront, if_neg hhead]
  rw [removeElement, hr.list.read]
  exact Finmap.lookup_erase k l.items

theorem step_forgets (hr : Rep l ns) (hu : op.used = some k) (hk : k ∈ Lru.keys (ns.map Prod.snd))
    (hfront : (Lru.keys (ns.map Prod.snd)).head? ≠ some k) : (l.step op).items.lookup k = none := by
  obtain ⟨a, ha⟩ := hr.mem_keys_iff.mp hk
  have hhead : l.head ≠ some a := by
    intro hhead
    obtain ⟨v, xs, ys, rfl⟩ := hr.split ha
    -- The address at the head is the one node's that has it.
    cases xs with
    | nil => exact hfront rfl
    | cons e xs =>
      have hnd := hr.list.nodup
      rw [hr.list.head_eq] at hhead
      obtain ⟨b, e⟩ := e
      obtain rfl : b = a := by simpa using hhead
      simp at hnd
  have hforget := moveToFront_forgets hr ha hhead
  cases op with
  | add k' v =>
    obtain rfl : k' = k := by simpa [CacheOp.used] using hu
    simpa [step, add, ha] using hforget
  | get k' =>
    obtain rfl : k' = k := by simpa [CacheOp.used] using hu
    simpa [step, get, ha] using hforget
  | remove k' => simp [CacheOp.used] at hu

/-- **The cache is right over a run exactly when no key is reused but the one at the front.** -/
theorem simpleLRU_correct_iff {cap : Nat} (hcap : 1 ≤ cap) (onEvict : Bool) (ops : List (CacheOp K V)) :
    (∀ pre, pre <+: ops → LruCorrect cap pre (after cap onEvict pre)) ↔ FrontReuse cap [] ops := by
  induction ops using List.reverseRecOn with
  | nil =>
    refine ⟨fun _ => trivial, fun _ pre hpre => ?_⟩
    obtain rfl := prefix_nil.mp hpre
    exact lruCorrect_of_sim hcap (sim_run hcap onEvict trivial)
  | append_singleton ops op ih =>
    rw [frontReuse_concat, ← ih]
    constructor
    · intro hall
      have hops := fun pre hpre => hall pre (IsPrefix.trans hpre (prefix_append ops [op]))
      refine ⟨hops, fun k hu hk => ?_⟩
      -- The calls before this one went as they should; this one, at a key further back, would
      -- lose the key.
      obtain ⟨hc, ns, hr, hns⟩ := sim_run hcap onEvict (ih.mp hops)
      by_contra hfront
      change k ∈ Lru.keys (Lru.run cap ops) at hk
      change ¬ (Lru.keys (Lru.run cap ops)).head? = some k at hfront
      obtain ⟨v, hv⟩ := Lru.lookup_step_used hcap hu hk
      rw [← Lru.run_concat, Lru.lookup_run_iff hcap] at hv
      rw [← hns] at hk hfront
      have hget := ((hall _ (prefix_refl _)).get k v).mpr hv
      rw [after_concat, get_absent (step_forgets hr hu hk hfront)] at hget
      cases hget
    · rintro ⟨hops, hop⟩ pre hpre
      obtain rfl | hpre := prefix_concat_iff.mp hpre
      · exact lruCorrect_of_sim hcap (sim_run hcap onEvict (frontReuse_concat.mpr ⟨ih.mp hops, hop⟩))
      · exact hops pre hpre

instance (c : List (K × V)) (op : CacheOp K V) : Decidable (AtFront c op) :=
  inferInstanceAs (Decidable (∀ k ∈ op.used, k ∈ Lru.keys c → (Lru.keys c).head? = some k))

theorem simpleLRU_correct_fifo :
    FrontReuse 2 [] [.add 1 10, .get 1, .add 2 20, .add 2 21, .add 3 30, .remove 2, .get (1 : Nat)]
      ∧ ∀ pre, pre <+: [.add 1 10, .get 1, .add 2 20, .add 2 21, .add 3 30, .remove 2, .get 1] →
        LruCorrect 2 pre (after (2 : Nat) true pre : SimpleLRU Nat Nat) := by
  have hfront : FrontReuse 2 []
      [.add 1 10, .get 1, .add 2 20, .add 2 21, .add 3 30, .remove 2, .get (1 : Nat)] := by
    simp only [FrontReuse]
    decide
  exact ⟨hfront, (simpleLRU_correct_iff (by decide) true _).mpr hfront⟩

/-- Two additions and a hit for the older key, in a cache of two: the list still has both keys,
the map has lost the one that was hit, and asking for it again finds nothing. -/
theorem simpleLRU_loses_hit :
    let ops : List (CacheOp Nat Nat) := [.add 1 10, .add 2 20, .get 1]
    let l : SimpleLRU Nat Nat := after (2 : Nat) true ops
    l.keys = some [1, 2] ∧ l.items.lookup 1 = none ∧ l.len = 1 ∧ l.evicted = [(1, 10)] ∧
      ¬ LruCorrect 2 ops l := by
  have hkept : Lru.Kept 2 ([.add 1 10, .add 2 20, .get 1] : List (CacheOp Nat Nat)) 1 10 :=
    (Lru.lookup_run_iff (by decide) ..).mp (by decide)
  refine ⟨by decide, by decide, by decide, by decide, fun hc => ?_⟩
  exact absurd ((hc.get 1 10).mpr hkept) (by decide)

end SimpleLRU
end NogoCommons.Nogopow
