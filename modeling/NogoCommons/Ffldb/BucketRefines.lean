import NogoCommons.Ffldb.BucketRows
import NogoCommons.Ffldb.Commit

/-!
# Buckets are a tree of maps

What a transaction has in its rows is a tree of maps: every bucket of the tree has a number, its rows hold its
map and the numbers of the buckets in it, and the numbers that have not been given yet have no rows
(`Refines`). A row of a bucket that is not in the tree any more is not looked at again, so it does no harm that
`DeleteBucket` may leave some.

There is one exception. The number of the bucket `ffldb-blockidx` is always 1. If it is deleted and created
again, the rows that are left over are rows of the new bucket. Creating a bucket is right if the number it gets
has no rows (`CreateFits`), and then so is everything else: the calls answer what they answer on a tree of maps
(`answers_eq_of_fitCreates`).
-/

namespace NogoCommons.Ffldb
open Lib List SortedMap

/-- A number without rows. -/
def ScanTx.Unused (t : ScanTx) (n : Nat) : Prop := ∀ k, t.view (.entry n k) = none ∧ t.view (.index n k) = none

/-- The rows are those of a tree whose buckets have these numbers. The last number given is `c`. -/
structure Refines (t : ScanTx) (T : BucketTree) (num : Path → Nat) (c : Nat) : Prop where
  top : num [] = 0
  blockIdx : ∀ p, T.has p = true → (num p = 1 ↔ p = [blockIdxBucketName])
  usable : ∀ p, T.has p = true → Usable (num p)
  injective : ∀ p q, T.has p = true → T.has q = true → num p = num q → p = q
  given : ∀ p, T.has p = true → num p ≤ c
  one_le : 1 ≤ c
  lt : c < 2 ^ 32
  counter : t.view .counter = some (bucketID c)
  entries : ∀ p m, T.get? p = some m → ∀ k, t.view (.entry (num p) k) = m.get? k
  index : ∀ p, T.has p = true → ∀ n,
    t.view (.index (num p) n) = if T.has (p ++ [n]) then some (bucketID (num (p ++ [n]))) else none
  fresh : ∀ n, c < n → Usable n → t.Unused n

variable {num : Path → Nat} {p : Path}
section Refines
variable {t t' : ScanTx} {T : BucketTree} {c : Nat} {key : Bytes} {m : SortedMap Bytes Bytes}

theorem BucketTree.has_of_get? (h : T.get? p = some m) : T.has p = true := by
  rw [BucketTree.has_eq, h]
  rfl

theorem BucketTree.has_set (m : SortedMap Bytes Bytes) (h : T.has p.dropLast = true) (q : Path) :
    (T.set p m).has q = true ↔ q = p ∨ T.has q = true := by
  rw [BucketTree.has_eq, BucketTree.get?_set m h, BucketTree.has_eq]
  split_ifs with hq
  · simp [hq]
  · simp [hq]

theorem BucketTree.has_remove (h : p ≠ []) (q : Path) : (T.remove p).has q = true ↔ ¬ p <+: q ∧ T.has q = true := by
  rw [BucketTree.has_eq, BucketTree.get?_remove h, BucketTree.has_eq]
  split_ifs with hq
  · simp [hq]
  · simp [hq]

/-- The buckets that were there keep their numbers. -/
theorem update_of_has {new : Path} (hnew : T.has new = false) (num : Path → Nat) (a : Nat) (q : Path)
    (hq : T.has q = true) : Function.update num new a q = num q := by
  refine Function.update_of_ne (fun heq => ?_) ..
  rw [heq, hnew] at hq
  cases hq

variable (h : Refines t T num c)
include h

theorem Refines.index_ne {q : Path} {n : Bytes} (hq : T.has q = true) (hp : T.has p = true) (hpq : ¬ (q = p ∧ n = key)) :
    Row.index (num q) n ≠ .index (num p) key := by
  intro heq
  obtain ⟨hnum, hn⟩ := Row.index.inj heq
  exact hpq ⟨h.injective q p hq hp hnum, hn⟩

/-- One entry of one bucket is changed. -/
theorem Refines.setEntry {m' : SortedMap Bytes Bytes} (hp : T.get? p = some m) {value : Option Bytes}
    (hm' : ∀ k, m'.get? k = if k = key then value else m.get? k)
    (hview : ∀ r : Row, r.Fits → t'.view r = if r = .entry (num p) key then value else t.view r) :
    Refines t' (T.set p m') num c := by
  have hhas := BucketTree.has_of_get? hp
  have hset : ∀ q, (T.set p m').has q = true ↔ T.has q = true := by
    intro q
    rw [BucketTree.has_set m' (BucketTree.has_dropLast hhas)]
    exact ⟨fun hq => hq.elim (fun heq => heq ▸ hhas) id, .inr⟩
  -- The rows of other buckets stay.
  have hsame : ∀ n, Usable n → n ≠ num p → ∀ k, t'.view (.entry n k) = t.view (.entry n k) := by
    intro n hn hne k
    rw [hview (.entry n k) hn, if_neg]
    rintro ⟨⟩
    exact hne rfl
  have hindex : ∀ n, Usable n → ∀ k, t'.view (.index n k) = t.view (.index n k) := by
    intro n hn k
    rw [hview (.index n k) hn, if_neg (by simp)]
  refine ⟨h.top, fun q hq => h.blockIdx q ((hset q).mp hq), fun q hq => h.usable q ((hset q).mp hq),
    fun q q' hq hq' => h.injective q q' ((hset q).mp hq) ((hset q').mp hq'),
    fun q hq => h.given q ((hset q).mp hq), h.one_le, h.lt, ?_, fun q mq hq k => ?_, fun q hq n => ?_,
    fun n hn hu k => ?_⟩
  · rw [hview .counter trivial, if_neg (by simp)]
    exact h.counter
  · rw [BucketTree.get?_set m' (BucketTree.has_dropLast hhas)] at hq
    split_ifs at hq with hqp
    · cases hq
      rw [hqp, hm', hview (.entry (num p) k) (h.usable p hhas), h.entries p m hp k]
      exact if_congr (by simp) rfl rfl
    · have hq' := BucketTree.has_of_get? hq
      rw [hsame _ (h.usable q hq') fun heq => hqp (h.injective q p hq' hhas heq)]
      exact h.entries q mq hq k
  · have hq := (hset q).mp hq
    rw [hindex _ (h.usable q hq), h.index q hq]
    exact if_congr (hset _).symm rfl rfl
  · have hne : n ≠ num p := fun heq => absurd (h.given p hhas) (by omega)
    rw [hsame n hu hne, hindex n hu]
    exact h.fresh n hn hu k

/-- A bucket is created, with a number that has no rows. -/
theorem Refines.create (hp : T.has p = true) (hnew : T.has (p ++ [key]) = false) {a c' : Nat} (ha : Usable a)
    (hunused : t.Unused a) (hother : ∀ q, T.has q = true → num q ≠ a)
    (hblock : a = 1 ↔ p ++ [key] = [blockIdxBucketName]) (hac : a ≤ c') (hcc : c ≤ c') (hlt : c' < 2 ^ 32)
    (hview : ∀ r : Row, r.Fits → t'.view r =
      if r = .index (num p) key then some (bucketID a) else if r = .counter then some (bucketID c') else t.view r) :
    Refines t' (T.set (p ++ [key]) .empty) (Function.update num (p ++ [key]) a) c' := by
  have hdrop : T.has (p ++ [key]).dropLast = true := by rwa [dropLast_concat]
  have hset := BucketTree.has_set (T := T) .empty hdrop
  have hold := update_of_has hnew num a
  have hself : Function.update num (p ++ [key]) a (p ++ [key]) = a := Function.update_self ..
  have hentry : ∀ n, Usable n → ∀ k, t'.view (.entry n k) = t.view (.entry n k) := by
    intro n hn k
    rw [hview (.entry n k) hn, if_neg (by simp), if_neg (by simp)]
  have hindex : ∀ n, Usable n → n ≠ num p → ∀ k, t'.view (.index n k) = t.view (.index n k) := by
    intro n hn hne k
    rw [hview (.index n k) hn, if_neg, if_neg (by simp)]
    rintro ⟨⟩
    exact hne rfl
  refine ⟨?_, fun q hq => ?_, fun q hq => ?_, fun q q' hq hq' heq => ?_, fun q hq => ?_, h.one_le.trans hcc, hlt, ?_,
    fun q mq hq k => ?_, fun q hq n => ?_, fun n hn hu k => ?_⟩
  · rw [hold [] T.root, h.top]
  · rcases (hset q).mp hq with rfl | hq
    · rwa [hself]
    · rw [hold q hq]
      exact h.blockIdx q hq
  · rcases (hset q).mp hq with rfl | hq
    · rwa [hself]
    · rw [hold q hq]
      exact h.usable q hq
  · rcases (hset q).mp hq with rfl | hq
    · rcases (hset q').mp hq' with rfl | hq'
      · rfl
      · rw [hself, hold q' hq'] at heq
        exact absurd heq.symm (hother q' hq')
    · rcases (hset q').mp hq' with rfl | hq'
      · rw [hself, hold q hq] at heq
        exact absurd heq (hother q hq)
      · rw [hold q hq, hold q' hq'] at heq
        exact h.injective q q' hq hq' heq
  · rcases (hset q).mp hq with rfl | hq
    · rwa [hself]
    · rw [hold q hq]
      exact (h.given q hq).trans hcc
  · rw [hview .counter trivial, if_neg (by simp), if_pos rfl]
  · rw [BucketTree.get?_set .empty hdrop] at hq
    split_ifs at hq with hqp
    · cases hq
      rw [hqp, hself, hentry a ha]
      exact (hunused k).1
    · have hq' := BucketTree.has_of_get? hq
      rw [hold q hq', hentry _ (h.usable q hq')]
      exact h.entries q mq hq k
  · rcases (hset q).mp hq with rfl | hq
    · -- There is nothing in the new bucket.
      have hnone : ¬ (T.set (p ++ [key]) .empty).has (p ++ [key] ++ [n]) = true := by
        rw [hset]
        rintro (heq | hin)
        · exact absurd (congrArg length heq) (by simp)
        · have hpar := T.closed _ _ hin
          change T.has (p ++ [key]) = true at hpar
          rw [hnew] at hpar
          cases hpar
      rw [if_neg hnone, hself, hindex a ha (fun heq => hother p hp heq.symm)]
      exact (hunused n).2
    · rw [hold q hq]
      by_cases hpq : q = p ∧ n = key
      · obtain ⟨rfl, rfl⟩ := hpq
        rw [hview (.index (num q) n) (h.usable q hp), if_pos rfl, if_pos ((hset _).mpr (.inl rfl)), hself]
      · have hne : q ++ [n] ≠ p ++ [key] := by simpa using hpq
        rw [hview (.index (num q) n) (h.usable q hq), if_neg (h.index_ne hq hp hpq), if_neg (by simp), h.index q hq]
        by_cases hin : T.has (q ++ [n]) = true
        · rw [if_pos hin, if_pos ((hset _).mpr (.inr hin)), hold _ hin]
        · rw [if_neg hin, if_neg fun hin' => ((hset _).mp hin').elim hne hin]
  · have hne : n ≠ num p := fun heq => absurd (h.given p hp) (by omega)
    rw [hentry n hu, hindex n hu hne]
    exact h.fresh n (by omega) hu k

/-- A bucket is deleted, with the buckets in it. Their rows may be left. -/
theorem Refines.delete (hp : T.has p = true) (hgone : t'.view (.index (num p) key) = none)
    (hview : ∀ r : Row, r.Fits → r ≠ .index (num p) key →
      t'.view r = t.view r ∨ r.Of {n | ∃ q, T.has q = true ∧ p ++ [key] <+: q ∧ n = num q} ∧ t'.view r = none) :
    Refines t' (T.remove (p ++ [key])) num c := by
  have hne : p ++ [key] ≠ [] := by simp
  have hrem := BucketTree.has_remove (T := T) hne
  -- The number of a bucket that stays is not the number of one that goes.
  have hstays : ∀ q, T.has q = true → ¬ p ++ [key] <+: q →
      num q ∉ {n | ∃ q, T.has q = true ∧ p ++ [key] <+: q ∧ n = num q} := by
    rintro q hq hnot ⟨q', hq', hbegins, heq⟩
    rw [h.injective q q' hq hq' heq] at hnot
    exact hnot hbegins
  refine ⟨h.top, fun q hq => h.blockIdx q ((hrem q).mp hq).2, fun q hq => h.usable q ((hrem q).mp hq).2,
    fun q q' hq hq' => h.injective q q' ((hrem q).mp hq).2 ((hrem q').mp hq').2,
    fun q hq => h.given q ((hrem q).mp hq).2, h.one_le, h.lt, ?_, fun q mq hq k => ?_, fun q hq n => ?_,
    fun n hn hu k => ?_⟩
  · rcases hview .counter trivial (by simp) with hsame | ⟨hof, -⟩
    · rw [hsame]
      exact h.counter
    · exact hof.elim
  · rw [BucketTree.get?_remove hne] at hq
    split_ifs at hq with hbegins
    have hq' := BucketTree.has_of_get? hq
    rcases hview (.entry (num q) k) (h.usable q hq') (by simp) with hsame | ⟨hof, -⟩
    · rw [hsame]
      exact h.entries q mq hq k
    · exact absurd hof (hstays q hq' hbegins)
  · obtain ⟨hbegins, hq⟩ := (hrem q).mp hq
    by_cases hpq : q = p ∧ n = key
    · obtain ⟨rfl, rfl⟩ := hpq
      rw [hgone, if_neg]
      rw [hrem]
      exact fun hin => hin.1 prefix_rfl
    · have hiff : (T.remove (p ++ [key])).has (q ++ [n]) = true ↔ T.has (q ++ [n]) = true := by
        rw [hrem]
        refine and_iff_right ?_
        rw [prefix_concat_iff]
        rintro (heq | hin)
        · exact hpq (by simpa using heq.symm)
        · exact hbegins hin
      rcases hview (.index (num q) n) (h.usable q hq) (h.index_ne hq hp hpq) with hsame | ⟨hof, -⟩
      · rw [hsame, h.index q hq]
        exact if_congr hiff.symm rfl rfl
      · exact absurd hof (hstays q hq hbegins)
  · have hnone := h.fresh n hn hu k
    have hrow : Row.index n k ≠ .index (num p) key := by
      rintro ⟨⟩
      exact absurd (h.given p hp) (by omega)
    constructor
    · rcases hview (.entry n k) hu (by simp) with hsame | ⟨-, hgone'⟩
      · rw [hsame]
        exact hnone.1
      · exact hgone'
    · rcases hview (.index n k) hu hrow with hsame | ⟨-, hgone'⟩
      · rw [hsame]
        exact hnone.2
      · exact hgone'

/-! ## The calls of one bucket -/

theorem Refines.nextBucketID (priority : Nat) : t.nextBucketID priority =
      .ok (bucketID (c + 1), t.putKey curBucketIDKeyName (bucketID (c + 1)) priority) := by
  have hrow : t.tx.fetchKey curBucketIDKeyName = some (bucketID c) := h.counter
  have hlen := bucketID_length c
  rw [ScanTx.nextBucketID, hrow]
  dsimp only
  rw [if_neg (by omega), take_of_length_le hlen.le, beNat_bucketID h.lt]
  rfl

section
variable (hp : T.has p = true)
include hp

theorem Refines.bucket (key : Bytes) : t.bucket (bucketID (num p)) key =
      if T.has (p ++ [key]) then some (bucketID (num (p ++ [key]))) else none := by
  have hrow : t.tx.fetchKey (bucketIndexKey (bucketID (num p)) key) = _ := h.index p hp key
  rw [ScanTx.bucket, hrow]
  split_ifs with hin
  · rw [Option.map_some, take_left' (bucketID_length _)]
  · rfl

omit h in
omit hp in
/-- Creating a bucket finds no rows of the number the bucket gets, and the number is a usable one. -/
def CreateFits (t : ScanTx) (id key : Bytes) : Prop :=
  key ≠ [] → t.tx.hasKey (bucketIndexKey id key) = false →
    if id = metadataBucketID ∧ key = blockIdxBucketName then t.Unused 1
    else ∀ cur, t.tx.fetchKey curBucketIDKeyName = some cur → Usable (beNat (cur.take 4) + 1)

theorem Refines.hasKey_index (key : Bytes) :
    t.tx.hasKey (bucketIndexKey (bucketID (num p)) key) = T.has (p ++ [key]) := by
  have hrow : t.tx.fetchKey (bucketIndexKey (bucketID (num p)) key) = _ := h.index p hp key
  rw [TreapTx.hasKey_iff, hrow]
  cases T.has (p ++ [key]) <;> rfl

/-- Only the bucket at the top has the ID of the metadata bucket. -/
theorem Refines.metadata : bucketID (num p) = metadataBucketID ↔ p = [] := by
  constructor
  · intro heq
    have hzero : num p = num [] := by
      rw [h.top]
      exact bucketID_injective (h.usable p hp).lt (by decide) heq
    exact h.injective p [] hp T.root hzero
  · rintro rfl
    rw [h.top]
    rfl

theorem Refines.createBucket (hkey : key ≠ []) (hnew : T.has (p ++ [key]) = false)
    (hfits : CreateFits t (bucketID (num p)) key) (priority priority' : Nat) :
    ∃ t' num' c', t.createBucket (bucketID (num p)) key priority priority' = .ok (bucketID (num' (p ++ [key])), t') ∧
      Refines t' (T.set (p ++ [key]) .empty) num' c' ∧ ∀ q, T.has q = true → num' q = num q := by
  have hhas : t.tx.hasKey (bucketIndexKey (bucketID (num p)) key) = false := by
    rw [h.hasKey_index hp, hnew]
  have hlen : ¬ key.length = 0 := by simpa using hkey
  have hfree := hfits hkey hhas
  have hold := update_of_has hnew num
  by_cases hblock : bucketID (num p) = metadataBucketID ∧ key = blockIdxBucketName
  · -- The fixed number.
    rw [if_pos hblock] at hfree
    obtain ⟨hmeta, rfl⟩ := hblock
    obtain rfl := (h.metadata hp).mp hmeta
    refine ⟨t.putKey (bucketIndexKey (bucketID (num [])) blockIdxBucketName) (bucketID 1) priority', _, c, ?_,
      h.create hp hnew (usable_of_le (by decide)) hfree (fun q hq heq => ?_) (by simp) h.one_le le_rfl h.lt
        fun r hr => ?_, hold 1⟩
    · rw [ScanTx.createBucket, if_neg hlen, hhas, if_neg Bool.false_ne_true, if_pos ⟨hmeta, rfl⟩, Function.update_self]
      rfl
    · rw [(h.blockIdx q hq).mp heq] at hq
      rw [nil_append, hq] at hnew
      cases hnew
    · have hput := ScanTx.view_putKey (t := t) (r := .index (num []) blockIdxBucketName) (h.usable [] hp) hr
        (bucketID 1) priority'
      rw [← h.counter]
      refine hput.trans ?_
      split_ifs with h₁ h₂
      · rfl
      · rw [h₂]
      · rfl
  · rw [if_neg hblock] at hfree
    have ha : Usable (c + 1) := by
      have hcur := hfree (bucketID c) h.counter
      rwa [take_of_length_le (bucketID_length c).le, beNat_bucketID h.lt] at hcur
    refine ⟨(t.putKey curBucketIDKeyName (bucketID (c + 1)) priority).putKey
      (bucketIndexKey (bucketID (num p)) key) (bucketID (c + 1)) priority', _, c + 1, ?_,
      h.create hp hnew ha (h.fresh _ (Nat.lt_succ_self c) ha) (fun q hq heq => ?_) ?_ le_rfl (Nat.le_succ c) ha.lt
        fun r hr => ?_, hold (c + 1)⟩
    · rw [ScanTx.createBucket, if_neg hlen, hhas, if_neg Bool.false_ne_true, if_neg hblock, h.nextBucketID,
        Function.update_self]
      rfl
    · have hle := h.given q hq
      omega
    · have hone := h.one_le
      refine iff_of_false (by omega) fun heq => hblock ?_
      obtain ⟨hnil, hname⟩ := append_inj' (show p ++ [_] = [] ++ [_] from heq) rfl
      exact ⟨(h.metadata hp).mpr hnil, by simpa using hname⟩
    · have hcount : ∀ r : Row, r.Fits → (t.putKey curBucketIDKeyName (bucketID (c + 1)) priority).view r =
          if r = .counter then some (bucketID (c + 1)) else t.view r :=
        fun r hr => ScanTx.view_putKey (r := .counter) trivial hr ..
      have hput := ScanTx.view_putKey (t := t.putKey curBucketIDKeyName (bucketID (c + 1)) priority)
        (r := .index (num p) key) (h.usable p hp) hr (bucketID (c + 1)) priority'
      rwa [hcount r hr] at hput

/-- `DeleteBucket` takes the bucket and what is in it out of the tree, whatever it leaves. -/
theorem Refines.deleteBucket (hin : T.has (p ++ [key]) = true) :
    ∃ t', t.deleteBucket (bucketID (num p)) key = some (.ok t') ∧ Refines t' (T.remove (p ++ [key])) num c := by
  have hrow : t.tx.fetchKey (bucketIndexKey (bucketID (num p)) key) = some (bucketID (num (p ++ [key]))) := by
    have hindex := h.index p hp key
    rwa [if_pos hin] at hindex
  let S : Set Nat := {n | ∃ q, T.has q = true ∧ p ++ [key] <+: q ∧ n = num q}
  have hS : ∀ n ∈ S, Usable n := by
    rintro n ⟨q, hq, -, rfl⟩
    exact h.usable q hq
  have hclosed : ∀ m ∈ S, ∀ k childID, t.view (.index m k) = some childID → ∃ m' ∈ S, childID = bucketID m' := by
    rintro m ⟨q, hq, hbegins, rfl⟩ k childID hchild
    rw [h.index q hq] at hchild
    split_ifs at hchild with hk
    exact ⟨num (q ++ [k]), ⟨q ++ [k], hk, hbegins.trans (prefix_append q [k]), rfl⟩, (Option.some.inj hchild).symm⟩
  obtain ⟨t', hrun, hgone, hview⟩ :=
    t.deleteBucket_spec hS hclosed ⟨p ++ [key], hin, prefix_rfl, rfl⟩ hrow
  refine ⟨t', hrun, h.delete hp hgone fun r hr hne => hview r hr fun heq => hne ?_⟩
  exact Row.key_injective hr (h.usable p hp) heq

theorem Refines.deleteBucket_notFound (hin : T.has (p ++ [key]) = false) :
    t.deleteBucket (bucketID (num p)) key = some (.error (.err .bucketNotFound)) := by
  have hrow : t.tx.fetchKey (bucketIndexKey (bucketID (num p)) key) = none := by
    have hindex := h.index p hp key
    rwa [if_neg (by simp [hin])] at hindex
  have hdelete : t.tx.deleteBucket (bucketID (num p)) key = some (.error (.err .bucketNotFound)) := by
    simp only [TreapTx.deleteBucket, hrow]
  unfold ScanTx.deleteBucket
  split <;> rename_i hrun <;> rw [hdelete] at hrun <;> cases hrun
  rfl

end

theorem Refines.putKey (hp : T.get? p = some m) (key value : Bytes) (priority : Nat) :
    Refines (t.putKey (bucketizedKey (bucketID (num p)) key) value priority) (T.set p (m.insert key value)) num c :=
  h.setEntry hp (fun k => by rw [get?_insert]; by_cases hk : k = key <;> simp [hk]) fun _ hr =>
    ScanTx.view_putKey (r := .entry (num p) key) (h.usable p (BucketTree.has_of_get? hp)) hr value priority

theorem Refines.deleteKey (hp : T.get? p = some m) (key : Bytes) :
    Refines (t.deleteKey (bucketizedKey (bucketID (num p)) key)) (T.set p (m.erase key)) num c :=
  h.setEntry hp (fun k => by rw [get?_erase]; by_cases hk : k = key <;> simp [hk]) fun _ hr =>
    ScanTx.view_deleteKey (r := .entry (num p) key) (h.usable p (BucketTree.has_of_get? hp)) hr

section ForEach
variable {ε : Type} (D : LevelDb)

theorem Refines.forEach (hp : T.get? p = some m) (fn : Option Bytes × Option Bytes → Option ε) :
    t.forEach D (bucketID (num p)) fn = some (callEach fn (m.entries.map fun e => (some e.1, some e.2))) := by
  have hlen := bucketID_length (num p)
  refine t.callRange_eq D (bucketID (num p)) m.sorted (fun k v => ?_) (fun e _ => ?_) fn
  · rw [← get?_eq_some, ← h.entries p m hp k]
    rfl
  · have hnot : bucketIndexPrefix.isPrefixOf (bucketID (num p) ++ e.1) = false := by
      rw [Bool.eq_false_iff]
      intro hpre
      obtain ⟨rest, hrest⟩ := isPrefixOf_iff_prefix.mp hpre
      exact (h.usable p (BucketTree.has_of_get? hp)).ne_index (append_inj_of_id rfl hrest.symm).1
    simp [ScanTx.shown, hnot, ScanTx.sliceFrom, hlen, drop_left']

theorem Refines.forEachBucket (hp : T.has p = true) (fn : Option Bytes → Option ε) :
    t.forEachBucket D (bucketID (num p)) fn = some (callEach fn ((T.names p).map some)) := by
  have hlen := bucketID_length (num p)
  have hsorted : ((T.names p).map fun n => (n, bucketID (num (p ++ [n])))).Pairwise fun a b => a.1 < b.1 :=
    pairwise_map.mpr BucketTree.sorted_names
  have hrun := t.callRange_eq D (bucketIndexPrefix ++ bucketID (num p)) hsorted (f := fun e => (some e.1, none)) ?_ ?_
    fun kv => fn kv.1
  · rw [ScanTx.forEachBucket, TreapTx.bucketRange_eq hlen, hrun, map_map, Option.map_some]
    have hpairs : ((fun e : Bytes × Bytes => (some e.1, (none : Option Bytes))) ∘ fun n =>
        (n, bucketID (num (p ++ [n])))) = (fun k => (k, none)) ∘ some := rfl
    rw [hpairs, ← map_map]
    exact congrArg some (callEach_map (g := Prod.fst) (fun _ => rfl) fn _)
  · intro k v
    have hrow : t.tx.fetchKey (bucketIndexPrefix ++ bucketID (num p) ++ k) = _ := h.index p hp k
    rw [hrow, mem_map]
    constructor
    · intro hv
      split_ifs at hv with hk
      exact ⟨k, BucketTree.mem_names.mpr hk, by rw [Option.some.inj hv]⟩
    · rintro ⟨n, hn, heq⟩
      cases heq
      rw [if_pos (BucketTree.mem_names.mp hn)]
  · intro e he
    have hpre : bucketIndexPrefix.isPrefixOf (bucketIndexPrefix ++ bucketID (num p) ++ e.1) = true := by
      rw [ isPrefixOf_iff_prefix, append_assoc]
      exact prefix_append ..
    have hdrop : (bucketIndexPrefix ++ bucketID (num p) ++ e.1).drop (bucketIndexPrefix.length + 4) = e.1 :=
      drop_left' (by rw [length_append, hlen])
    rw [ScanTx.shown, if_pos hpre, ScanTx.sliceFrom, if_pos, Option.map_some, hdrop]
    rw [length_append, length_append, hlen]
    exact Nat.le_add_right ..

end ForEach
end Refines

/-! ## Calls on handles -/

/-- The handle of a bucket that has not been deleted has the ID of the bucket. -/
structure Handles (ids : List Bytes) (paths : List (Option Path)) (T : BucketTree) (num : Path → Nat) : Prop where
  length : ids.length = paths.length
  live : ∀ (i : Nat) (p : Path), paths[i]? = some (some p) → T.has p = true ∧ ids[i]? = some (bucketID (num p))

section Handles
variable {ids : List Bytes} {paths : List (Option Path)} {T T' : BucketTree} {num' : Path → Nat}
variable (h : Handles ids paths T num)
include h

theorem Handles.mono (hT : ∀ p, T.has p = true → T'.has p = true ∧ num' p = num p) : Handles ids paths T' num' := by
  refine ⟨h.length, fun i p hi => ?_⟩
  obtain ⟨hp, hid⟩ := h.live i p hi
  obtain ⟨hp', hnum⟩ := hT p hp
  exact ⟨hp', by rw [hnum, hid]⟩

theorem Handles.opened (hp : T.has p = true) : Handles (ids ++ [bucketID (num p)]) (paths ++ [some p]) T num := by
  refine ⟨by rw [length_append, length_append, h.length]; rfl, fun i q hi => ?_⟩
  rcases Nat.lt_or_ge i paths.length with hlt | hge
  · rw [getElem?_append_left hlt] at hi
    rw [getElem?_append_left (h.length ▸ hlt)]
    exact h.live i q hi
  · rw [getElem?_append_right hge] at hi
    rw [getElem?_append_right (h.length ▸ hge), h.length]
    obtain ⟨hzero, hq⟩ := List.getElem?_eq_some_iff.mp hi
    have hi0 : i - paths.length = 0 := by simpa using hzero
    rw [hi0] at hi ⊢
    obtain rfl : p = q := by simpa using hi
    exact ⟨hp, rfl⟩

theorem Handles.deleted {q : Path} (hq : q ≠ []) :
    Handles ids (paths.map fun p? => p?.filter fun p => !q.isPrefixOf p) (T.remove q) num := by
  refine ⟨by rw [length_map, h.length], fun i p hi => ?_⟩
  rw [getElem?_map] at hi
  obtain ⟨p?, hi, hfilter⟩ := Option.map_eq_some_iff.mp hi
  obtain ⟨rfl, hnot⟩ := Option.filter_eq_some_iff.mp hfilter
  obtain ⟨hp, hid⟩ := h.live i p hi
  refine ⟨(BucketTree.has_remove hq p).mpr ⟨?_, hp⟩, hid⟩
  simpa [Bool.eq_false_iff] using hnot

end Handles

/-- The transaction's buckets are those of the tree. -/
def Mirrors (w : BucketTx) (r : Reference) : Prop :=
  ∃ num c, Refines w.tx r.tree num c ∧ Handles w.handles r.handles r.tree num

namespace BucketTx
variable {ε : Type}

/-- The condition on a call. -/
def Fit (w : BucketTx) (op : BucketOp ε) : Prop :=
  ∀ id, w.handles[op.handle]? = some id →
    match op.call with
    | .createBucket key _ _ => CreateFits w.tx id key
    | .createBucketIfNotExists key _ _ => CreateFits w.tx id key
    | _ => True

variable {w : BucketTx} {r : Reference} {c : Nat}

/-- The answers are the same, and the buckets are still those of the tree. -/
def Same (x : BucketAnswer ε × BucketTx) (y : BucketAnswer ε × Reference) : Prop := x.1 = y.1 ∧ Mirrors x.2 y.2

/-- A nested bucket that is there is returned. -/
theorem same_opened (h : Refines w.tx r.tree num c) (hh : Handles w.handles r.handles r.tree num)
    (hp : r.tree.has p = true) : Same (ε := ε) (w.opened (.ok (bucketID (num p), w.tx))) (r.openAt p) := by
  refine ⟨?_, num, c, h, hh.opened hp⟩
  rw [opened, Reference.openAt, hh.length]

/-- Creating a bucket. -/
theorem same_createBucket (h : Refines w.tx r.tree num c) (hh : Handles w.handles r.handles r.tree num)
    (hp : r.tree.has p = true) {key : Bytes} (hfits : CreateFits w.tx (bucketID (num p)) key)
    (priority priority' : Nat) :
    Same (ε := ε) (w.opened (w.tx.createBucket (bucketID (num p)) key priority priority')) (r.createBucket p key) := by
  rw [Reference.createBucket]
  by_cases hkey : key = []
  · rw [ScanTx.createBucket, if_pos (by simp [hkey]), if_pos hkey]
    exact ⟨rfl, num, c, h, hh⟩
  · rw [if_neg hkey]
    cases hnew : r.tree.has (p ++ [key]) with
    | true =>
      have hlen : ¬ key.length = 0 := by simpa using hkey
      rw [ScanTx.createBucket, if_neg hlen, h.hasKey_index hp, hnew, if_pos rfl, if_pos rfl]
      exact ⟨rfl, num, c, h, hh⟩
    | false =>
      obtain ⟨t', num', c', hrun, h', hnum⟩ := h.createBucket hp hkey hnew hfits priority priority'
      have hset := BucketTree.has_set (T := r.tree) (p := p ++ [key]) .empty (by rwa [dropLast_concat])
      have hh' : Handles w.handles r.handles (r.tree.set (p ++ [key]) .empty) num' :=
        hh.mono fun q hq => ⟨(hset q).mpr (.inr hq), hnum q hq⟩
      rw [hrun, if_neg Bool.false_ne_true]
      exact same_opened (w := ⟨t', w.handles⟩) (r := ⟨r.tree.set (p ++ [key]) .empty, r.handles⟩) h' hh'
        ((hset _).mpr (.inl rfl))

/-- A call answers what it answers on the tree. -/
theorem same_call (D : LevelDb) (h : Refines w.tx r.tree num c) (hh : Handles w.handles r.handles r.tree num)
    {m : SortedMap Bytes Bytes} (hp : r.tree.get? p = some m) {call : BucketCall ε} {i : Nat}
    (hi : w.handles[i]? = some (bucketID (num p))) (hfit : w.Fit ⟨i, call⟩) :
    ∃ x, w.call D (bucketID (num p)) call = some x ∧ Same x (r.call p m call) := by
  have hhas := BucketTree.has_of_get? hp
  have hfit := hfit _ hi
  cases call with
  | bucket key =>
    rw [BucketTx.call, h.bucket hhas, Reference.call, Reference.bucket]
    split_ifs with hin
    · exact ⟨_, rfl, same_opened h hh hin⟩
    · exact ⟨_, rfl, rfl, num, c, h, hh⟩
  | createBucket key priority priority' =>
    exact ⟨_, rfl, same_createBucket h hh hhas hfit priority priority'⟩
  | createBucketIfNotExists key priority priority' =>
    rw [BucketTx.call, ScanTx.createBucketIfNotExists, h.bucket hhas, Reference.call]
    split_ifs with hin
    · exact ⟨_, rfl, same_opened h hh hin⟩
    · exact ⟨_, rfl, same_createBucket h hh hhas hfit priority priority'⟩
  | deleteBucket key =>
    rw [BucketTx.call, Reference.call, Reference.deleteBucket]
    cases hin : r.tree.has (p ++ [key]) with
    | true =>
      obtain ⟨t', hrun, h'⟩ := h.deleteBucket hhas hin
      rw [hrun]
      exact ⟨_, rfl, rfl, num, c, h', hh.deleted (by simp)⟩
    | false =>
      rw [h.deleteBucket_notFound hhas hin]
      exact ⟨_, rfl, rfl, num, c, h, hh⟩
  | put key value priority =>
    rw [BucketTx.call, ScanTx.put, Reference.call, Reference.put]
    by_cases hkey : key = []
    · rw [if_pos (by simp [hkey]), if_pos hkey]
      exact ⟨_, rfl, rfl, num, c, h, hh⟩
    · rw [if_neg (by simpa using hkey), if_neg hkey]
      refine ⟨_, rfl, rfl, num, c, h.putKey hp key value priority, hh.mono fun q hq => ⟨?_, rfl⟩⟩
      exact (BucketTree.has_set _ (BucketTree.has_dropLast hhas) q).mpr (.inr hq)
  | get key =>
    refine ⟨_, rfl, ?_, num, c, h, hh⟩
    rw [ScanTx.get, Reference.call]
    by_cases hkey : key = []
    · rw [if_pos (by simp [hkey]), if_pos hkey]
    · rw [if_neg (by simpa using hkey), if_neg hkey, ← h.entries p m hp key]
      rfl
  | delete key =>
    rw [BucketTx.call, ScanTx.deleteEntry, Reference.call, Reference.delete]
    by_cases hkey : key = []
    · rw [if_pos (by simp [hkey]), if_pos hkey]
      exact ⟨_, rfl, rfl, num, c, h, hh⟩
    · rw [if_neg (by simpa using hkey), if_neg hkey]
      refine ⟨_, rfl, rfl, num, c, h.deleteKey hp key, hh.mono fun q hq => ⟨?_, rfl⟩⟩
      exact (BucketTree.has_set _ (BucketTree.has_dropLast hhas) q).mpr (.inr hq)
  | forEach fn =>
    rw [BucketTx.call, h.forEach D hp]
    exact ⟨_, rfl, rfl, num, c, h, hh⟩
  | forEachBucket fn =>
    rw [BucketTx.call, h.forEachBucket D hhas]
    exact ⟨_, rfl, rfl, num, c, h, hh⟩

theorem step_mirrors (D : LevelDb) (h : Mirrors w r) {op : BucketOp ε} (hfit : w.Fit op) {a : BucketAnswer ε}
    {r' : Reference} (hstep : r.step op = some (a, r')) : ∃ w', w.step D op = some (a, w') ∧ Mirrors w' r' := by
  obtain ⟨num, c, h, hh⟩ := h
  obtain ⟨p, hhandle, hrest⟩ := Option.bind_eq_some_iff.mp hstep
  obtain ⟨m, hp, hcall⟩ := Option.bind_eq_some_iff.mp hrest
  obtain ⟨-, hid⟩ := hh.live op.handle p (Option.join_eq_some_iff.mp hhandle)
  obtain ⟨⟨a', w'⟩, hrun, hanswer, hmirrors⟩ := same_call D h hh hp hid hfit
  rw [Option.some.inj hcall] at hanswer hmirrors
  obtain rfl : a' = a := hanswer
  refine ⟨w', ?_, hmirrors⟩
  rwa [step, hid]

end BucketTx

/-- In every run of calls on buckets that have not been deleted, if every bucket that is created gets a number
without rows, the calls answer what they answer on a tree of maps. -/
theorem answers_eq_of_fitCreates {ε : Type} (D : LevelDb) (w : BucketTx) (r : Reference) (h : Mirrors w r)
    (ops : List (BucketOp ε)) (hfit : AllCalls (BucketTx.step D) BucketTx.Fit w ops) (answers : List (BucketAnswer ε))
    (hlive : runAnswers Reference.step r ops = some answers) :
    runAnswers (BucketTx.step D) w ops = some answers := by
  refine runAnswers_eq_of_simulates (R := Mirrors) ?_ h hfit hlive
  intro w r op a r' hmirrors hop hstep
  exact BucketTx.step_mirrors D hmirrors hop hstep

/-! ## A new database -/

/-- Cursors on maps as leveldb iterators. -/
def LevelDb.ofMap : LevelDb where
  Iterator := Position Bytes
  calls ldb range := .ofMap (ldb.filter range.contains)
  on ldb range := TwoWay.OnMap (ldb.filter range.contains)
  new _ _ := .fresh
  right _ _ := ScanTx.levelIter_ofMap ..

/-- The first transaction on a new database, with the metadata bucket. -/
def BucketTx.first (cfg : StoreConfig) : BucketTx where
  tx := ⟨.ofLdb (initDB cfg), .nil, ScanTx.ordered_nilNode, ScanTx.toMap_nilNode⟩
  handles := [metadataBucketID]

/-- The top has the location to write at, and the block index is in it. -/
def Reference.first (cfg : StoreConfig) : Reference where
  tree :=
    { buckets := (SortedMap.empty.insert [] (SortedMap.empty.insert writeLocKeyName (serializeWriteRow cfg 0 0))).insert
        [blockIdxBucketName] .empty
      root := rfl
      closed := by
        intro p n hn
        rw [SortedMap.has, get?_insert, get?_insert] at hn
        split_ifs at hn with h₁ h₂
        · obtain ⟨rfl, -⟩ := append_inj' (show p ++ [_] = [] ++ [_] from h₁) rfl
          rfl
        · exact absurd (congrArg length h₂) (by simp)
        · cases hn }
  handles := [some []]

section First
variable (cfg : StoreConfig)

theorem view_first {r : Row} (hr : r.Fits) : (BucketTx.first cfg).tx.view r =
    if r = .counter then some (bucketID 1) else if r = .index 0 blockIdxBucketName then some (bucketID 1)
    else if r = .entry 0 writeLocKeyName then some (serializeWriteRow cfg 0 0) else none := by
  have h₀ : Usable 0 := usable_of_le (by decide)
  show (((SortedMap.empty.insert (Row.entry 0 writeLocKeyName).key (serializeWriteRow cfg 0 0)).insert
    (Row.index 0 blockIdxBucketName).key (bucketID 1)).insert Row.counter.key (bucketID 1)).get? r.key = _
  simp only [get?_insert, Row.key_inj hr (q := .counter) trivial, Row.key_inj hr (q := .index 0 _) h₀,
    Row.key_inj hr (q := .entry 0 _) h₀]
  rfl

theorem get?_first (p : Path) : (Reference.first cfg).tree.get? p =
    if p = [blockIdxBucketName] then some .empty
    else if p = [] then some (SortedMap.empty.insert writeLocKeyName (serializeWriteRow cfg 0 0)) else none := by
  show (((SortedMap.empty.insert [] _).insert [blockIdxBucketName] SortedMap.empty).get? p) = _
  rw [get?_insert, get?_insert]
  split_ifs <;> rfl

theorem has_first (p : Path) : (Reference.first cfg).tree.has p = true ↔ p = [blockIdxBucketName] ∨ p = [] := by
  rw [BucketTree.has_eq, get?_first]
  split_ifs with h₁ h₂
  · simp [h₁]
  · simp [h₂]
  · simp [h₁, h₂]

/-- A new database is a tree of two buckets. -/
theorem mirrors_first : Mirrors (.first cfg) (.first cfg) := by
  have h₀ : Usable 0 := usable_of_le (by decide)
  have h₁ : Usable 1 := usable_of_le (by decide)
  refine ⟨fun p => if p = [blockIdxBucketName] then 1 else 0, 1, ⟨rfl, ?_, ?_, ?_, ?_, le_rfl, by decide, ?_, ?_, ?_, ?_⟩,
    ⟨rfl, ?_⟩⟩
  · intro p hp
    split_ifs with hblock <;> simp [hblock]
  · intro p hp
    split_ifs
    · exact h₁
    · exact h₀
  · intro p q hp hq heq
    rcases (has_first cfg p).mp hp with rfl | rfl <;> rcases (has_first cfg q).mp hq with rfl | rfl <;> simp_all
  · intro p hp
    split_ifs <;> omega
  · rw [view_first cfg (r := .counter) trivial, if_pos rfl]
  · intro p m hm k
    rw [get?_first] at hm
    split_ifs at hm with hblock htop
    · cases hm
      rw [if_pos hblock, view_first cfg (r := .entry 1 k) h₁]
      simp
    · cases hm
      rw [if_neg hblock, view_first cfg (r := .entry 0 k) h₀, get?_insert]
      by_cases hk : k = writeLocKeyName
      · simp [hk]
      · simp [hk]
  · intro p hp n
    rcases (has_first cfg p).mp hp with rfl | rfl
    · have hnone : (Reference.first cfg).tree.has ([blockIdxBucketName] ++ [n]) = false := by
        rw [← Bool.not_eq_true, has_first]
        simp
      rw [hnone, if_pos rfl, view_first cfg (r := .index 1 n) h₁]
      simp
    · have hblock : (Reference.first cfg).tree.has [n] = true ↔ n = blockIdxBucketName := by
        rw [has_first]
        simp
      rw [nil_append, if_neg (by simp), view_first cfg (r := .index 0 n) h₀]
      by_cases hn : n = blockIdxBucketName
      · rw [if_pos (hblock.mpr hn)]
        simp [hn]
      · rw [if_neg (mt hblock.mp hn)]
        simp [hn]
  · intro n hn hu k
    have hne : n ≠ 0 := by omega
    rw [view_first cfg (r := .entry n k) hu, view_first cfg (r := .index n k) hu]
    simp [hne]
  · intro i p hi
    cases i with
    | zero =>
      cases Option.some.inj hi
      exact ⟨(has_first cfg []).mpr (Or.inr rfl), rfl⟩
    | succ i => cases hi

end First

/-- On a new database: make a bucket, put a pair in it and read it, and ask for the buckets. -/
theorem answers_eq_of_fitCreates_first : runAnswers (BucketTx.step LevelDb.ofMap) (.first ⟨0, 0, fun _ => 0⟩)
      [⟨0, .createBucket [120] 5 3⟩, ⟨1, .put [107] [118] 1⟩, ⟨1, .get [107]⟩, ⟨0, .forEachBucket fun _ => none⟩] =
    some [.opened 1, .done, .value (some [118]), .calledNames [some blockIdxBucketName, some [120]] (none : Option Nat)] := by
  apply answers_eq_of_fitCreates LevelDb.ofMap _ (.first ⟨0, 0, fun _ => 0⟩) (mirrors_first _)
  case hlive => decide
  refine ⟨?_, ?_⟩
  · rintro id hid - -
    have hcounter := view_first ⟨0, 0, fun _ => 0⟩ (r := .counter) trivial
    have hname : ([120] : Bytes) ≠ blockIdxBucketName := by decide
    rw [if_neg fun h => hname h.2]
    intro cur hcur
    cases hcounter.symm.trans hcur
    exact usable_of_le (by decide)
  · exact fun _ _ => ⟨fun _ _ => trivial, fun _ _ => ⟨fun _ _ => trivial, fun _ _ => ⟨fun _ _ => trivial, fun _ _ => trivial⟩⟩⟩

/-- On a new database: put two pairs in the block index, delete it, and make it again. One of the pairs is back. -/
theorem blockIdx_keeps_pair :
    let calls : List (BucketOp Nat) := [⟨0, .createBucketIfNotExists blockIdxBucketName 0 0⟩, ⟨1, .put [97] [1] 1⟩,
      ⟨1, .put [98] [2] 2⟩, ⟨0, .deleteBucket blockIdxBucketName⟩, ⟨0, .createBucket blockIdxBucketName 3 4⟩,
      ⟨2, .get [98]⟩]
    runAnswers Reference.step (.first ⟨0, 0, fun _ => 0⟩) calls =
        some [.opened 1, .done, .done, .done, .opened 2, .value none] ∧
      runAnswers (BucketTx.step LevelDb.ofMap) (.first ⟨0, 0, fun _ => 0⟩) calls =
        some [.opened 1, .done, .done, .done, .opened 2, .value (some [2])] := by
  decide +kernel

end NogoCommons.Ffldb
