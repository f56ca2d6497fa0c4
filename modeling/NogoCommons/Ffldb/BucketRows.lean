import NogoCommons.Ffldb.BucketOps

/-!
# One space of keys for all buckets

Every key that the calls of a bucket use is of one of three kinds: an entry of a bucket, an entry of the bucket
index, or the counter of the bucket IDs (`Row`). As long as no ID is `bidx`, under which the index is kept, or
`-cbi`, with which the key of the counter goes on, different rows have different keys (`Row.key_injective`).
So what a call does can be said row by row (`view`), and the rest of the argument does not see bytes.

The two IDs are those of the buckets number 1651074168 and 761487977, so that there is no danger up to
2 ^ 29 (`usable_of_le`).
-/

namespace NogoCommons.Ffldb
open Lib List

/-- The ID of the bucket with a number. -/
def bucketID (n : Nat) : Bytes := beBytes 4 n

/-- A number that fits into an ID, which is not one of the two that the index is kept under. -/
structure Usable (n : Nat) : Prop where
  lt : n < 2 ^ 32
  ne_index : bucketID n ≠ bucketIndexPrefix
  ne_counter : bucketID n ≠ ascii "-cbi"

inductive Row where
  | entry (n : Nat) (key : Bytes)
  | index (n : Nat) (key : Bytes)
  | counter
deriving DecidableEq

namespace Row

def key : Row → Bytes
  | entry n key => bucketizedKey (bucketID n) key
  | index n key => bucketIndexKey (bucketID n) key
  | counter => curBucketIDKeyName

/-- The row is that of a bucket with a usable number, or the counter. -/
def Fits : Row → Prop
  | entry n _ => Usable n
  | index n _ => Usable n
  | counter => True

/-- The row belongs to one of these buckets. -/
def Of (S : Set Nat) : Row → Prop
  | entry n _ => n ∈ S
  | index n _ => n ∈ S
  | counter => False

end Row

theorem bucketID_length (n : Nat) : (bucketID n).length = 4 := beBytes_length 4 n

variable {n : Nat} {r r' : Row}

theorem beNat_bucketID (h : n < 2 ^ 32) : beNat (bucketID n) = n := beNat_beBytes_of_lt h

theorem bucketID_injective {m : Nat} (hm : m < 2 ^ 32) (hn : n < 2 ^ 32) (h : bucketID m = bucketID n) : m = n := by
  rw [← beNat_bucketID hm, h, beNat_bucketID hn]

theorem usable_of_le (h : n ≤ 2 ^ 29) : Usable n := by
  have hlt : n < 2 ^ 32 := h.trans_lt (by decide)
  refine ⟨hlt, fun heq => ?_, fun heq => ?_⟩
  · have hn := beNat_bucketID hlt
    rw [heq, show beNat bucketIndexPrefix = 1651074168 by decide] at hn
    omega
  · have hn := beNat_bucketID hlt
    rw [heq, show beNat (ascii "-cbi") = 761487977 by decide] at hn
    omega

theorem curBucketIDKeyName_eq : curBucketIDKeyName = bucketIndexPrefix ++ (ascii "-cbi" ++ ascii "d") := by
  decide

theorem append_inj_of_id {id k k' : Bytes} (hid : id.length = 4) (h : bucketID n ++ k = id ++ k') :
    bucketID n = id ∧ k = k' :=
  append_inj h ((bucketID_length n).trans hid.symm)

/-- Different rows have different keys. -/
theorem Row.key_injective (hr : r.Fits) (hr' : r'.Fits) (h : r.key = r'.key) : r = r' := by
  -- An ID that is not `bidx` is not the beginning of a key of the index.
  have hentry : ∀ {n k rest}, Usable n → bucketizedKey (bucketID n) k ≠ bucketIndexPrefix ++ rest := by
    intro n k rest hn heq
    exact hn.ne_index (append_inj_of_id rfl heq).1
  have hcounter : ∀ {n k}, Usable n → bucketIndexKey (bucketID n) k ≠ curBucketIDKeyName := by
    intro n k hn heq
    rw [bucketIndexKey, curBucketIDKeyName_eq, append_assoc] at heq
    exact hn.ne_counter (append_inj_of_id rfl (append_cancel_left heq)).1
  cases r with
  | entry n k =>
    cases r' with
    | entry n' k' =>
      obtain ⟨hid, rfl⟩ := append_inj_of_id (bucketID_length n') h
      rw [bucketID_injective hr.lt hr'.lt hid]
    | index n' k' => exact absurd (h.trans (append_assoc ..)) (hentry hr)
    | counter => exact absurd (h.trans curBucketIDKeyName_eq) (hentry hr)
  | index n k =>
    cases r' with
    | entry n' k' => exact absurd (h.symm.trans (append_assoc ..)) (hentry hr')
    | index n' k' =>
      rw [Row.key, Row.key, bucketIndexKey, bucketIndexKey, append_assoc, append_assoc] at h
      obtain ⟨hid, rfl⟩ := append_inj_of_id (bucketID_length n') (append_cancel_left h)
      rw [bucketID_injective hr.lt hr'.lt hid]
    | counter => exact absurd h (hcounter hr)
  | counter =>
    cases r' with
    | entry n' k' => exact absurd (h.symm.trans curBucketIDKeyName_eq) (hentry hr')
    | index n' k' => exact absurd h.symm (hcounter hr')
    | counter => rfl

theorem Row.key_inj {q : Row} (hr : r.Fits) (hq : q.Fits) : r.key = q.key ↔ r = q := ⟨key_injective hr hq, congrArg key⟩

/-- The keys of these buckets and of their entries in the index are the keys of their rows. -/
theorem Row.of_within {S : Set Nat} (hS : ∀ n ∈ S, Usable n) (hr : r.Fits)
    (h : TreapTx.Within {id | ∃ n ∈ S, id = bucketID n} r.key) : r.Of S := by
  obtain ⟨_, ⟨n, hn, rfl⟩, ⟨k, hk⟩ | ⟨k, hk⟩⟩ := h
  · have heq : Row.entry n k = r := Row.key_injective (hS n hn) hr hk
    rwa [← heq]
  · have heq : Row.index n k = r := Row.key_injective (hS n hn) hr hk
    rwa [← heq]

namespace ScanTx

/-- What the transaction has in a row. -/
def view (t : ScanTx) (r : Row) : Option Bytes := t.tx.fetchKey r.key

variable {t : ScanTx}

theorem view_putKey (hr : r.Fits) (hr' : r'.Fits) (value : Bytes) (priority : Nat) :
    (t.putKey r.key value priority).view r' = if r' = r then some value else t.view r' := by
  refine (TreapTx.fetchKey_putKey ..).trans ?_
  exact if_congr (Row.key_inj hr' hr) rfl rfl

theorem view_deleteKey (hr : r.Fits) (hr' : r'.Fits) :
    (t.deleteKey r.key).view r' = if r' = r then none else t.view r' := by
  refine (TreapTx.fetchKey_deleteKey ..).trans ?_
  exact if_congr (Row.key_inj hr' hr) rfl rfl

/-! ## Deleting a bucket -/

/-- `DeleteBucket`, with a set of buckets that has the one to be deleted and what is nested in it. All it may
do is to delete rows of these buckets, and it does delete the bucket's entry in the index. -/
theorem deleteBucket_spec (t : ScanTx) {id key : Bytes} {S : Set Nat} (hS : ∀ n ∈ S, Usable n)
    (hclosed : ∀ m ∈ S, ∀ k childID, t.view (.index m k) = some childID → ∃ m' ∈ S, childID = bucketID m')
    (hn : n ∈ S) (hchild : t.tx.fetchKey (bucketIndexKey id key) = some (bucketID n)) :
    ∃ t', t.deleteBucket id key = some (.ok t') ∧ t'.tx.fetchKey (bucketIndexKey id key) = none ∧
      ∀ r : Row, r.Fits → r.key ≠ bucketIndexKey id key →
        t'.view r = t.view r ∨ r.Of S ∧ t'.view r = none := by
  let ids : Set Bytes := {id | ∃ n ∈ S, id = bucketID n}
  -- What is on the stack are such buckets, and what has gone are keys of such buckets.
  let Left : TreapTx → Prop := fun tx =>
    ∀ k, tx.fetchKey k = t.tx.fetchKey k ∨ TreapTx.Within ids k ∧ tx.fetchKey k = none
  let I : List Bytes → TreapTx → Prop := fun stack tx => (∀ x ∈ stack, x ∈ ids) ∧ Left tx
  have hleft : ∀ {tx vis}, Left tx → (∀ e ∈ vis, TreapTx.Within ids e.1) → Left (tx.deleteAll vis) := by
    intro tx vis htx hvis k
    rw [TreapTx.fetchKey_deleteAll]
    split_ifs with hk
    · obtain ⟨e, he, rfl⟩ := mem_map.mp hk
      exact .inr ⟨hvis e he, rfl⟩
    · exact htx k
  have hturn : ∀ tx childID stack found tx', I (childID :: stack) tx →
      tx.deleteNested childID = some (found, tx') → I (found ++ stack) tx' := by
    rintro tx childID stack found tx' ⟨hstack, hview⟩ hrun
    obtain ⟨vis, vis', rfl, rfl, hvis, hvis'⟩ := TreapTx.deleteNested_cases hrun
    obtain ⟨m, hm, rfl⟩ := hstack childID mem_cons_self
    rw [TreapTx.bucketRange_eq (bucketID_length m)] at hvis'
    have hstep := hleft hview fun e he => ⟨_, ⟨m, hm, rfl⟩, .inl (contains_bytesPrefix.mp (hvis e he))⟩
    refine ⟨fun x hx => ?_, hleft hstep fun e he => ⟨_, ⟨m, hm, rfl⟩, .inr (contains_bytesPrefix.mp (hvis' e he).1)⟩⟩
    rcases mem_append.mp hx with hx | hx
    · obtain ⟨e, he, rfl⟩ := mem_map.mp (mem_reverse.mp hx)
      obtain ⟨k, hk⟩ := contains_bytesPrefix.mp (hvis' e he).1
      have hlive : t.tx.fetchKey e.1 = some e.2 := by
        rcases hstep e.1 with hsame | ⟨-, hnone⟩
        · rw [← hsame]
          exact (hvis' e he).2
        · rw [(hvis' e he).2] at hnone
          cases hnone
      rw [← hk] at hlive
      exact hclosed m hm k e.2 hlive
    · exact hstack x (mem_cons_of_mem _ hx)
  have hstart : I [bucketID n] t.tx := by
    refine ⟨fun x hx => ?_, fun k => .inl rfl⟩
    rw [mem_singleton.mp hx]
    exact ⟨n, hn, rfl⟩
  obtain ⟨tx', hrun, -, hview⟩ := TreapTx.exists_worklist_run hturn t.tx (bucketID n) hstart
  have hdelete : t.tx.deleteBucket id key = some (.ok (tx'.deleteKey (bucketIndexKey id key))) := by
    simp only [TreapTx.deleteBucket, hchild, hrun, Option.map_some]
  refine ⟨⟨tx'.deleteKey (bucketIndexKey id key), t.cachedKeys, t.ordered, ?_⟩, ?_, ?_, fun r hr hne => ?_⟩
  · rw [TreapTx.snapshot_deleteBucket hdelete]
    exact t.shows
  · unfold deleteBucket
    split <;> rename_i h <;> rw [hdelete] at h <;> cases h
    rfl
  · rw [TreapTx.fetchKey_deleteKey, if_pos rfl]
  · rw [view, TreapTx.fetchKey_deleteKey, if_neg hne]
    exact (hview r.key).imp_right fun h => ⟨Row.of_within hS hr h.1, h.2⟩

/-! ## Going through a range -/

variable {f : Bytes × Bytes → Option Bytes × Option Bytes}

theorem callLoop_spec {ε : Type} {D : LevelDb} {range : KeyRange} (fn : Option Bytes × Option Bytes → Option ε) :
    ∀ {c} {before rest},
      (t.liveIn range).entries = before ++ rest →
      (∀ e ∈ rest, shown true (some e) = some ⟨true, (f e).1, (f e).2⟩) →
      t.RidesOn range (D.on t.tx.snapshot.dbSnapshot range) true c (rest.head?.map Prod.fst) → rest.length < n →
      t.callLoop D (t.ldbCalls D range) fn n c = some (callEach fn (rest.map f)) := by
  have hL := D.right t.tx.snapshot.dbSnapshot range
  induction n with
  | zero =>
    intro c before rest hlive hshown hon hn
    cases hn
  | succ n ih =>
    intro c before rest hlive hshown hon hn
    cases rest with
    | nil =>
      have hcur : c.current = none := by
        cases hon with
        | nowhere hcur => exact hcur
      rw [callLoop, hcur]
      rfl
    | cons e rest =>
      obtain ⟨hentry, ⟨side, hcur⟩, hnext⟩ := RidesOn.here (L := t.ldbCalls D range) hL hlive hon
      rw [callLoop, hcur, map_cons, callEach]
      simp only [hentry, hshown e mem_cons_self, Option.bind_eq_bind, Option.bind_some]
      rw [length_cons, Nat.succ_lt_succ_iff] at hn
      have hrest := ih (hlive.trans (append_cons before e rest)) (fun e' he' => hshown e' (mem_cons_of_mem _ he'))
        hnext hn
      cases fn (f e) with
      | some err => rfl
      | none =>
        rw [hrest]
        rfl

/-- The loop over the keys with a prefix: the callback gets what is there, in the order of the keys. -/
theorem callRange_eq {ε : Type} (D : LevelDb) (t : ScanTx) (p : Bytes) {kvs : List (Bytes × Bytes)}
    (hsorted : kvs.Pairwise fun a b => a.1 < b.1) (hmem : ∀ k v, t.tx.fetchKey (p ++ k) = some v ↔ (k, v) ∈ kvs)
    (hshown : ∀ e ∈ kvs, shown true (some (p ++ e.1, e.2)) = some ⟨true, (f e).1, (f e).2⟩)
    (fn : Option Bytes × Option Bytes → Option ε) :
    t.callRange D (bytesPrefix p) fn = some (callEach fn (kvs.map f)) := by
  have hlive : (t.liveIn (bytesPrefix p)).entries = kvs.map fun e => (p ++ e.1, e.2) := by
    refine SortedMap.entries_eq_of_mem ?_ fun e => ?_
    · rw [pairwise_map]
      exact hsorted.imp fun h => (append_lt_append_left p).mpr h
    · obtain ⟨k, v⟩ := e
      rw [mem_liveIn_iff, contains_bytesPrefix, mem_map]
      constructor
      · rintro ⟨⟨k, rfl⟩, hv⟩
        exact ⟨(k, v), (hmem k v).mp hv, rfl⟩
      · rintro ⟨⟨k', v'⟩, he, heq⟩
        cases heq
        exact ⟨prefix_append p k', (hmem k' v').mpr he⟩
  have hL := D.right t.tx.snapshot.dbSnapshot (bytesPrefix p)
  have hfirst := RidesOn.first (t := t) hL
  have hsize := (scan_walks hL).size hfirst
  rw [nearestKey?_all, hlive] at hfirst
  rw [hlive] at hsize
  have hrest : (t.liveIn (bytesPrefix p)).entries = [] ++ kvs.map fun e => (p ++ e.1, e.2) := hlive
  refine (callLoop_spec fn (f := fun e => f (e.1.drop p.length, e.2)) hrest ?_ hfirst
    (Nat.lt_succ_of_le hsize)).trans ?_
  · intro e he
    obtain ⟨e', he', rfl⟩ := mem_map.mp he
    simpa using hshown e' he'
  · rw [map_map]
    congr 2
    refine map_congr_left fun e _ => ?_
    simp

end ScanTx
end NogoCommons.Ffldb
