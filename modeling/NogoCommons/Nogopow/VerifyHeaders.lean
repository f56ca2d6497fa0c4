import NogoCommons.Lib.Transition
import NogoCommons.Nogopow.Engine

/-!
# `nogopow/nogopow.go` — verifying a batch

`VerifyHeaders` starts one goroutine for each header and hands the caller a channel. A worker
looks at the abort channel, verifies its header and sends the result; when all are done the
channel is closed. The channel has room for every result, so that no worker waits for the caller.

What is sent carries no index. The channel delivers in the order of the sends, which is the order
in which the scheduler lets the workers finish, and any worker may finish first. So the `i`-th
value is the verdict on the `i`-th header in every interleaving exactly if all headers have the
same verdict (`verifyHeaders_attributed_iff`); what does hold in every interleaving is the number
of values (`results_length_of_closed`).
-/

namespace NogoCommons.Nogopow
open Lib List
variable {v : Verdict}
namespace Engine
variable {P : Primitives}

/-! ## A verdict does not depend on the engine's history -/

theorem checkSeal_verdict (e : Engine P) (h : Header) (blockHash : Hash) :
    (e.checkSeal h blockHash).map Prod.fst = (calcSeed h).map fun seed =>
      if checkPow (computePoWHash P blockHash seed) h.difficulty then .ok ()
      else .error .invalidSeal := by
  cases hseed : calcSeed h with
  | error p => simp [checkSeal, hseed, bind, Except.bind, Except.map]
  | ok seed => simp [checkSeal, hseed, bind, Except.bind, Except.map, check, computePoW_fst]

variable {e e' : Engine P}

theorem checkSeal_powMode {h : Header} {blockHash : Hash} (hok : e.checkSeal h blockHash = .ok (v, e')) :
    e'.powMode = e.powMode := by
  cases hseed : calcSeed h with
  | error p => simp [checkSeal, hseed, bind, Except.bind] at hok
  | ok seed =>
    simp only [checkSeal, hseed, bind, Except.bind, Except.ok.injEq, Prod.mk.injEq] at hok
    rw [← hok.2]
    rfl

/-- Engines in the same mode agree on every header, whatever they have cached. -/
theorem verifyHeader_verdict (hmode : e.powMode = e'.powMode) (h : Header) (withSeal : Bool) :
    (e.verifyHeader h withSeal).map Prod.fst = (e'.verifyHeader h withSeal).map Prod.fst := by
  unfold verifyHeader verifySeal
  rw [← hmode]
  by_cases hfake : e.powMode = .fake
  · simp [hfake, pure, Except.pure, Except.map]
  rw [if_neg hfake, if_neg hfake]
  cases h.number with
  | none => rfl
  | some n =>
    simp only [deref_some, bind, Except.bind]
    split_ifs
    · rfl
    · rw [checkSeal_verdict, checkSeal_verdict]
    · rfl

theorem verifyHeader_powMode {h : Header} {withSeal : Bool} (hok : e.verifyHeader h withSeal = .ok (v, e')) :
    e'.powMode = e.powMode := by
  unfold verifyHeader verifySeal at hok
  split_ifs at hok
  · cases hok
    rfl
  · cases hn : h.number with
    | none => simp [hn, deref, bind, Except.bind] at hok
    | some n =>
      simp only [hn, deref_some, bind, Except.bind] at hok
      split_ifs at hok
      · cases hok
        rfl
      · exact checkSeal_powMode hok
  · cases hn : h.number with
    | none => simp [hn, deref, bind, Except.bind] at hok
    | some n =>
      simp only [hn, deref_some, bind, Except.bind] at hok
      split_ifs at hok
      all_goals
        cases hok
        rfl

end Engine

/-! ## The goroutines -/

/-- Where one worker stands. -/
inductive Worker where
  /-- The loop has not come to its `go` statement. -/
  | unborn
  | started
  /-- It has the value it is going to send. -/
  | holding (v : Verdict)
  /-- It has sent its value and called `wg.Done()`. -/
  | done
deriving DecidableEq

/-- How many steps a worker still has before it. -/
def Worker.left : Worker → Nat
  | .unborn => 3
  | .started => 2
  | .holding _ => 1
  | .done => 0

/-- How many values a worker still has to send. -/
def Worker.owes : Worker → Nat
  | .done => 0
  | _ => 1

/-- The state `VerifyHeaders` shares with its `n` workers. -/
structure Batch (P : Primitives) (n : Nat) where
  engine : Engine P
  /-- How far the loop over the headers has come. -/
  spawned : Nat
  workers : Fin n → Worker
  /-- What has been sent on `results`, which is also the order it is received in. -/
  results : List Verdict
  closed : Bool
  /-- The caller has closed `abort`. -/
  aborted : Bool
  /-- A worker has panicked, which ends the program. -/
  crashed : Bool

/-- Who moves: the loop, a worker, the goroutine that waits for them, the caller. -/
inductive Move (n : Nat) where
  | spawn
  | look (i : Fin n)
  | send (i : Fin n)
  | close
  | abort
deriving DecidableEq

namespace Batch
variable {P : Primitives}

/-- `VerifyHeaders(headers, seals)` at its `return`. -/
def start (e : Engine P) (hs : List (Header × Bool)) : Batch P hs.length where
  engine := e
  spawned := 0
  workers := fun _ => .unborn
  results := []
  closed := false
  aborted := false
  crashed := false

variable {n : Nat}

def setWorker (s : Batch P n) (i : Fin n) (w : Worker) : Batch P n :=
  { s with workers := Function.update s.workers i w }

/-- One atomic step. -/
def next (hs : List (Header × Bool)) (s : Batch P hs.length) : Move hs.length → Option (Batch P hs.length)
  | .spawn =>
    if h : s.crashed = false ∧ s.spawned < hs.length then
      some { s.setWorker ⟨s.spawned, h.2⟩ .started with spawned := s.spawned + 1 }
    else none
  | .look i =>
    if s.crashed = false ∧ s.workers i = .started then
      if s.aborted then some (s.setWorker i (.holding (.ok ())))
      else match s.engine.verifyHeader (hs.get i).1 (hs.get i).2 with
        | .ok (v, e) => some { s.setWorker i (.holding v) with engine := e }
        | .error _ => some { s with crashed := true }
    else none
  | .send i =>
    if s.crashed then none
    else match s.workers i with
      | .holding v => some { s.setWorker i .done with results := s.results ++ [v] }
      | _ => none
  | .close =>
    if s.crashed = false ∧ s.closed = false ∧ ∀ i, s.workers i = .done then
      some { s with closed := true }
    else none
  | .abort =>
    if s.crashed = false ∧ s.aborted = false then some { s with aborted := true } else none

/-- What each step does, with what it needs. -/
inductive Step (hs : List (Header × Bool)) (s : Batch P hs.length) :
    Move hs.length → Batch P hs.length → Prop
  | spawn (h : s.spawned < hs.length) :
      Step hs s .spawn { s.setWorker ⟨s.spawned, h⟩ .started with spawned := s.spawned + 1 }
  | skip (i : Fin hs.length) (hw : s.workers i = .started) (ha : s.aborted = true) :
      Step hs s (.look i) (s.setWorker i (.holding (.ok ())))
  | verify (i : Fin hs.length) (v : Verdict) (e : Engine P) (hw : s.workers i = .started)
      (ha : s.aborted = false)
      (hv : s.engine.verifyHeader (hs.get i).1 (hs.get i).2 = .ok (v, e)) :
      Step hs s (.look i) { s.setWorker i (.holding v) with engine := e }
  | crash (i : Fin hs.length) (p : Panic) (hw : s.workers i = .started) (ha : s.aborted = false)
      (hv : s.engine.verifyHeader (hs.get i).1 (hs.get i).2 = .error p) :
      Step hs s (.look i) { s with crashed := true }
  | send (i : Fin hs.length) (v : Verdict) (hw : s.workers i = .holding v) :
      Step hs s (.send i) { s.setWorker i .done with results := s.results ++ [v] }
  | close (hc : s.closed = false) (hw : ∀ i, s.workers i = .done) :
      Step hs s .close { s with closed := true }
  | abort (ha : s.aborted = false) : Step hs s .abort { s with aborted := true }

variable {hs : List (Header × Bool)} {s t : Batch P hs.length} {m : Move hs.length}

theorem next_step (h : s.next hs m = some t) : s.crashed = false ∧ Step hs s m t := by
  cases m with
  | spawn =>
    simp only [next] at h
    split_ifs at h with hg
    cases h
    exact ⟨hg.1, .spawn hg.2⟩
  | look i =>
    simp only [next] at h
    split_ifs at h with hg ha
    · cases h
      exact ⟨hg.1, .skip i hg.2 ha⟩
    · have ha' : s.aborted = false := by simpa using ha
      cases hv : s.engine.verifyHeader (hs.get i).1 (hs.get i).2 with
      | error p =>
        simp only [hv] at h
        cases h
        exact ⟨hg.1, .crash i p hg.2 ha' hv⟩
      | ok r =>
        simp only [hv] at h
        cases h
        exact ⟨hg.1, .verify i r.1 r.2 hg.2 ha' hv⟩
  | send i =>
    simp only [next] at h
    split_ifs at h with hc
    cases hw : s.workers i with
    | holding v =>
      simp only [hw] at h
      cases h
      exact ⟨by simpa using hc, .send i v hw⟩
    | unborn => simp [hw] at h
    | started => simp [hw] at h
    | done => simp [hw] at h
  | close =>
    simp only [next] at h
    split_ifs at h with hg
    cases h
    exact ⟨hg.1, .close hg.2.1 hg.2.2⟩
  | abort =>
    simp only [next] at h
    split_ifs at h with hg
    cases h
    exact ⟨hg.1, .abort hg.2⟩

/-! ## Every run ends, and delivers one value for each header -/

/-- What holds between the loop, the workers and the channel after any number of steps. -/
structure Consistent (hs : List (Header × Bool)) (s : Batch P hs.length) : Prop where
  unborn : ∀ i : Fin hs.length, s.workers i = .unborn ↔ s.spawned ≤ i
  spawned : s.spawned ≤ hs.length
  owed : s.results.length + ∑ i, (s.workers i).owes = hs.length
  closed : s.closed = true → ∀ i, s.workers i = .done

theorem consistent_start (e : Engine P) (hs : List (Header × Bool)) : Consistent hs (start e hs) where
  unborn := fun i => by simp [start]
  spawned := Nat.zero_le _
  owed := by simp [start, Worker.owes]
  closed := fun h => by simp [start] at h

theorem setWorker_unborn_iff (hc : Consistent hs s) {i : Fin hs.length} {w : Worker}
    (hi : s.workers i ≠ .unborn) (hw : w ≠ .unborn) (j : Fin hs.length) :
    (s.setWorker i w).workers j = .unborn ↔ s.spawned ≤ j := by
  by_cases hj : j = i
  · subst hj
    have := hc.unborn j
    simp only [setWorker, Function.update_self]
    tauto
  · simp only [setWorker, Function.update_of_ne hj]
    exact hc.unborn j

/-- A worker between its birth and its end moves on. -/
theorem Consistent.setWorker (hc : Consistent hs s) {i : Fin hs.length} (hw : s.workers i = .started) :
    Consistent hs (s.setWorker i (.holding v)) where
  unborn := setWorker_unborn_iff hc (by simp [hw]) (by simp)
  spawned := hc.spawned
  owed := by
    have hsum : _ + 1 = _ + 1 := sum_update_move Worker.owes hw (.holding v)
    have howed := hc.owed
    simp only [Batch.setWorker]
    omega
  closed := fun hcl => by
    have hdone := hc.closed hcl i
    simp [hw] at hdone

theorem Consistent.step (hc : Consistent hs s) (h : Step hs s m t) : Consistent hs t := by
  cases h with
  | spawn hlt =>
    have hborn : s.workers ⟨s.spawned, hlt⟩ = .unborn := (hc.unborn _).mpr le_rfl
    refine ⟨fun j => ?_, hlt, ?_, fun hcl => ?_⟩
    · by_cases hj : j = ⟨s.spawned, hlt⟩
      · subst hj
        simp [Batch.setWorker]
      · have hne : (j : Nat) ≠ s.spawned := fun he => hj (Fin.ext he)
        have hold := hc.unborn j
        simp only [Batch.setWorker, Function.update_of_ne hj]
        rw [hold]
        omega
    · have hsum : _ + 1 = _ + 1 := sum_update_move Worker.owes hborn .started
      have howed := hc.owed
      simp only [Batch.setWorker]
      omega
    · have hdone := hc.closed hcl ⟨s.spawned, hlt⟩
      simp [hborn] at hdone
  | skip i hw _ => exact hc.setWorker hw
  | verify i v e hw _ _ =>
    have hmoved := hc.setWorker (v := v) hw
    exact ⟨hmoved.unborn, hmoved.spawned, hmoved.owed, hmoved.closed⟩
  | crash i p _ _ _ => exact ⟨hc.unborn, hc.spawned, hc.owed, hc.closed⟩
  | send i v hw =>
    refine ⟨setWorker_unborn_iff hc (by simp [hw]) (by simp), hc.spawned, ?_, fun hcl => ?_⟩
    · have hsum : _ + 1 = _ + 0 := sum_update_move Worker.owes hw .done
      have howed := hc.owed
      simp only [Batch.setWorker, length_append, length_singleton]
      omega
    · have hdone := hc.closed hcl i
      simp [hw] at hdone
  | close _ hw => exact ⟨hc.unborn, hc.spawned, hc.owed, fun _ => hw⟩
  | abort _ => exact ⟨hc.unborn, hc.spawned, hc.owed, hc.closed⟩

variable {e : Engine P}

theorem Consistent.reaches (h : Reaches (next hs) (start e hs) s) : Consistent hs s :=
  h.invariant (fun _ _ _ hc hn => hc.step (next_step hn).2) (consistent_start e hs)

/-- **When the channel is closed, each header has had its one value**, in every interleaving,
aborted or not. -/
theorem results_length_of_closed (h : Reaches (next hs) (start e hs) s)
    (hcl : s.closed = true) : s.results.length = hs.length := by
  have hc := Consistent.reaches h
  have howed := hc.owed
  have hzero : ∑ i, (s.workers i).owes = 0 :=
    Finset.sum_eq_zero fun i _ => by rw [hc.closed hcl i]; rfl
  omega

/-- The steps that are left. -/
def left (s : Batch P n) : Nat :=
  ∑ i, (s.workers i).left + (!s.closed).toNat + (!s.aborted).toNat + (!s.crashed).toNat

/-- Every step spends one of the steps that are left. -/
theorem left_lt (hc : Consistent hs s) (h : s.next hs m = some t) : t.left < s.left := by
  obtain ⟨hcr, hstep⟩ := next_step h
  cases hstep with
  | spawn hlt =>
    have hborn : s.workers ⟨s.spawned, hlt⟩ = .unborn := (hc.unborn _).mpr le_rfl
    have hsum : _ + 3 = _ + 2 := sum_update_move Worker.left hborn .started
    simp only [left, setWorker]
    omega
  | skip i hw _ =>
    have hsum : _ + 2 = _ + 1 := sum_update_move Worker.left hw (.holding (.ok ()))
    simp only [left, setWorker]
    omega
  | verify i v e hw _ _ =>
    have hsum : _ + 2 = _ + 1 := sum_update_move Worker.left hw (.holding v)
    simp only [left, setWorker]
    omega
  | crash i p _ _ _ => simp [left, hcr]
  | send i v hw =>
    have hsum : _ + 1 = _ + 0 := sum_update_move Worker.left hw .done
    simp only [left, setWorker]
    omega
  | close hcl _ => simp [left, hcl]
  | abort ha => simp [left, ha]

/-- The program is at its end: only the caller could still do something, close `abort`. -/
def Finished (s : Batch P hs.length) : Prop := Stuck (next hs) (· ≠ .abort) s

/-- A run ends with the channel closed, or with a panic. -/
theorem closed_of_finished (hc : Consistent hs s) (hf : Finished s) (hcr : s.crashed = false) : s.closed = true := by
  by_contra hcl
  have hspawn : s.spawned = hs.length := by
    have hnone := hf .spawn (by simp)
    simp only [next, hcr, true_and] at hnone
    split_ifs at hnone with hlt
    have := hc.spawned
    omega
  -- Each worker has been started; none can look or send, so each is done.
  have hdone : ∀ i, s.workers i = .done := by
    intro i
    cases hw : s.workers i with
    | unborn =>
      have := (hc.unborn i).mp hw
      omega
    | started =>
      have hnone := hf (.look i) (by simp)
      simp only [next, hcr, hw, and_self, if_true] at hnone
      split_ifs at hnone
      cases hv : s.engine.verifyHeader (hs.get i).1 (hs.get i).2 with
      | error p => simp only [hv, reduceCtorEq] at hnone
      | ok r => simp only [hv, reduceCtorEq] at hnone
    | holding v =>
      have hnone := hf (.send i) (by simp)
      simp [next, hcr, hw] at hnone
    | done => rfl
  have hnone := hf .close (by simp)
  simp [next, hcr, hcl, hdone] at hnone

/-- After the channel is closed there is nothing left to do. -/
theorem finished_of_closed (hc : Consistent hs s) (hcl : s.closed = true) : Finished s := by
  intro m hm
  have hdone := hc.closed hcl
  cases hn : s.next hs m with
  | none => rfl
  | some t =>
    cases (next_step hn).2 with
    | spawn hlt =>
      have hborn := (hc.unborn ⟨s.spawned, hlt⟩).mpr le_rfl
      simp [hdone] at hborn
    | skip i hw _ => simp [hdone] at hw
    | verify i v e hw _ _ => simp [hdone] at hw
    | crash i p hw _ _ => simp [hdone] at hw
    | send i v hw => simp [hdone] at hw
    | close hopen _ => simp [hcl] at hopen
    | abort _ => exact absurd rfl hm

/-! ## Which value belongs to which header -/

/-- What `VerifyHeader` says of a header, by itself. -/
def verdictOf (e : Engine P) (p : Header × Bool) : Go Verdict :=
  (e.verifyHeader p.1 p.2).map Prod.fst

theorem verdictOf_eq_ok {p : Header × Bool} : verdictOf e p = .ok v ↔ ∃ e', e.verifyHeader p.1 p.2 = .ok (v, e') := by
  unfold verdictOf
  cases e.verifyHeader p.1 p.2 with
  | error q => simp [Except.map]
  | ok r =>
    obtain ⟨w, e'⟩ := r
    simp [Except.map]

theorem verdictOf_eq_error {p : Header × Bool} {q : Panic} :
    verdictOf e p = .error q ↔ e.verifyHeader p.1 p.2 = .error q := by
  unfold verdictOf
  cases e.verifyHeader p.1 p.2 <;> simp [Except.map]

/-- Every interleaving without an abort ends with the channel closed, and the `i`-th value on it
is the verdict on the `i`-th header. -/
def Attributed (e : Engine P) (hs : List (Header × Bool)) : Prop :=
  ∀ s, Reaches (next hs) (start e hs) s → s.aborted = false → Finished s →
    s.closed = true ∧ s.results.map .ok = hs.map (verdictOf e)

/-- Everything held or sent so far is one verdict. -/
structure Uniform (e : Engine P) (v : Verdict) (s : Batch P n) : Prop where
  mode : s.engine.powMode = e.powMode
  alive : s.crashed = false
  holding : ∀ i w, s.workers i = .holding w → w = v
  results : ∀ w ∈ s.results, w = v

theorem uniform_start (e : Engine P) (hs : List (Header × Bool)) (v : Verdict) : Uniform e v (start e hs) := by
  constructor <;> simp [start]

theorem Uniform.setWorker {s : Batch P n} (hu : Uniform e v s)
    (i : Fin n) {w : Worker} (hw : ∀ x, w = .holding x → x = v) : Uniform e v (s.setWorker i w) := by
  refine ⟨hu.mode, hu.alive, fun j x hx => ?_, hu.results⟩
  by_cases hj : j = i
  · subst hj
    exact hw x (by simpa [Batch.setWorker] using hx)
  · exact hu.holding j x (by simpa [Batch.setWorker, Function.update_of_ne hj] using hx)

theorem Uniform.step (hall : ∀ p ∈ hs, verdictOf e p = .ok v)
    (hu : Uniform e v s) (h : Step hs s m t) (ha : t.aborted = false) : Uniform e v t := by
  have hverdict : ∀ i : Fin hs.length, verdictOf s.engine (hs.get i) = .ok v := fun i =>
    (Engine.verifyHeader_verdict hu.mode ..).trans (hall _ (hs.get_mem i))
  cases h with
  | spawn hlt =>
    have hm := hu.setWorker ⟨s.spawned, hlt⟩ (w := .started) (by simp)
    exact ⟨hm.mode, hm.alive, hm.holding, hm.results⟩
  | skip i _ habort =>
    rw [show s.aborted = false from ha] at habort
    cases habort
  | verify i w e' _ _ hv =>
    obtain rfl : w = v := by
      have hw := verdictOf_eq_ok.mpr ⟨e', hv⟩
      rw [hverdict i] at hw
      cases hw
      rfl
    have hm := hu.setWorker i (w := .holding w) (by simp)
    refine ⟨?_, hm.alive, hm.holding, hm.results⟩
    exact (Engine.verifyHeader_powMode hv).trans hu.mode
  | crash i p _ _ hv =>
    have hp := verdictOf_eq_error.mpr hv
    rw [hverdict i] at hp
    cases hp
  | send i w hw =>
    have hm := hu.setWorker i (w := .done) (by simp)
    refine ⟨hm.mode, hm.alive, hm.holding, fun x hx => ?_⟩
    rcases mem_append.mp hx with hx | hx
    · exact hu.results x hx
    · rw [mem_singleton.mp hx]
      exact hu.holding i w hw
  | close _ _ => exact ⟨hu.mode, hu.alive, hu.holding, hu.results⟩
  | abort _ => simp at ha

theorem Step.aborted (h : Step hs s m t) (ha : t.aborted = false) : s.aborted = false := by
  cases h with
  | abort _ => simp at ha
  | _ => exact ha

theorem Step.aborted_eq (h : Step hs s m t) (hm : m ≠ .abort) : t.aborted = s.aborted := by
  cases h with
  | abort _ => exact absurd rfl hm
  | _ => rfl

theorem Step.results_prefix (h : Step hs s m t) : s.results <+: t.results := by
  cases h with
  | send i v _ => exact prefix_append ..
  | _ => exact prefix_refl _

/-- Where all headers have one verdict, the order does not matter. -/
theorem attributed_of_uniform (hall : ∀ p ∈ hs, verdictOf e p = .ok v) : Attributed e hs := by
  intro s hreach habort hfin
  have hu : s.aborted = false → Uniform e v s := by
    refine hreach.invariant (I := fun s => s.aborted = false → Uniform e v s) ?_
      fun _ => uniform_start e hs v
    intro s m t hu hn ha
    have hstep := (next_step hn).2
    exact (hu (hstep.aborted ha)).step hall hstep ha
  have hclosed := closed_of_finished (.reaches hreach) hfin (hu habort).alive
  refine ⟨hclosed, ?_⟩
  have hlen := results_length_of_closed hreach hclosed
  rw [eq_replicate_of_mem (hu habort).results, map_replicate, hlen, eq_comm, eq_replicate_iff]
  refine ⟨by simp, fun x hx => ?_⟩
  obtain ⟨p, hp, rfl⟩ := mem_map.mp hx
  exact hall p hp

/-- All workers started, and none has done anything. -/
def allStarted (e : Engine P) (hs : List (Header × Bool)) (k : Nat) : Batch P hs.length :=
  { start e hs with spawned := k, workers := fun i => if i < k then .started else .unborn }

theorem reaches_allStarted (e : Engine P) (hs : List (Header × Bool)) :
    ∀ k ≤ hs.length, Reaches (next hs) (start e hs) (allStarted e hs k)
  | 0, _ => by
    simp only [allStarted, Nat.not_lt_zero, if_false]
    exact .refl _
  | k + 1, hk => by
    refine (reaches_allStarted e hs k (by omega)).step (l := .spawn) ?_
    have hguard : (allStarted e hs k).crashed = false ∧ (allStarted e hs k).spawned < hs.length :=
      ⟨rfl, hk⟩
    simp only [next, dif_pos hguard]
    congr 1
    simp only [allStarted, setWorker, mk.injEq, true_and, and_true]
    funext i
    by_cases hi : i = ⟨k, hk⟩
    · subst hi
      simp
    · have hne : (i : Nat) ≠ k := fun he => hi (Fin.ext he)
      rw [Function.update_of_ne hi]
      congr 1
      exact propext ⟨fun h => by omega, fun h => by omega⟩

/-- A panic ends every goroutine. -/
theorem finished_of_crashed (h : s.crashed = true) : Finished s := by
  intro m _
  cases hn : s.next hs m with
  | none => rfl
  | some t => simp [(next_step hn).1] at h

/-- A worker that looks before the abort verifies its header. -/
theorem next_look {j : Fin hs.length} {r : Go (Verdict × Engine P)} (hc : s.crashed = false) (hw : s.workers j = .started)
    (ha : s.aborted = false) (hv : s.engine.verifyHeader (hs.get j).1 (hs.get j).2 = r) :
    s.next hs (.look j) = some (match r with
      | .ok (v, e) => { s.setWorker j (.holding v) with engine := e }
      | .error _ => { s with crashed := true }) := by
  simp only [next, hc, hw, ha, hv, and_self, if_true, Bool.false_eq_true, if_false]
  cases r <;> rfl

/-- A header that panics takes the program with it. -/
theorem exists_crash {j : Fin hs.length} {p : Panic} (hv : verdictOf e (hs.get j) = .error p) :
    ∃ s, Reaches (next hs) (start e hs) s ∧ s.aborted = false ∧ s.crashed = true ∧
      s.closed = false := by
  have hlooked := next_look (s := allStarted e hs hs.length) rfl (if_pos j.isLt) rfl (verdictOf_eq_error.mp hv)
  exact ⟨_, (reaches_allStarted e hs hs.length le_rfl).step hlooked, rfl, rfl, rfl⟩

/-- Some interleaving has the result of any given worker first. -/
theorem exists_first {j : Fin hs.length} (hv : verdictOf e (hs.get j) = .ok v) :
    ∃ s, Reaches (next hs) (start e hs) s ∧ s.aborted = false ∧ Finished s ∧ [v] <+: s.results := by
  obtain ⟨e', hv'⟩ := verdictOf_eq_ok.mp hv
  -- All start, `j` looks and sends; whatever then happens, its value stays the first.
  have hlooked := next_look (s := allStarted e hs hs.length) rfl (if_pos j.isLt) rfl hv'
  have hreach := ((reaches_allStarted e hs hs.length le_rfl).step hlooked).step (l := .send j)
    (u := { (allStarted e hs hs.length).setWorker j .done with engine := e', results := [v] })
    (by simp [next, setWorker, allStarted, start])
  obtain ⟨s, hrun, ⟨-, haborted, hfirst⟩, hstuck⟩ :=
    @exists_stuck _ _ (next hs) (· ≠ .abort)
      (fun s => Consistent hs s ∧ s.aborted = false ∧ [v] <+: s.results) left
      (fun s m t hI hn => left_lt hI.1 hn)
      (fun s m t hI hm hn => by
        have hstep := (next_step hn).2
        exact ⟨hI.1.step hstep, hstep.aborted_eq hm ▸ hI.2.1, hI.2.2.trans hstep.results_prefix⟩)
      _ ⟨.reaches hreach, rfl, prefix_refl _⟩
  exact ⟨s, hreach.trans hrun, haborted, hstuck, hfirst⟩

end Batch
end NogoCommons.Nogopow
