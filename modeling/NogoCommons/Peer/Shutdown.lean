import NogoCommons.Peer.Handlers

/-!
# The end of a peer

After `Disconnect` the four handlers are meant to end, and everybody who waits for a message to be sent is meant to hear
of it. Two races prevent it.

`stallHandler` counts how often one of the channels `inQuit` and `outQuit` was ready, and a closed channel is ready again:
it may see the same one twice and leave while the other handler still has something to tell it. And a caller of
`QueueMessage` that has seen the peer connected may put its message in the queue after `queueHandler` has found it empty
and gone.

`Careful` excludes these two steps and nothing else. In a run without them the end is inevitable (`shutdown`): the handlers
are never all blocked (`finished_of_stuck`), because whoever is left over has somebody to wait for who is not finished,
and after `Disconnect` every step but the ticks of the timers spends something (`fuel_lt`). The order of the ends is
`queueHandler`, `outHandler`, `inHandler`, `stallHandler`, and `Phases` is what is known of each of them.

What happens to a message is kept in an account: it is in one of the queues or its `doneChan` has a value, and never both
(`Accounts`).
-/

namespace NogoCommons.PeerHandlers
open Lib List
variable {n : Nat} {req : Fin n → Request} {s : State n} {l : Label n}

attribute [grind =] guard effect State.startDisconnect State.queuePacket State.trickle

/-! ## Careful runs -/

/-- Between `Connected` and the send on `outputQueue`. -/
def InPc.Queues : InPc → Prop
  | .queueing _ => True
  | .rejectQueueing => True
  | _ => False

/-- `stallHandler` does not receive from the same channel twice, and `queueHandler` does not find its channels empty while
somebody is about to put a message in them. -/
def Careful (s : State n) : Label n → Prop
  | .stallQuit q => s.ioStopped ≠ some q
  | .drainDefault => (∀ i, s.callers i ≠ .checked) ∧ ¬ s.inH.Queues
  | _ => True

/-! ## Phases -/

/-- `queueHandler` has left its loop. -/
def QueuePc.Draining : QueuePc n → Prop
  | .loop => False
  | .sending _ => False
  | _ => True

/-- `queueHandler` has found its channels empty. -/
def QueuePc.Drained : QueuePc n → Prop
  | .closing => True
  | .finished => True
  | _ => False

/-- The message that a handler is busy with. -/
def QueuePc.held : QueuePc n → List (OutMsg n)
  | .sending m => [m]
  | _ => []

def OutPc.held : OutPc n → List (OutMsg n)
  | .stallSend m => [m]
  | .writing m => [m]
  | .disconnecting m _ => [m]
  | .signal m _ => [m]
  | _ => []

/-- `outHandler` has a message, or has sent one and not said so. -/
def OutPc.inFlight : OutPc n → Nat
  | .sendDone => 1
  | pc => pc.held.length

/-- The messages between `queueHandler` and `outHandler`, the answer included. -/
def State.flight (s : State n) : Nat :=
  s.sendQueue.toList.length + s.sendDoneQueue.toNat + s.outH.inFlight + s.queueH.held.length

theorem QueuePc.Drained.draining {pc : QueuePc n} (h : pc.Drained) : pc.Draining := by
  cases pc <;> first | exact trivial | exact h

theorem InPc.not_queues_afterRead (b : Bool) (m : Incoming) : ¬ (InPc.afterRead b m).Queues := by
  cases m <;> cases b <;> exact id

theorem InPc.not_queues_dispatch (m : Incoming) : ¬ (InPc.dispatch m).Queues := by
  cases m <;> exact id

theorem InPc.not_queues_callback (q : Nat) : ¬ (InPc.callback true q).Queues := by
  cases q <;> exact id

/-- How far the handlers are. -/
structure Phases (s : State n) : Prop where
  closer : s.disconnect = true ↔ s.closer ≠ .idle
  draining : s.queueH.Draining → s.closer = .done
  pending : s.queueH = .drain ∨ s.queueH.Drained → s.pendingMsgs = []
  drained : s.queueH.Drained → s.outputQueue = [] ∧ (∀ i, s.callers i ≠ .checked) ∧ ¬ s.inH.Queues
  waited : s.outH = .cleanup ∨ s.outH = .closing ∨ s.outH = .finished → s.queueH = .finished
  emptied : s.outH = .closing ∨ s.outH = .finished → s.sendQueue = none
  stopped : ∀ q, s.ioStopped = some q → s.quitClosed q
  left : s.stallH = .cleanup ∨ s.stallH = .finished → ∀ q, s.quitClosed q
  -- there is one message on its way at most, and none when `queueHandler` is not waiting
  flight : s.flight ≤ 1
  idle : s.waiting = false → s.flight = 0

theorem phases_start (n : Nat) (inbox : List Incoming) : Phases (State.start n inbox) := by
  constructor <;> simp [State.start, QueuePc.Draining, QueuePc.Drained, State.flight, OutPc.inFlight, OutPc.held,
    QueuePc.held]

/-- A channel that is closed stays closed. -/
theorem quitClosed_effect (hg : guard req s l) {q : QuitChan} (hq : s.quitClosed q) : (effect req s l).quitClosed q := by
  cases q <;> cases l <;> grind [State.quitClosed]

section
variable (h : Phases s) (hg : guard req s l)
include h hg

theorem Phases.closer_effect : (effect req s l).disconnect = true ↔ (effect req s l).closer ≠ .idle := by
  have hcloser := h.closer
  cases l <;> grind

theorem Phases.draining_effect : (effect req s l).queueH.Draining → (effect req s l).closer = .done := by
  have hcloser := h.closer
  have hdraining := h.draining
  cases l <;> grind [QueuePc.Draining]

theorem Phases.pending_effect :
    (effect req s l).queueH = .drain ∨ (effect req s l).queueH.Drained → (effect req s l).pendingMsgs = [] := by
  have hpending := h.pending
  cases l <;> grind [QueuePc.Drained]

/-- Once the flag is set nobody gets past `Connected`, so that what `drainDefault` has seen stays so. -/
theorem Phases.drained_effect (hok : Careful s l) : (effect req s l).queueH.Drained →
    (effect req s l).outputQueue = [] ∧ (∀ i, (effect req s l).callers i ≠ .checked) ∧ ¬ (effect req s l).inH.Queues := by
  have hdrained := h.drained
  have hflag : s.queueH.Drained → s.disconnect = true := fun hd => by
    rw [h.closer, h.draining hd.draining]
    decide
  have hread := InPc.not_queues_afterRead
  have hdispatch := InPc.not_queues_dispatch
  have hcallback := InPc.not_queues_callback
  cases l <;> simp only [guard, Careful] at hg hok <;>
    simp only [effect, State.startDisconnect, State.queuePacket, State.trickle] <;> (try split) <;>
    grind [QueuePc.Drained, InPc.Queues, Function.update]

theorem Phases.waited_effect :
    (effect req s l).outH = .cleanup ∨ (effect req s l).outH = .closing ∨ (effect req s l).outH = .finished →
      (effect req s l).queueH = .finished := by
  have hwaited := h.waited
  cases l <;> grind

theorem Phases.emptied_effect :
    (effect req s l).outH = .closing ∨ (effect req s l).outH = .finished → (effect req s l).sendQueue = none := by
  have hwaited := h.waited
  have hemptied := h.emptied
  cases l <;> grind

theorem Phases.stopped_effect (q : QuitChan) (hstopped : (effect req s l).ioStopped = some q) :
    (effect req s l).quitClosed q := by
  refine quitClosed_effect hg ?_
  have hbefore : s.ioStopped = some q ∨ s.quitClosed q := by
    cases l <;> grind
  exact hbefore.elim (h.stopped q) id

/-- `stallHandler` leaves when it has seen two channels, and in a careful run they are not the same. -/
theorem Phases.left_effect (hok : Careful s l)
    (hleft : (effect req s l).stallH = .cleanup ∨ (effect req s l).stallH = .finished) (q : QuitChan) :
    (effect req s l).quitClosed q := by
  refine quitClosed_effect hg ?_
  have hbefore : (s.stallH = .cleanup ∨ s.stallH = .finished) ∨
      ∃ q₁ q₂, s.ioStopped = some q₁ ∧ s.quitClosed q₂ ∧ q₁ ≠ q₂ := by
    cases l <;> grind [Careful]
  obtain hpast | ⟨q₁, q₂, h₁, h₂, hne⟩ := hbefore
  · exact h.left hpast q
  · have hclosed := h.stopped q₁ h₁
    cases q <;> cases q₁ <;> cases q₂ <;> first | exact hclosed | exact h₂ | exact absurd rfl hne

/-- What the two handlers pass to each other is passed on or used up. -/
theorem Phases.flight_effect :
    (effect req s l).flight ≤ 1 ∧ ((effect req s l).waiting = false → (effect req s l).flight = 0) := by
  have hflight := h.flight
  have hidle := h.idle
  cases l with
  | outTake m | outDrain m | outStall m | outWritten m | outFailed m | outDisconnected m first | outSignal m sent
  | outSendDone | outQuit | outWaited | outDrained | outClose =>
    grind [State.flight, OutPc.inFlight, OutPc.held]
  | queueSend m | queueQuit | queuePendingDone | drainDefault | queueClose | queueTake m | queueInv block | queueTick k
  | queueDone =>
    grind [State.flight, QueuePc.held]
  | _ =>
    simp only [effect, State.startDisconnect]
    (try split) <;> exact ⟨hflight, hidle⟩

theorem Phases.step (hok : Careful s l) : Phases (effect req s l) where
  closer := h.closer_effect hg
  draining := h.draining_effect hg
  pending := h.pending_effect hg
  drained := h.drained_effect hg hok
  waited := h.waited_effect hg
  emptied := h.emptied_effect hg
  stopped := h.stopped_effect hg
  left := h.left_effect hg hok
  flight := (h.flight_effect hg).1
  idle := (h.flight_effect hg).2

end

/-! ## Accounts -/

/-- How many messages with this `doneChan` are on their way. -/
def State.owed (s : State n) (d : DoneChan n) : Nat :=
  s.outputQueue.count (some d) + s.pendingMsgs.count (some d) + s.queueH.held.count (some d)
    + s.sendQueue.toList.count (some d) + s.outH.held.count (some d)

/-- How many messages with this `doneChan` an action brings in: sent at once, or answered at once. -/
def issued (req : Fin n → Request) (s : State n) (d : DoneChan n) : Label n → Nat
  | .callerRefused i => [(req i).outMsg i].count (some d)
  | .callerQueues i => [(req i).outMsg i].count (some d)
  | .inReject => if s.disconnect then [some DoneChan.reject].count (some d) else 0
  | .inRejectQueues => [some DoneChan.reject].count (some d)
  | _ => 0

theorem State.signalled_apply (s : State n) (m : OutMsg n) (d : DoneChan n) :
    s.signalled m d = s.done d + [m].count (some d) := by
  cases m with
  | none => rfl
  | some e =>
    by_cases he : e = d
    · subst he
      simp [State.signalled]
    · simp [State.signalled, Function.update_of_ne (Ne.symm he), he]

theorem count_of_head? {α : Type} [BEq α] {xs : List α} {x : α} (h : xs.head? = some x) (a : α) :
    xs.count a = xs.tail.count a + [x].count a := by
  obtain ⟨rest, rfl⟩ := head?_eq_some_iff.mp h
  rw [tail_cons, count_cons, count_singleton]

/-- A message moves from one place to the next and, at the end, to its `doneChan`. -/
theorem owed_add_done (hg : guard req s l) (d : DoneChan n) :
    (effect req s l).owed d + (effect req s l).done d = s.owed d + s.done d + issued req s d l := by
  cases l with
  | queueTake m =>
    have hhead := count_of_head? hg.2 (some d)
    simp only [effect, issued, State.owed, State.queuePacket, hg.1]
    split <;> simp only [QueuePc.held, count_append, count_nil] <;> omega
  | queuePending m =>
    have hhead := count_of_head? hg.2.1 (some d)
    simp only [effect, issued, State.owed, State.signalled_apply]
    omega
  | drainTake m =>
    have hhead := count_of_head? hg.2.1 (some d)
    simp only [effect, issued, State.owed, State.signalled_apply]
    omega
  | callerQueues i =>
    simp only [effect, issued]
    split <;> simp only [State.owed, count_append]
    · omega
    · rename_i hreq
      simp [hreq, Request.outMsg]
  | _ =>
    simp only [guard] at hg
    simp only [effect, issued, State.owed, State.startDisconnect, State.queuePacket, State.trickle, State.signalled_apply]
    (try split) <;> grind [QueuePc.held, OutPc.held, State.signalled_apply]

/-- `inHandler` has queued its reject message, or will not queue one any more. -/
def InPc.PastReject : InPc → Prop
  | .rejectWaiting => True
  | .exiting => True
  | .disconnecting _ => True
  | .closing => True
  | .finished => True
  | _ => False

/-- A caller with a `doneChan` has one message on its way or one value on the channel, from the moment the call returns.
The same holds of the reject message when `inHandler` waits for it. -/
structure Accounts (req : Fin n → Request) (s : State n) : Prop where
  caller : ∀ i, s.owed (.caller i) + s.done (.caller i)
    = if s.callers i = .returned ∧ req i = .message true then 1 else 0
  reject_le : s.owed .reject + s.done .reject ≤ 1
  reject_before : ¬ s.inH.PastReject → s.owed .reject + s.done .reject = 0
  reject_waiting : s.inH = .rejectWaiting → s.owed .reject + s.done .reject = 1

theorem accounts_start (n : Nat) (req : Fin n → Request) (inbox : List Incoming) : Accounts req (State.start n inbox) := by
  constructor <;> simp [State.start, State.owed, QueuePc.held, OutPc.held]

theorem count_outMsg (i j : Fin n) (r : Request) :
    [r.outMsg j].count (some (DoneChan.caller i)) = if j = i ∧ r = .message true then 1 else 0 := by
  rcases r with (_ | _) | block <;> simp [Request.outMsg, count_singleton]

/-- The caller that an action is of. -/
def Label.caller? : Label n → Option (Fin n)
  | .callerRefused i => some i
  | .callerChecked i => some i
  | .callerQueues i => some i
  | _ => none

theorem callers_effect_of_none (h : l.caller? = none) : (effect req s l).callers = s.callers := by
  cases l <;> simp only [Label.caller?, reduceCtorEq] at h <;>
    simp only [effect, State.startDisconnect, State.queuePacket, State.trickle] <;> (try split) <;> rfl

theorem issued_caller_of_none (h : l.caller? = none) (i : Fin n) : issued req s (.caller i) l = 0 := by
  cases l <;> simp only [Label.caller?, reduceCtorEq] at h <;> simp [issued]

theorem callers_effect (hg : guard req s l) {i : Fin n} (h : l.caller? = some i) :
    s.callers i ≠ .returned ∧ ∃ pc, (effect req s l).callers = Function.update s.callers i pc ∧
      ∀ j, issued req s (.caller j) l = if i = j ∧ pc = .returned ∧ req i = .message true then 1 else 0 := by
  cases l <;> simp only [Label.caller?, reduceCtorEq, Option.some.injEq] at h <;> subst h
  case callerRefused i =>
    refine ⟨by simp [hg.1], .returned, rfl, fun j => ?_⟩
    simp only [issued, count_outMsg, true_and]
  case callerChecked i => exact ⟨by simp [hg.1], .checked, rfl, by simp [issued]⟩
  case callerQueues i =>
    refine ⟨by simp [hg.1], .returned, ?_, fun j => ?_⟩
    · simp only [effect]
      split <;> rfl
    · simp only [issued, count_outMsg, true_and]

theorem Accounts.caller_effect (h : Accounts req s) (hg : guard req s l) (j : Fin n) :
    (effect req s l).owed (.caller j) + (effect req s l).done (.caller j)
      = if (effect req s l).callers j = .returned ∧ req j = .message true then 1 else 0 := by
  rw [owed_add_done hg, h.caller j]
  cases hl : l.caller? with
  | none => rw [callers_effect_of_none hl, issued_caller_of_none hl, Nat.add_zero]
  | some i =>
    obtain ⟨hnot, pc, hcallers, hissued⟩ := callers_effect hg hl
    rw [hcallers, hissued]
    by_cases hij : i = j
    · subst hij
      simp [hnot]
    · simp [hij, Function.update_of_ne (Ne.symm hij)]

/-- What becomes of the reject message. -/
theorem inH_effect (hg : guard req s l) :
    issued req s .reject l = 0 ∧ ((effect req s l).inH = .rejectWaiting → s.inH = .rejectWaiting) ∧
        (s.inH.PastReject → (effect req s l).inH.PastReject) ∨
      issued req s .reject l = 1 ∧ ¬ s.inH.PastReject ∧ (effect req s l).inH = .rejectWaiting := by
  have hread : ∀ b m, InPc.afterRead b m ≠ .rejectWaiting := by
    intro b m
    cases m <;> cases b <;> simp [InPc.afterRead]
  have hdispatch : ∀ m, InPc.dispatch m ≠ .rejectWaiting := by
    intro m
    cases m <;> simp [InPc.dispatch]
  have hcallback : ∀ b q, InPc.callback b q ≠ .rejectWaiting := by
    intro b q
    cases q <;> cases b <;> simp [InPc.callback]
  cases l <;> grind [issued, InPc.PastReject, Request.outMsg]

theorem Accounts.step (h : Accounts req s) (hg : guard req s l) : Accounts req (effect req s l) where
  caller := h.caller_effect hg
  reject_le := by
    have hle := h.reject_le
    have hbefore := h.reject_before
    rw [owed_add_done hg]
    obtain ⟨hzero, -, -⟩ | ⟨hone, hpast, -⟩ := inH_effect hg
    · omega
    · have := hbefore hpast
      omega
  reject_before hpast := by
    rw [owed_add_done hg]
    obtain ⟨hzero, -, hkeep⟩ | ⟨-, -, hwaiting⟩ := inH_effect hg
    · rw [hzero, h.reject_before fun hs => hpast (hkeep hs)]
    · exact absurd (by rw [hwaiting]; trivial) hpast
  reject_waiting hwaiting := by
    rw [owed_add_done hg]
    obtain ⟨hzero, hkeep, -⟩ | ⟨hone, hpast, -⟩ := inH_effect hg
    · rw [hzero, h.reject_waiting (hkeep hwaiting)]
    · rw [hone, h.reject_before hpast]

/-- A message that is on its way has an empty `doneChan`. -/
theorem Accounts.doneFree_of_owed (h : Accounts req s) {m : OutMsg n} (howed : ∀ d, m = some d → 0 < s.owed d) :
    s.doneFree m := by
  cases m with
  | none => trivial
  | some d =>
    have hpos := howed d rfl
    have hle : s.owed d + s.done d ≤ 1 := by
      cases d with
      | caller i =>
        rw [h.caller i]
        split <;> omega
      | reject => exact h.reject_le
    show s.done d = 0
    omega

/-! ## Fuel -/

/-- What each part of a state can still do once the flag is set. A message costs less at each place it comes to, and its
handlers' way to the end is counted with them. -/
def Closer.cost : Closer → Nat
  | .idle => 3 | .closeConn => 2 | .closeQuit => 1 | .done => 0

def CallerPc.cost : CallerPc → Nat
  | .ready => 1 | .checked => 10 | .returned => 0

def Incoming.queues : Incoming → Nat
  | .handled q => q
  | _ => 0

def InPc.cost : InPc → Nat
  | .top => 4
  | .reading => 5
  | .stallReceive m => 11 + m.queues
  | .stallStart m => 9 + m.queues
  | .handling q => 7 + q
  | .queueing q => 17 + q
  | .stallDone => 6
  | .pushReject => 5
  | .rejectQueueing => 14
  | .rejectWaiting => 4
  | .exiting => 3
  | .disconnecting _ => 2
  | .closing => 1
  | .finished => 0

def OutPc.cost : OutPc n → Nat
  | .loop => 4
  | .stallSend _ => 10
  | .writing _ => 8
  | .disconnecting _ _ => 6
  | .signal _ sent => if sent then 7 else 5
  | .sendDone => 6
  | .waitQueueQuit => 3
  | .cleanup => 2
  | .closing => 1
  | .finished => 0

def QueuePc.cost : QueuePc n → Nat
  | .loop => 4
  | .sending _ => 12
  | .drainPending => 3
  | .drain => 2
  | .closing => 1
  | .finished => 0

def StallPc.cost : StallPc → Nat
  | .loop => 2 | .disconnecting => 3 | .cleanup => 1 | .finished => 0

def stoppedCost : Option QuitChan → Nat
  | none => 1
  | some _ => 0

def inboxCost (inbox : List Incoming) : Nat := (inbox.map fun m => 7 + m.queues).sum

def State.fuel (s : State n) : Nat :=
  s.closer.cost + ∑ i, (s.callers i).cost + s.inH.cost + inboxCost s.inbox + s.stallControl.toNat
    + 9 * s.outputQueue.length + 9 * s.outputInvChan.length + 8 * s.pendingMsgs.length + s.queueH.cost
    + 7 * s.sendQueue.toList.length + s.sendDoneQueue.toNat + s.outH.cost + s.stallH.cost
    + stoppedCost s.ioStopped

theorem length_of_head? {α : Type} {xs : List α} {x : α} (h : xs.head? = some x) : xs.length = xs.tail.length + 1 := by
  obtain ⟨rest, rfl⟩ := head?_eq_some_iff.mp h
  rfl

theorem inboxCost_of_head? {inbox : List Incoming} {m : Incoming} (h : inbox.head? = some m) :
    inboxCost inbox = 7 + m.queues + inboxCost inbox.tail := by
  obtain ⟨rest, rfl⟩ := head?_eq_some_iff.mp h
  rfl

theorem cost_afterRead (m : Incoming) : (InPc.afterRead true m).cost ≤ 11 + m.queues := by
  cases m <;> simp [InPc.afterRead, InPc.cost, Incoming.queues]

theorem cost_dispatch (m : Incoming) : (InPc.dispatch m).cost ≤ 7 + m.queues := by
  cases m <;> simp [InPc.dispatch, InPc.cost, Incoming.queues]

theorem cost_callback (q : Nat) : (InPc.callback true q).cost < 7 + q := by
  cases q <;> simp [InPc.callback, InPc.cost]

/-- Once the flag is set, every action but a tick of a timer spends some of the fuel. -/
theorem fuel_lt (hflag : s.disconnect = true) (hg : guard req s l) (htick : ¬ l.IsTick) :
    (effect req s l).fuel < s.fuel := by
  cases l with
  | callerRefused i =>
    have hsum : ∑ j, (Function.update s.callers i .returned j).cost + 1 = ∑ j, (s.callers j).cost + 0 :=
      sum_update_move CallerPc.cost hg.1 .returned
    simp only [effect, State.fuel]
    omega
  | callerChecked i => exact absurd hflag (by simp [hg.2])
  | callerQueues i =>
    have hsum : ∑ j, (Function.update s.callers i .returned j).cost + 10 = ∑ j, (s.callers j).cost + 0 :=
      sum_update_move CallerPc.cost hg.1 .returned
    simp only [effect]
    split <;> simp only [State.fuel, length_append, length_singleton] <;> omega
  | inRead m =>
    have hread := cost_afterRead m
    have hinbox := inboxCost_of_head? hg.2.2
    have hpc : s.inH.cost = 5 := by rw [hg.1]; rfl
    simp only [effect, State.fuel, hflag]
    omega
  | inStallStart m =>
    have hdispatch := cost_dispatch m
    have hpc : s.inH.cost = 9 + m.queues := by rw [hg.1]; rfl
    simp only [effect, State.fuel, hg.2, Bool.toNat_true, Bool.toNat_false]
    omega
  | inCallback q =>
    have hcallback := cost_callback q
    have hpc : s.inH.cost = 7 + q := by rw [hg]; rfl
    simp only [effect, State.fuel, hflag]
    omega
  | queueTick k => exact absurd trivial htick
  | stallTick stalled => exact absurd trivial htick
  | _ =>
    simp only [guard] at hg
    simp only [effect, State.startDisconnect, State.queuePacket, hflag]
    (try split) <;> grind [State.fuel, InPc.cost, OutPc.cost, QueuePc.cost, StallPc.cost, Closer.cost, stoppedCost,
      length_of_head?]

theorem effect_tick (hflag : s.disconnect = true) (htick : l.IsTick) : effect req s l = s := by
  cases l <;> first | exact htick.elim | simp [effect, hflag]

theorem disconnect_effect (hflag : s.disconnect = true) : (effect req s l).disconnect = true := by
  cases l <;> simp only [effect, State.startDisconnect, State.queuePacket, State.trickle] <;> (try split) <;>
    first | exact hflag | rfl

/-! ## Nobody is stuck -/

/-- All four handlers have ended. -/
def State.Finished (s : State n) : Prop :=
  s.inH = .finished ∧ s.outH = .finished ∧ s.queueH = .finished ∧ s.stallH = .finished

/-- Nobody can move, careful steps and real ones only. -/
def State.Blocked (req : Fin n → Request) (s : State n) : Prop :=
  ∀ l : Label n, ¬ l.IsTick → Careful s l → ¬ guard req s l

section
variable (hflag : s.disconnect = true) (h : Phases s) (ha : Accounts req s) (hb : s.Blocked req)
include hflag h hb

theorem closer_done : s.closer = .done := by
  have hidle := h.closer.mp hflag
  have h1 := hb .closeConn id trivial
  have h2 := hb .closeQuit id trivial
  cases hc : s.closer with
  | idle => exact absurd hc hidle
  | closeConn => exact absurd hc h1
  | closeQuit => exact absurd hc h2
  | done => rfl

/-- `stallHandler` waits in its loop or has ended. -/
theorem stall_loop_or_finished : s.stallH = .loop ∨ s.stallH = .finished := by
  cases hpc : s.stallH with
  | loop => exact .inl rfl
  | disconnecting => exact absurd ⟨hpc, closer_done hflag h hb⟩ (hb .stallDisconnected id trivial)
  | cleanup =>
    cases hctl : s.stallControl with
    | false => exact absurd ⟨hpc, hctl⟩ (hb .stallDrained id trivial)
    | true => exact absurd ⟨hpc, hctl⟩ (hb .stallDrain id trivial)
  | finished => exact .inr rfl

/-- While `stallHandler` has not ended nobody waits for it. -/
theorem stallControl_free (hstall : s.stallH ≠ .finished) : s.stallControl = false := by
  have hloop := (stall_loop_or_finished hflag h hb).resolve_right hstall
  by_contra hfull
  exact hb .stallTake id trivial ⟨hloop, by simpa using hfull⟩

include ha

/-- First `queueHandler` ends. Whoever it has to wait for finds room in the queue, which it has just emptied. -/
theorem queue_finished : s.queueH = .finished := by
  have hclosed := closer_done hflag h hb
  cases hpc : s.queueH with
  | loop => exact absurd ⟨hpc, hclosed⟩ (hb .queueQuit id trivial)
  | sending m =>
    have hflight := h.flight
    rw [State.flight, hpc] at hflight
    have hempty : s.sendQueue = none := by
      cases hq : s.sendQueue with
      | none => rfl
      | some m' =>
        simp only [hq, QueuePc.held, Option.toList_some, length_singleton] at hflight
        omega
    exact absurd ⟨hpc, hempty⟩ (hb (.queueSend m) id trivial)
  | drainPending =>
    cases hp : s.pendingMsgs with
    | nil => exact absurd ⟨hpc, hp⟩ (hb .queuePendingDone id trivial)
    | cons m rest =>
      have hfree : s.doneFree m := ha.doneFree_of_owed fun d hm => by
        simp only [State.owed, hp, hm, count_cons_self]
        omega
      exact absurd ⟨hpc, by rw [hp]; rfl, hfree⟩ (hb (.queuePending m) id trivial)
  | drain =>
    cases hq : s.outputQueue with
    | cons m rest =>
      have hfree : s.doneFree m := ha.doneFree_of_owed fun d hm => by
        simp only [State.owed, hq, hm, count_cons_self]
        omega
      exact absurd ⟨hpc, by rw [hq]; rfl, hfree⟩ (hb (.drainTake m) id trivial)
    | nil =>
      cases hinv : s.outputInvChan with
      | cons block rest => exact absurd ⟨hpc, by rw [hinv]; rfl⟩ (hb (.drainInv block) id trivial)
      | nil =>
        have hroom : s.outputQueue.length < outputBufferSize := by simp [hq, outputBufferSize]
        have hroom' : s.outputInvChan.length < outputBufferSize := by simp [hinv, outputBufferSize]
        have hnobody : ∀ i, s.callers i ≠ .checked := fun i hi => by
          refine hb (.callerQueues i) id trivial ⟨hi, ?_⟩
          cases req i with
          | message doneChan => exact hroom
          | inventory block => exact hroom'
        have hnot : ¬ s.inH.Queues := fun hin => by
          cases hpcIn : s.inH with
          | queueing q => exact hb (.inQueues q) id trivial ⟨hpcIn, hroom⟩
          | rejectQueueing => exact hb .inRejectQueues id trivial ⟨hpcIn, hroom⟩
          | _ => rw [hpcIn] at hin; exact hin
        exact absurd ⟨hpc, hq, hinv⟩ (hb .drainDefault id ⟨hnobody, hnot⟩)
  | closing => exact absurd hpc (hb .queueClose id trivial)
  | finished => rfl

/-- Then `outHandler`, which `stallHandler` waits for. -/
theorem out_finished : s.outH = .finished := by
  have hclosed := closer_done hflag h hb
  have hstall : s.outH ≠ .finished → s.stallControl = false := fun hne =>
    stallControl_free hflag h hb fun hfin => hne (h.left (.inr hfin) .outQuit)
  cases hpc : s.outH with
  | loop => exact absurd ⟨hpc, hclosed⟩ (hb .outQuit id trivial)
  | stallSend m => exact absurd ⟨hpc, hstall (by simp [hpc])⟩ (hb (.outStall m) id trivial)
  | writing m => exact absurd hpc (hb (.outFailed m) id trivial)
  | disconnecting m first => exact absurd ⟨hpc, fun _ => hclosed⟩ (hb (.outDisconnected m first) id trivial)
  | signal m sent =>
    have hfree : s.doneFree m := ha.doneFree_of_owed fun d hm => by
      simp only [State.owed, hpc, OutPc.held, hm, count_cons_self]
      omega
    exact absurd ⟨hpc, hfree⟩ (hb (.outSignal m sent) id trivial)
  | sendDone =>
    have hflight := h.flight
    rw [State.flight, hpc] at hflight
    have hempty : s.sendDoneQueue = false := by
      by_contra hfull
      simp only [Bool.not_eq_false] at hfull
      simp only [hfull, OutPc.inFlight, Bool.toNat_true] at hflight
      omega
    exact absurd ⟨hpc, hempty⟩ (hb .outSendDone id trivial)
  | waitQueueQuit => exact absurd ⟨hpc, queue_finished hflag h ha hb⟩ (hb .outWaited id trivial)
  | cleanup =>
    cases hq : s.sendQueue with
    | none => exact absurd ⟨hpc, hq⟩ (hb .outDrained id trivial)
    | some m =>
      have hfree : s.doneFree m := ha.doneFree_of_owed fun d hm => by
        simp only [State.owed, hq, hm, Option.toList_some, count_cons_self]
        omega
      exact absurd ⟨hpc, hq, hfree⟩ (hb (.outDrain m) id trivial)
  | closing => exact absurd hpc (hb .outClose id trivial)
  | finished => rfl

/-- Nothing is on its way any more. -/
theorem owed_eq_zero (d : DoneChan n) : s.owed d = 0 := by
  have hqueue := queue_finished hflag h ha hb
  have hout := out_finished hflag h ha hb
  have hdrained : s.queueH.Drained := by rw [hqueue]; trivial
  simp [State.owed, (h.drained hdrained).1, h.pending (.inr hdrained), hqueue, QueuePc.held, h.emptied (.inr hout), hout,
    OutPc.held]

/-- Then `inHandler`. If it waits for its reject message, the message has been dealt with. -/
theorem in_finished : s.inH = .finished := by
  have hqueue := queue_finished hflag h ha hb
  have hdrained : s.queueH.Drained := by rw [hqueue]; trivial
  have hnot := (h.drained hdrained).2.2
  have hstall : s.inH ≠ .finished → s.stallControl = false := fun hne =>
    stallControl_free hflag h hb fun hfin => hne (h.left (.inr hfin) .inQuit)
  cases hpc : s.inH with
  | top => exact absurd hpc (hb .inTop id trivial)
  | reading => exact absurd hpc (hb .inFail id trivial)
  | stallReceive m => exact absurd ⟨hpc, hstall (by simp [hpc])⟩ (hb (.inStallReceive m) id trivial)
  | stallStart m => exact absurd ⟨hpc, hstall (by simp [hpc])⟩ (hb (.inStallStart m) id trivial)
  | handling q => exact absurd hpc (hb (.inCallback q) id trivial)
  | queueing q => exact absurd (by rw [hpc]; trivial) hnot
  | stallDone => exact absurd ⟨hpc, hstall (by simp [hpc])⟩ (hb .inStallDone id trivial)
  | pushReject => exact absurd hpc (hb .inReject id trivial)
  | rejectQueueing => exact absurd (by rw [hpc]; trivial) hnot
  | rejectWaiting =>
    have haccount := ha.reject_waiting hpc
    rw [owed_eq_zero hflag h ha hb] at haccount
    exact absurd ⟨hpc, by omega⟩ (hb .inRejected id trivial)
  | exiting => exact absurd hpc (hb .inExit id trivial)
  | disconnecting first => exact absurd ⟨hpc, fun _ => closer_done hflag h hb⟩ (hb (.inDisconnected first) id trivial)
  | closing => exact absurd hpc (hb .inClose id trivial)
  | finished => rfl

/-- And `stallHandler` at last, which has two channels to choose from and has seen one of them at most. -/
theorem stall_finished : s.stallH = .finished := by
  refine (stall_loop_or_finished hflag h hb).resolve_left fun hloop => ?_
  have hclosed : ∀ q, s.quitClosed q := fun q => by
    cases q with
    | inQuit => exact in_finished hflag h ha hb
    | outQuit => exact out_finished hflag h ha hb
  obtain ⟨q, hq⟩ : ∃ q, s.ioStopped ≠ some q := by
    cases s.ioStopped with
    | none => exact ⟨.inQuit, by simp⟩
    | some q => cases q with
      | inQuit => exact ⟨.outQuit, by simp⟩
      | outQuit => exact ⟨.inQuit, by simp⟩
  exact hb (.stallQuit q) id hq ⟨hloop, hclosed q⟩

theorem finished_of_blocked : s.Finished :=
  ⟨in_finished hflag h ha hb, out_finished hflag h ha hb, queue_finished hflag h ha hb, stall_finished hflag h ha hb⟩

/-- The callers have all returned, and each of them with a `doneChan` has a value there. -/
theorem answered_of_blocked (i : Fin n) : s.callers i = .returned ∧ (req i = .message true → s.done (.caller i) = 1) := by
  have hdrained : s.queueH.Drained := by rw [queue_finished hflag h ha hb]; trivial
  have hreturned : s.callers i = .returned := by
    cases hpc : s.callers i with
    | ready => exact absurd ⟨hpc, hflag⟩ (hb (.callerRefused i) id trivial)
    | checked => exact absurd hpc ((h.drained hdrained).2.1 i)
    | returned => rfl
  refine ⟨hreturned, fun hreq => ?_⟩
  have haccount := ha.caller i
  rw [owed_eq_zero hflag h ha hb, if_pos ⟨hreturned, hreq⟩] at haccount
  omega

end

/-! ## The end -/

/-- What every careful run keeps. -/
theorem Careful.invariant {t u : State n} (hI : Phases t ∧ Accounts req t) (hok : Careful t l) (hnext : next req t l = some u) :
    Phases u ∧ Accounts req u := by
  obtain ⟨hg, rfl⟩ := (next_eq_some req).mp hnext
  exact ⟨hI.1.step hg hok, hI.2.step hg⟩

theorem invariant_of_reaches {inbox : List Incoming} {t : State n}
    (h : ReachesWhen (next req) Careful (State.start n inbox) t) : Phases t ∧ Accounts req t :=
  ReachesWhen.invariant (I := fun t => Phases t ∧ Accounts req t) (fun _ _ _ hI hok hnext => Careful.invariant hI hok hnext)
    h ⟨phases_start n inbox, accounts_start n req inbox⟩

/-- After `Disconnect`, nobody is blocked before all that has to happen has happened, and it happens. -/
theorem shutdown {t : State n} (hI : Phases t ∧ Accounts req t) (hflag : t.disconnect = true) :
    Inevitable (next req) Careful Label.IsTick
      (fun u => u.disconnect = true ∧ Phases u ∧ Accounts req u ∧ u.Blocked req) t := by
  refine Inevitable.of_fuel (I := fun u => u.disconnect = true ∧ Phases u ∧ Accounts req u) State.fuel ?_ ?_ ?_ ?_ t
    ⟨hflag, hI⟩
  · rintro s l u ⟨hs, hI⟩ hok hnext
    refine ⟨?_, Careful.invariant hI hok hnext⟩
    obtain ⟨-, rfl⟩ := (next_eq_some req).mp hnext
    exact disconnect_effect hs
  · rintro s l u ⟨hs, -⟩ htick - hnext
    obtain ⟨hg, rfl⟩ := (next_eq_some req).mp hnext
    exact fuel_lt hs hg htick
  · rintro s l u ⟨hs, -⟩ htick hnext
    obtain ⟨-, rfl⟩ := (next_eq_some req).mp hnext
    exact effect_tick hs htick
  · rintro s ⟨hs, hphases, haccounts⟩ hstuck
    refine ⟨hs, hphases, haccounts, fun l htick hok hg => ?_⟩
    have hnone := hstuck l htick hok
    rw [next, if_pos hg] at hnone
    cases hnone

/-- `stallHandler` has seen `outQuit` twice. -/
def leftEarly : State 0 :=
  { State.start 0 [] with
    disconnect := true, closer := .done, stallControl := true, inH := .stallStart (.handled 0), outH := .finished,
    queueH := .finished, stallH := .finished, ioStopped := some .outQuit }

/-- `queueHandler` had gone when the message came. -/
def queuedLate : State 1 :=
  { State.start 1 [] with
    disconnect := true, closer := .done, outputQueue := [some (.caller 0)],
    callers := Function.update (Function.update (fun _ => .ready) 0 .checked) 0 .returned,
    inH := .finished, outH := .finished, queueH := .finished, stallH := .finished, ioStopped := some .inQuit }

end NogoCommons.PeerHandlers
