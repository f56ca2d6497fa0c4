import Mathlib.Logic.Function.Basic
import NogoCommons.Lib.Transition

/-!
# `peer/peer.go` — the handlers of a peer

Four goroutines and the channels between them. `inHandler` reads messages, `queueHandler` collects what is to be sent,
`outHandler` writes it, and `stallHandler` is told by the other two what they do. `Disconnect` closes the connection and
then the channel `quit`, and whoever calls it a second time returns at once. Anybody may call `QueueMessage`: it looks at
the flag and, in a later step, puts the message in the queue.

Each label is one atomic action: an operation on a channel, or an access to the flag. Its guard says when the action is
possible, with blocked operations on channels as guards that do not hold, and its effect what it does. A `select` is one
label for each of its cases. Of a message only its `doneChan` matters, of a message received what the handler does with
it, and of the inventory whether it is a block. A channel with a buffer of one that nobody looks into is a `Bool`. The
channels `inQuit`, `outQuit` and `queueQuit` are closed in the last step of their handlers and `quit` in the last step of
`Disconnect`, so the program counters say whether they are.

The timers tick at any time. What a tick of the stall handler finds is not modelled: it disconnects or it does not.
-/

namespace NogoCommons.PeerHandlers
open Lib

/-! ## Messages -/

/-- The channels on which somebody waits for a message to be sent: one for each caller of `QueueMessage`, and the one that
`PushRejectMsg` makes when `inHandler` calls it. -/
inductive DoneChan (n : Nat) where
  | caller (i : Fin n)
  | reject
deriving DecidableEq

/-- `outMsg`: its `doneChan`. -/
abbrev OutMsg (n : Nat) := Option (DoneChan n)

/-- What a caller asks for. -/
inductive Request where
  /-- `QueueMessage`, with a `doneChan` or without. -/
  | message (doneChan : Bool)
  /-- `QueueInventory`, of a block or of something else. -/
  | inventory (block : Bool)
deriving DecidableEq

/-- What `readMessage` returns, as far as `inHandler` tells it apart. -/
inductive Incoming where
  /-- An allowed error, or an unknown message. -/
  | skipped
  /-- An error that is answered with a reject message. -/
  | malformed
  /-- A second `version` or `verack`, which is answered with a reject message. -/
  | duplicate
  | sendAddrV2
  /-- Any other message, whose callbacks call `QueueMessage` so many times. -/
  | handled (queues : Nat)
deriving DecidableEq

def outputBufferSize : Nat := 50

/-! ## Program counters -/

/-- `Disconnect`, in whoever was the first to call it. -/
inductive Closer where
  | idle | closeConn | closeQuit | done
deriving DecidableEq

inductive CallerPc where
  | ready
  /-- `Connected` was true. -/
  | checked
  | returned
deriving DecidableEq

inductive InPc where
  | top
  | reading
  | stallReceive (m : Incoming)
  | stallStart (m : Incoming)
  | handling (queues : Nat)
  /-- In `QueueMessage`, after `Connected` was true. -/
  | queueing (queues : Nat)
  | stallDone
  | pushReject
  | rejectQueueing
  | rejectWaiting
  | exiting
  /-- In `Disconnect`, and whether as the first. -/
  | disconnecting (first : Bool)
  | closing
  | finished
deriving DecidableEq

inductive OutPc (n : Nat) where
  | loop
  | stallSend (m : OutMsg n)
  | writing (m : OutMsg n)
  | disconnecting (m : OutMsg n) (first : Bool)
  | signal (m : OutMsg n) (sent : Bool)
  | sendDone
  | waitQueueQuit
  | cleanup
  | closing
  | finished
deriving DecidableEq

inductive QueuePc (n : Nat) where
  | loop
  | sending (m : OutMsg n)
  | drainPending
  | drain
  | closing
  | finished
deriving DecidableEq

/-- The two channels that `stallHandler` waits for. -/
inductive QuitChan where
  | inQuit | outQuit
deriving DecidableEq

inductive StallPc where
  | loop
  | disconnecting
  | cleanup
  | finished
deriving DecidableEq

/-! ## States -/

structure State (n : Nat) where
  disconnect : Bool
  closer : Closer
  stallControl : Bool
  outputQueue : List (OutMsg n)
  /-- Whether the inventory is a block. -/
  outputInvChan : List Bool
  sendQueue : Option (OutMsg n)
  sendDoneQueue : Bool
  /-- How many values have been sent on a `doneChan`. -/
  done : DoneChan n → Nat
  /-- What is still to be read. -/
  inbox : List Incoming
  callers : Fin n → CallerPc
  inH : InPc
  outH : OutPc n
  queueH : QueuePc n
  pendingMsgs : List (OutMsg n)
  invSendQueue : Nat
  waiting : Bool
  stallH : StallPc
  /-- `ioStopped`, with the channel that set it. -/
  ioStopped : Option QuitChan

/-- The handlers have just been started. -/
def State.start (n : Nat) (inbox : List Incoming) : State n where
  disconnect := false
  closer := .idle
  stallControl := false
  outputQueue := []
  outputInvChan := []
  sendQueue := none
  sendDoneQueue := false
  done _ := 0
  inbox := inbox
  callers _ := .ready
  inH := .top
  outH := .loop
  queueH := .loop
  pendingMsgs := []
  invSendQueue := 0
  waiting := false
  stallH := .loop
  ioStopped := none

namespace State
variable {n : Nat} (s : State n)

def connClosed : Prop := s.closer = .closeQuit ∨ s.closer = .done

instance decidableConnClosed : Decidable s.connClosed := inferInstanceAs (Decidable (_ ∨ _))

/-- `inQuit` or `outQuit` is closed. -/
def quitClosed : QuitChan → Prop
  | .inQuit => s.inH = .finished
  | .outQuit => s.outH = .finished

instance decidableQuitClosed : (q : QuitChan) → Decidable (s.quitClosed q)
  | .inQuit => inferInstanceAs (Decidable (s.inH = .finished))
  | .outQuit => inferInstanceAs (Decidable (s.outH = .finished))

/-- The first step of `Disconnect`. It does nothing when there was one before. -/
def startDisconnect : State n :=
  { s with disconnect := true, closer := if s.disconnect then s.closer else .closeConn }

/-- A send on the `doneChan` of a message is possible: there is none, or its buffer is free. -/
def doneFree : OutMsg n → Prop
  | none => True
  | some d => s.done d = 0

instance decidableDoneFree : (m : OutMsg n) → Decidable (s.doneFree m)
  | none => inferInstanceAs (Decidable True)
  | some d => inferInstanceAs (Decidable (s.done d = 0))

/-- The values on the channels after one more on the `doneChan` of a message. -/
def signalled : OutMsg n → DoneChan n → Nat
  | none => s.done
  | some d => Function.update s.done d (s.done d + 1)

def queuePacket (m : OutMsg n) : State n :=
  { s with
    pendingMsgs := if s.waiting then s.pendingMsgs ++ [m] else s.pendingMsgs
    queueH := if s.waiting then s.queueH else .sending m
    waiting := true }

/-- The inventory that is waiting, as `k` messages: the first of them may be sent at once. -/
def trickle (k : Nat) : State n :=
  { s with
    invSendQueue := 0
    pendingMsgs := s.pendingMsgs ++ List.replicate (if s.waiting then k else k - 1) none
    queueH := if s.waiting = true ∨ k = 0 then s.queueH else .sending none
    waiting := s.waiting || k != 0 }

end State

/-! ## Steps -/

/-- The atomic actions. -/
inductive Label (n : Nat) where
  -- `Disconnect`, called by somebody else
  | disconnect | closeConn | closeQuit
  -- `QueueMessage` and `QueueInventory`, called by somebody else
  | callerRefused (i : Fin n) | callerChecked (i : Fin n) | callerQueues (i : Fin n)
  | inTop | inRead (m : Incoming) | inFail | inStallReceive (m : Incoming) | inStallStart (m : Incoming)
  | inCallback (queues : Nat) | inQueues (queues : Nat) | inStallDone | inReject | inRejectQueues | inRejected
  | inExit | inDisconnected (first : Bool) | inClose
  | outTake (m : OutMsg n) | outQuit | outStall (m : OutMsg n) | outWritten (m : OutMsg n) | outFailed (m : OutMsg n)
  | outDisconnected (m : OutMsg n) (first : Bool) | outSignal (m : OutMsg n) (sent : Bool) | outSendDone
  | outWaited | outDrain (m : OutMsg n) | outDrained | outClose
  | queueTake (m : OutMsg n) | queueDone | queueInv (block : Bool) | queueTick (k : Nat) | queueQuit
  | queueSend (m : OutMsg n) | queuePending (m : OutMsg n) | queuePendingDone
  | drainTake (m : OutMsg n) | drainInv (block : Bool) | drainDefault | queueClose
  | stallTake | stallTick (stalled : Bool) | stallQuit (q : QuitChan) | stallDisconnected | stallDrain | stallDrained

/-- What `inHandler` does with what it has read. -/
def InPc.afterRead (disconnect : Bool) : Incoming → InPc
  | .skipped => .top
  | .malformed => if disconnect then .exiting else .pushReject
  | m => .stallReceive m

/-- The `switch` over the messages. -/
def InPc.dispatch : Incoming → InPc
  | .duplicate => .pushReject
  | .handled queues => .handling queues
  | _ => .exiting

/-- The callbacks, with so many calls of `QueueMessage` to come. -/
def InPc.callback (disconnect : Bool) : Nat → InPc
  | 0 => .stallDone
  | q + 1 => if disconnect then .handling q else .queueing q

variable {n : Nat} (req : Fin n → Request)

/-- There is room for what a caller asks for. -/
def roomFor (s : State n) : Request → Prop
  | .message _ => s.outputQueue.length < outputBufferSize
  | .inventory _ => s.outputInvChan.length < outputBufferSize

instance decidableRoomFor (s : State n) : (r : Request) → Decidable (roomFor s r)
  | .message _ => inferInstanceAs (Decidable (_ < _))
  | .inventory _ => inferInstanceAs (Decidable (_ < _))

/-- The message of a caller. -/
def Request.outMsg (i : Fin n) : Request → OutMsg n
  | .message true => some (.caller i)
  | _ => none

/-- An action is possible. -/
def guard (s : State n) : Label n → Prop
  | .disconnect => s.disconnect = false
  | .closeConn => s.closer = .closeConn
  | .closeQuit => s.closer = .closeQuit
  | .callerRefused i => s.callers i = .ready ∧ s.disconnect = true
  | .callerChecked i => s.callers i = .ready ∧ s.disconnect = false
  | .callerQueues i => s.callers i = .checked ∧ roomFor s (req i)
  | .inTop => s.inH = .top
  | .inRead m => s.inH = .reading ∧ ¬ s.connClosed ∧ s.inbox.head? = some m
  | .inFail => s.inH = .reading
  | .inStallReceive m => s.inH = .stallReceive m ∧ s.stallControl = false
  | .inStallStart m => s.inH = .stallStart m ∧ s.stallControl = false
  | .inCallback q => s.inH = .handling q
  | .inQueues q => s.inH = .queueing q ∧ s.outputQueue.length < outputBufferSize
  | .inStallDone => s.inH = .stallDone ∧ s.stallControl = false
  | .inReject => s.inH = .pushReject
  | .inRejectQueues => s.inH = .rejectQueueing ∧ s.outputQueue.length < outputBufferSize
  | .inRejected => s.inH = .rejectWaiting ∧ 0 < s.done .reject
  | .inExit => s.inH = .exiting
  | .inDisconnected first => s.inH = .disconnecting first ∧ (first = true → s.closer = .done)
  | .inClose => s.inH = .closing
  | .outTake m => s.outH = .loop ∧ s.sendQueue = some m
  | .outQuit => s.outH = .loop ∧ s.closer = .done
  | .outStall m => s.outH = .stallSend m ∧ s.stallControl = false
  | .outWritten m => s.outH = .writing m ∧ ¬ s.connClosed
  | .outFailed m => s.outH = .writing m
  | .outDisconnected m first => s.outH = .disconnecting m first ∧ (first = true → s.closer = .done)
  | .outSignal m sent => s.outH = .signal m sent ∧ s.doneFree m
  | .outSendDone => s.outH = .sendDone ∧ s.sendDoneQueue = false
  | .outWaited => s.outH = .waitQueueQuit ∧ s.queueH = .finished
  | .outDrain m => s.outH = .cleanup ∧ s.sendQueue = some m ∧ s.doneFree m
  | .outDrained => s.outH = .cleanup ∧ s.sendQueue = none
  | .outClose => s.outH = .closing
  | .queueTake m => s.queueH = .loop ∧ s.outputQueue.head? = some m
  | .queueDone => s.queueH = .loop ∧ s.sendDoneQueue = true
  | .queueInv block => s.queueH = .loop ∧ s.outputInvChan.head? = some block
  | .queueTick k => s.queueH = .loop ∧ k ≤ s.invSendQueue
  | .queueQuit => s.queueH = .loop ∧ s.closer = .done
  | .queueSend m => s.queueH = .sending m ∧ s.sendQueue = none
  | .queuePending m => s.queueH = .drainPending ∧ s.pendingMsgs.head? = some m ∧ s.doneFree m
  | .queuePendingDone => s.queueH = .drainPending ∧ s.pendingMsgs = []
  | .drainTake m => s.queueH = .drain ∧ s.outputQueue.head? = some m ∧ s.doneFree m
  | .drainInv block => s.queueH = .drain ∧ s.outputInvChan.head? = some block
  | .drainDefault => s.queueH = .drain ∧ s.outputQueue = [] ∧ s.outputInvChan = []
  | .queueClose => s.queueH = .closing
  | .stallTake => s.stallH = .loop ∧ s.stallControl = true
  | .stallTick _ => s.stallH = .loop
  | .stallQuit q => s.stallH = .loop ∧ s.quitClosed q
  | .stallDisconnected => s.stallH = .disconnecting ∧ s.closer = .done
  | .stallDrain => s.stallH = .cleanup ∧ s.stallControl = true
  | .stallDrained => s.stallH = .cleanup ∧ s.stallControl = false

/-- What an action does. -/
def effect (s : State n) : Label n → State n
  | .disconnect => s.startDisconnect
  | .closeConn => { s with closer := .closeQuit }
  | .closeQuit => { s with closer := .done }
  -- a goroutine of its own sends on the `doneChan`
  | .callerRefused i =>
    { s with callers := Function.update s.callers i .returned, done := s.signalled ((req i).outMsg i) }
  | .callerChecked i => { s with callers := Function.update s.callers i .checked }
  | .callerQueues i =>
    let s := { s with callers := Function.update s.callers i .returned }
    match req i with
    | .message _ => { s with outputQueue := s.outputQueue ++ [(req i).outMsg i] }
    | .inventory block => { s with outputInvChan := s.outputInvChan ++ [block] }
  | .inTop => { s with inH := if s.disconnect then .exiting else .reading }
  | .inRead m => { s with inbox := s.inbox.tail, inH := .afterRead s.disconnect m }
  | .inFail => { s with inH := .exiting }
  | .inStallReceive m => { s with stallControl := true, inH := .stallStart m }
  | .inStallStart m => { s with stallControl := true, inH := .dispatch m }
  | .inCallback q => { s with inH := .callback s.disconnect q }
  | .inQueues q => { s with inH := .handling q, outputQueue := s.outputQueue ++ [none] }
  | .inStallDone => { s with stallControl := true, inH := .top }
  | .inReject =>
    if s.disconnect then { s with inH := .rejectWaiting, done := s.signalled (some .reject) }
    else { s with inH := .rejectQueueing }
  | .inRejectQueues => { s with inH := .rejectWaiting, outputQueue := s.outputQueue ++ [some .reject] }
  | .inRejected => { s with inH := .exiting }
  | .inExit => { s.startDisconnect with inH := .disconnecting (!s.disconnect) }
  | .inDisconnected _ => { s with inH := .closing }
  | .inClose => { s with inH := .finished }
  | .outTake m => { s with sendQueue := none, outH := .stallSend m }
  | .outQuit => { s with outH := .waitQueueQuit }
  | .outStall m => { s with stallControl := true, outH := .writing m }
  | .outWritten m => { s with outH := .signal m true }
  | .outFailed m => { s.startDisconnect with outH := .disconnecting m (!s.disconnect) }
  | .outDisconnected m _ => { s with outH := .signal m false }
  | .outSignal m sent => { s with done := s.signalled m, outH := if sent then .sendDone else .loop }
  | .outSendDone => { s with sendDoneQueue := true, outH := .loop }
  | .outWaited => { s with outH := .cleanup }
  | .outDrain m => { s with sendQueue := none, done := s.signalled m }
  | .outDrained => { s with outH := .closing }
  | .outClose => { s with outH := .finished }
  | .queueTake m => State.queuePacket { s with outputQueue := s.outputQueue.tail } m
  | .queueDone =>
    match s.pendingMsgs with
    | [] => { s with sendDoneQueue := false, waiting := false }
    | m :: rest => { s with sendDoneQueue := false, pendingMsgs := rest, queueH := .sending m }
  | .queueInv block =>
    let s := { s with outputInvChan := s.outputInvChan.tail }
    if block then s.queuePacket none else { s with invSendQueue := s.invSendQueue + 1 }
  | .queueTick k => if s.disconnect = true ∨ s.invSendQueue = 0 then s else s.trickle k
  | .queueQuit => { s with queueH := .drainPending }
  | .queueSend m => { s with sendQueue := some m, queueH := .loop }
  | .queuePending m => { s with pendingMsgs := s.pendingMsgs.tail, done := s.signalled m }
  | .queuePendingDone => { s with queueH := .drain }
  | .drainTake m => { s with outputQueue := s.outputQueue.tail, done := s.signalled m }
  | .drainInv _ => { s with outputInvChan := s.outputInvChan.tail }
  | .drainDefault => { s with queueH := .closing }
  | .queueClose => { s with queueH := .finished }
  | .stallTake => { s with stallControl := false }
  | .stallTick stalled =>
    if stalled = true ∧ s.disconnect = false then { s.startDisconnect with stallH := .disconnecting } else s
  | .stallQuit q =>
    match s.ioStopped with
    | none => { s with ioStopped := some q }
    | some _ => { s with stallH := .cleanup }
  | .stallDisconnected => { s with stallH := .loop }
  | .stallDrain => { s with stallControl := false }
  | .stallDrained => { s with stallH := .finished }

instance decidableGuard (s : State n) (l : Label n) : Decidable (guard req s l) := by
  cases l <;> dsimp only [guard] <;> infer_instance

def next (s : State n) (l : Label n) : Option (State n) := if guard req s l then some (effect req s l) else none

theorem next_eq_some {s t : State n} {l : Label n} : next req s l = some t ↔ guard req s l ∧ effect req s l = t := by
  unfold next
  split_ifs with h
  · simp [h]
  · simp [h]

/-- The timers, which may tick as often as they like. -/
def Label.IsTick : Label n → Prop
  | .queueTick _ => True
  | .stallTick _ => True
  | _ => False

end NogoCommons.PeerHandlers
