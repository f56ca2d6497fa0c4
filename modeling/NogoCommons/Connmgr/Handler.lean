import Mathlib.Data.Finset.Card
import Mathlib.Logic.Function.Basic

/-!
# `connmgr/connmanager.go` — the connection handler

`connHandler` takes one message after the other and keeps two tables. The state of a request is not in them but in
the request itself, and is set by statements of its own. A request is its id here: the counter gives each its own.

Two messages can part the states from the tables: a registration of a request that is connected, and a disconnect
after which there are connections enough, which leaves the request as it was (`alwaysMatches_iff`).
-/

namespace NogoCommons.Connmgr

inductive ConnState
  | pending | failing | canceled | established | disconnected
deriving DecidableEq

structure Config where
  targetOutbound : UInt32
  getNewAddress : Bool
  /-- `Permanent`, of a request. -/
  permanent : UInt64 → Bool

inductive Message
  | registerPending (id : UInt64)
  | handleConnected (id : UInt64)
  | handleDisconnected (id : UInt64) (retry triggerReconnect : Bool)
  | handleFailed (id : UInt64)

/-- The request a message is about. -/
def Message.id : Message → UInt64
  | .registerPending id | .handleConnected id | .handleDisconnected id _ _ | .handleFailed id => id

/-- A goroutine or a timer that `handleFailedConn` starts. -/
inductive Launch
  | connect (id : UInt64)
  | removeAndReplace (id : UInt64)
deriving DecidableEq

structure Handler where
  pending : Finset UInt64 := ∅
  conns : Finset UInt64 := ∅
  /-- The states of the requests ever registered. -/
  state : UInt64 → Option ConnState := fun _ => none
  launched : List Launch := []

namespace Handler

def updateState (h : Handler) (id : UInt64) (s : ConnState) : Handler :=
  { h with state := Function.update h.state id (some s) }

def handleFailedConn (cfg : Config) (h : Handler) (id : UInt64) (triggerReconnect : Bool) : Handler :=
  if cfg.permanent id || triggerReconnect then { h with launched := h.launched ++ [.connect id] }
  else if cfg.getNewAddress then { h with launched := h.launched ++ [.removeAndReplace id] }
  else h

/-- A request without a connection is connected to again. -/
def Reconnects (cfg : Config) (h : Handler) (id : UInt64) : Prop :=
  UInt32.ofNat (h.conns.erase id).card < cfg.targetOutbound ∨ cfg.permanent id = true

instance (cfg : Config) (h : Handler) (id : UInt64) : Decidable (Reconnects cfg h id) :=
  inferInstanceAs (Decidable (_ ∨ _))

/-- A turn of `connHandler`. -/
def handle (cfg : Config) (h : Handler) : Message → Handler
  | .registerPending id => { h.updateState id .pending with pending := insert id h.pending }
  | .handleConnected id =>
    if id ∈ h.pending then
      { h.updateState id .established with conns := insert id h.conns, pending := h.pending.erase id }
    else h
  | .handleDisconnected id retry triggerReconnect =>
    if id ∈ h.conns then
      let h' := { h with conns := h.conns.erase id }
      if !retry then h'.updateState id .disconnected
      else if Reconnects cfg h id then
        handleFailedConn cfg { h'.updateState id .pending with pending := insert id h.pending } id triggerReconnect
      else h'
    else if id ∈ h.pending then { h.updateState id .canceled with pending := h.pending.erase id }
    else h
  | .handleFailed id => if id ∈ h.pending then handleFailedConn cfg (h.updateState id .failing) id false else h

/-- The states of the requests match the tables. -/
structure Matches (h : Handler) : Prop where
  disjoint : Disjoint h.pending h.conns
  established : ∀ id s, h.state id = some s → (s = .established ↔ id ∈ h.conns)
  pending : ∀ id s, h.state id = some s → (s = .pending ∨ s = .failing ↔ id ∈ h.pending)
  otherwise : ∀ id s, h.state id = some s → id ∉ h.conns → id ∉ h.pending → s = .canceled ∨ s = .disconnected

/-- After each of the messages the states match the tables. -/
def AlwaysMatches (cfg : Config) : Handler → List Message → Prop
  | _, [] => True
  | h, m :: ms => (h.handle cfg m).Matches ∧ AlwaysMatches cfg (h.handle cfg m) ms

/-- What a message needs for the states to match afterwards. -/
def Allowed (cfg : Config) (h : Handler) : Message → Prop
  | .registerPending id => id ∉ h.conns
  | .handleDisconnected id true _ => id ∈ h.conns → Reconnects cfg h id
  | _ => True

def AllAllowed (cfg : Config) : Handler → List Message → Prop
  | _, [] => True
  | h, m :: ms => Allowed cfg h m ∧ AllAllowed cfg (h.handle cfg m) ms

/-! ## One message -/

variable {cfg : Config} {h : Handler} {m : Message} {id x : UInt64} {trigger : Bool}

/-- The state of a request is the one for its place. -/
def Placed (h : Handler) (id : UInt64) : Prop :=
  (id ∈ h.conns ↔ h.state id = some .established) ∧
    (id ∈ h.pending ↔ h.state id = some .pending ∨ h.state id = some .failing)

theorem matches_of_placed (hp : ∀ id, h.Placed id) : h.Matches := by
  refine ⟨Finset.disjoint_left.mpr fun id hpend hconn => ?_, fun id s hs => ?_, fun id s hs => ?_, fun id s hs => ?_⟩
  · have hplaced := hp id
    simp_all [Placed]
  · simp [(hp id).1, hs]
  · simp [(hp id).2, hs]
  · cases s <;> simp [(hp id).1, (hp id).2, hs]

@[simp] theorem handleFailedConn_tables : (handleFailedConn cfg h id trigger).pending = h.pending ∧
    (handleFailedConn cfg h id trigger).conns = h.conns ∧ (handleFailedConn cfg h id trigger).state = h.state := by
  unfold handleFailedConn
  split_ifs <;> exact ⟨rfl, rfl, rfl⟩

/-- A message is about one request and leaves the others alone. -/
theorem handle_other (cfg : Config) (h : Handler) (hx : x ≠ m.id) : (x ∈ (h.handle cfg m).pending ↔ x ∈ h.pending) ∧
    (x ∈ (h.handle cfg m).conns ↔ x ∈ h.conns) ∧ (h.handle cfg m).state x = h.state x := by
  cases m with
  | registerPending id => simp_all [handle, updateState, Message.id]
  | handleConnected id | handleDisconnected id retry trigger | handleFailed id =>
    simp only [handle]
    split_ifs <;> simp_all [updateState, Message.id]

/-- The request of an allowed message is in its place afterwards. -/
theorem placed_handle_self (hp : h.Placed m.id) (hm : Allowed cfg h m) : (h.handle cfg m).Placed m.id := by
  cases m with
  | registerPending id =>
    have hconn : id ∉ h.conns := hm
    simp [Placed, handle, updateState, Message.id, hconn]
  | handleConnected id =>
    simp only [handle]
    split_ifs <;> simp_all [Placed, updateState, Message.id]
  | handleDisconnected id retry trigger =>
    simp only [handle]
    cases retry <;> split_ifs <;> simp_all [Placed, updateState, Message.id, Allowed]
  | handleFailed id =>
    simp only [handle]
    split_ifs with hpend
    · rcases hp.2.mp hpend with hs | hs <;> simp_all [Placed, updateState, Message.id]
    · exact hp

theorem placed_handle (hp : ∀ id, h.Placed id) (hm : Allowed cfg h m) (x : UInt64) : (h.handle cfg m).Placed x := by
  by_cases hx : x = m.id
  · rw [hx]
    exact placed_handle_self (hp m.id) hm
  · obtain ⟨hpend, hconn, hstate⟩ := handle_other cfg h hx
    rw [Placed, hpend, hconn, hstate]
    exact hp x

/-- Any other message leaves its request in both tables, or established and in none. -/
theorem allowed_of_matches (hp : ∀ id, h.Placed id) (hm : (h.handle cfg m).Matches) : Allowed cfg h m := by
  cases m with
  | registerPending id =>
    intro hconn
    exact Finset.disjoint_left.mp hm.disjoint (Finset.mem_insert_self id h.pending) hconn
  | handleDisconnected id retry trigger =>
    cases retry with
    | false => trivial
    | true =>
      intro hconn
      by_contra hnot
      have hhandle : h.handle cfg (.handleDisconnected id true trigger) = { h with conns := h.conns.erase id } := by
        simp [handle, hconn, hnot]
      rw [hhandle] at hm
      exact Finset.notMem_erase id h.conns ((hm.established id _ ((hp id).1.mp hconn)).mp rfl)
  | _ => trivial

/-! ## Runs -/

/-- **The states match the tables along a run exactly if every message of it is allowed** where it is handled. -/
theorem alwaysMatches_iff (cfg : Config) (ms : List Message) : AlwaysMatches cfg {} ms ↔ AllAllowed cfg {} ms := by
  suffices hrun : ∀ h : Handler, (∀ id, h.Placed id) → (AlwaysMatches cfg h ms ↔ AllAllowed cfg h ms) from
    hrun {} (by simp [Placed])
  induction ms with
  | nil => exact fun _ _ => Iff.rfl
  | cons m ms ih =>
    intro h hp
    have hstep : (h.handle cfg m).Matches ↔ Allowed cfg h m :=
      ⟨allowed_of_matches hp, fun hm => matches_of_placed (placed_handle hp hm)⟩
    rw [AlwaysMatches, AllAllowed, hstep]
    exact and_congr_right fun hm => ih _ (placed_handle hp hm)

/-- Two requests are connected where one is the target, and one of them is disconnected: it stays established. -/
theorem disconnect_stays_established :
    let cfg : Config := ⟨1, true, fun _ => false⟩
    let h := [Message.registerPending 1, .registerPending 2, .handleConnected 1, .handleConnected 2,
      .handleDisconnected 1 true false].foldl (handle cfg) {}
    h.state 1 = some .established ∧ 1 ∉ h.conns ∧ ¬ h.Matches := by
  intro cfg h
  have hstate : h.state 1 = some .established := by decide
  have hconns : 1 ∉ h.conns := by decide
  exact ⟨hstate, hconns, fun hm => hconns ((hm.established 1 _ hstate).mp rfl)⟩

end Handler
end NogoCommons.Connmgr
