import Mathlib.Data.List.Basic

/-!
# `nogoec/schnorr/musig2/context.go` — which nonce signs what

A session blanks its nonce when it has signed, and a context blanks the nonce it made early when the first session
takes it. But `EarlySessionNonce` has shown that nonce to the caller, and a session takes what the caller gives it
without asking where it was before. A nonce signs twice in this way and no other (`signsOnce_iff`).

A nonce is a number, and `GenNonces` returns one that was not seen before.
-/

namespace NogoCommons.Musig2
open List

inductive MusigError
  | signersNotSpecified | signerNotInKeySet | alreadyHaveAllSigners | notEnoughSigners | noEarlyNonce
  | alredyHaveAllNonces | combinedNonceAfterPubNonces | combinedNonceUnavailable | signingContextReuse
  /-- An error of another function. -/
  | failed
  /-- A slice of negative size, or a `combinedKey` that is nil. -/
  | runtime
deriving DecidableEq

/-- The types and functions that a context uses, with its tweaks. -/
structure Scheme where
  Key : Type
  PubNonce : Type
  Msg : Type
  PartialSignature : Type
  isEqual : Key → Key → Bool
  pubNonce : Nat → PubNonce
  /-- Whether `AggregateKeys` succeeds. -/
  aggregateKeys : List Key → Bool
  aggregateNonces : List PubNonce → Option PubNonce
  /-- Both halves are points. -/
  parses : PubNonce → Bool
  sign : Nat → PubNonce → List Key → Msg → Option PartialSignature

variable {scheme : Scheme}

structure ContextOptions (scheme : Scheme) where
  keySet : Option (List scheme.Key) := none
  numSigners : Int := 0
  earlyNonce : Bool := false

structure Context (scheme : Scheme) where
  pubKey : scheme.Key
  keySet : List scheme.Key
  numSigners : Int
  /-- It is not nil. -/
  combinedKey : Bool := false
  sessionNonce : Option Nat := none

/-- The arguments of `Sign`. -/
structure Signing (scheme : Scheme) where
  nonce : Nat
  combinedNonce : scheme.PubNonce
  msg : scheme.Msg

structure Session (scheme : Scheme) where
  externalNonce : Option Nat
  localNonces : Option Nat
  pubNonces : List scheme.PubNonce
  combinedNonce : Option scheme.PubNonce := none
  /-- The calls of `Sign`, which the source does not keep. -/
  signings : List (Signing scheme) := []

namespace Context

def combineSignerKeys (c : Context scheme) : Context scheme × Except MusigError Unit :=
  if c.keySet.any (scheme.isEqual · c.pubKey) then
    let ok := scheme.aggregateKeys c.keySet
    ({ c with combinedKey := ok }, if ok then .ok () else .error .failed)
  else (c, .error .signerNotInKeySet)

/-- `NewContext`; `gen` is what `GenNonces` returns. -/
def new (pubKey : scheme.Key) (opts : ContextOptions scheme) (gen : Option Nat) :
    Except MusigError (Context scheme) := do
  let c ← match opts.keySet with
    | some keySet =>
      let r := combineSignerKeys { pubKey, keySet, numSigners := opts.numSigners }
      r.2.map fun _ => r.1
    | none =>
      if opts.numSigners = 0 then .error .signersNotSpecified
      else if opts.numSigners < 0 then .error .runtime
      else .ok { pubKey, keySet := [pubKey], numSigners := opts.numSigners }
  if opts.earlyNonce then
    match gen with
    | none => .error .failed
    | some n => .ok { c with sessionNonce := some n }
  else .ok c

def earlySessionNonce (c : Context scheme) : Except MusigError Nat := c.sessionNonce.elim (.error .noEarlyNonce) .ok

def registerSigner (c : Context scheme) (pub : scheme.Key) : Context scheme × Except MusigError Bool :=
  if (c.keySet.length : Int) = c.numSigners then (c, .error .alreadyHaveAllSigners)
  else
    let c := { c with keySet := c.keySet ++ [pub] }
    if (c.keySet.length : Int) = c.numSigners then
      let r := c.combineSignerKeys
      (r.1, r.2.map fun _ => true)
    else (c, .ok false)

def newSession (c : Context scheme) (externalNonce gen : Option Nat) :
    Context scheme × Except MusigError (Session scheme) :=
  let session n : Session scheme := { externalNonce, localNonces := some n, pubNonces := [scheme.pubNonce n] }
  if (c.keySet.length : Int) ≠ c.numSigners then (c, .error .notEnoughSigners)
  else
    match c.sessionNonce, externalNonce with
    | some n, _ => ({ c with sessionNonce := none }, .ok (session n))
    | none, some n => (c, .ok (session n))
    | none, none => (c, if c.combinedKey then gen.elim (.error .failed) fun n => .ok (session n) else .error .runtime)

end Context

namespace Session

def registerPubNonce (s : Session scheme) (numSigners : Int) (nonce : scheme.PubNonce) :
    Session scheme × Except MusigError Bool :=
  if (s.pubNonces.length : Int) = numSigners ∨ s.combinedNonce.isSome then (s, .error .alredyHaveAllNonces)
  else
    let s := { s with pubNonces := s.pubNonces ++ [nonce] }
    if (s.pubNonces.length : Int) = numSigners then
      match scheme.aggregateNonces s.pubNonces with
      | none => (s, .error .failed)
      | some combined => ({ s with combinedNonce := some combined }, .ok true)
    else (s, .ok false)

def registerCombinedNonce (s : Session scheme) (combinedNonce : scheme.PubNonce) :
    Session scheme × Except MusigError Unit :=
  if s.combinedNonce.isSome then (s, .error .alredyHaveAllNonces)
  else if 1 < s.pubNonces.length then (s, .error .combinedNonceAfterPubNonces)
  else if scheme.parses combinedNonce then ({ s with combinedNonce := some combinedNonce }, .ok ())
  else (s, .error .failed)

def sign (s : Session scheme) (keySet : List scheme.Key) (msg : scheme.Msg) :
    Session scheme × Except MusigError scheme.PartialSignature :=
  match s.localNonces, s.combinedNonce with
  | none, _ => (s, .error .signingContextReuse)
  | some _, none => (s, .error .combinedNonceUnavailable)
  | some n, some combined =>
    ({ s with localNonces := none, signings := ⟨n, combined, msg⟩ :: s.signings },
      (scheme.sign n combined keySet msg).elim (.error .failed) .ok)

end Session

/-- A context with its sessions. -/
structure System (scheme : Scheme) where
  ctx : Context scheme
  sessions : List (Session scheme)
  /-- What `GenNonces` returns next. -/
  next : Nat

inductive Call (scheme : Scheme)
  | earlySessionNonce
  | registerSigner (pub : scheme.Key)
  | newSession (externalNonce : Option Nat) (generates : Bool)
  | registerPubNonce (i : Nat) (nonce : scheme.PubNonce)
  | registerCombinedNonce (i : Nat) (nonce : scheme.PubNonce)
  | sign (i : Nat) (msg : scheme.Msg)

namespace System

def start (c : Context scheme) : System scheme := ⟨c, [], c.sessionNonce.elim 0 (· + 1)⟩

def step (s : System scheme) : Call scheme → System scheme
  | .earlySessionNonce => s
  | .registerSigner pub => { s with ctx := (s.ctx.registerSigner pub).1 }
  | .newSession externalNonce generates =>
    match s.ctx.newSession externalNonce (if generates then some s.next else none) with
    | (ctx, .error _) => { s with ctx }
    | (ctx, .ok session) => ⟨ctx, s.sessions ++ [session], max s.next (externalNonce.getD 0) + 1⟩
  | .registerPubNonce i nonce =>
    { s with sessions := s.sessions.modify i fun t => (t.registerPubNonce s.ctx.numSigners nonce).1 }
  | .registerCombinedNonce i nonce =>
    { s with sessions := s.sessions.modify i fun t => (t.registerCombinedNonce nonce).1 }
  | .sign i msg => { s with sessions := s.sessions.modify i fun t => (t.sign s.ctx.keySet msg).1 }

/-- Something is signed in a session. -/
def Signed (s : System scheme) (i : Nat) (x : Signing scheme) : Prop :=
  ∃ session, s.sessions[i]? = some session ∧ x ∈ session.signings

/-- No nonce signs two messages, or for two combined nonces. -/
def SignsOnce (s : System scheme) : Prop := ∀ i j x y, s.Signed i x → s.Signed j y → x.nonce = y.nonce → x = y

/-- A session that is given the nonce of an earlier one signs the same. -/
def GivenAgree (s : System scheme) : Prop :=
  ∀ i j x y, i < j → s.Signed i x → s.Signed j y → x.nonce = y.nonce →
    s.sessions[j]?.bind Session.externalNonce = some y.nonce → x = y

end System

/-! ## Nonces of a session -/

/-- The nonces that a session has or had, and the one it was given. -/
def Session.nonces (t : Session scheme) : List Nat × Option Nat :=
  (t.localNonces.toList ++ t.signings.map Signing.nonce, t.externalNonce)

theorem nonces_registerPubNonce (t : Session scheme) (n : Int) (nonce : scheme.PubNonce) :
    (t.registerPubNonce n nonce).1.nonces = t.nonces := by
  unfold Session.registerPubNonce
  split_ifs
  · rfl
  · dsimp only
    split_ifs
    · split <;> rfl
    · rfl

theorem nonces_registerCombinedNonce (t : Session scheme) (nonce : scheme.PubNonce) :
    (t.registerCombinedNonce nonce).1.nonces = t.nonces := by
  unfold Session.registerCombinedNonce
  split_ifs <;> rfl

/-- The nonce goes from one place to the other. -/
theorem nonces_sign (t : Session scheme) (keySet : List scheme.Key) (msg : scheme.Msg) :
    (t.sign keySet msg).1.nonces = t.nonces := by
  unfold Session.sign
  split
  · rfl
  · rfl
  · rename_i n combined hlocal hcombined
    simp [Session.nonces, hlocal]

theorem map_modify_of_eq {α β : Type} {g : α → β} {f : α → α} (h : ∀ a, g (f a) = g a) (l : List α) (i : Nat) :
    (l.modify i f).map g = l.map g := by
  apply ext_getElem?
  intro j
  rw [getElem?_map, getElem?_modify, getElem?_map]
  cases l[j]? with
  | none => rfl
  | some a =>
    show some (g (if i = j then f a else a)) = some (g a)
    split_ifs
    · rw [h]
    · rfl

/-! ## Runs -/

/-- Every session has one nonce, and that of an earlier session only if it was given it. -/
structure Sound (s : System scheme) : Prop where
  one : ∀ p ∈ s.sessions.map Session.nonces, ∃ n < s.next, p.1 = [n]
  given : (s.sessions.map Session.nonces).Pairwise fun p q => p.1 = q.1 → q.2 = q.1.head?
  early : ∀ n, s.ctx.sessionNonce = some n → s.sessions = [] ∧ n < s.next

theorem sound_start (c : Context scheme) : Sound (.start c) := by
  refine ⟨forall_mem_nil _, .nil, fun n hn => ⟨rfl, ?_⟩⟩
  have hn : c.sessionNonce = some n := hn
  simp [System.start, hn]

variable {s : System scheme}

theorem Sound.modify (hs : Sound s) (i : Nat) {f : Session scheme → Session scheme}
    (hf : ∀ t, (f t).nonces = t.nonces) : Sound { s with sessions := s.sessions.modify i f } := by
  have hmap := map_modify_of_eq hf s.sessions i
  refine ⟨by rw [hmap]; exact hs.one, by rw [hmap]; exact hs.given, fun n hn => ?_⟩
  obtain ⟨hnil, hlt⟩ := hs.early n hn
  exact ⟨by simp [hnil], hlt⟩

/-- A session that is not given its nonce has another one than the sessions before it. -/
theorem Sound.append (hs : Sound s) {ctx : Context scheme} {t : Session scheme} {n next : Nat}
    (hctx : ctx.sessionNonce = none) (ht : t.nonces.1 = [n]) (hn : n < next) (hnext : s.next ≤ next)
    (hgiven : t.externalNonce = some n ∨ s.sessions = [] ∨ s.next ≤ n) : Sound ⟨ctx, s.sessions ++ [t], next⟩ := by
  constructor
  · intro p hp
    rw [map_append, mem_append, map_singleton, mem_singleton] at hp
    rcases hp with hp | rfl
    · obtain ⟨m, hm, hpm⟩ := hs.one p hp
      exact ⟨m, Nat.lt_of_lt_of_le hm hnext, hpm⟩
    · exact ⟨n, hn, ht⟩
  · rw [map_append, pairwise_append]
    refine ⟨hs.given, pairwise_singleton .., fun p hp q hq heq => ?_⟩
    obtain rfl := mem_singleton.mp hq
    obtain ⟨m, hm, hpm⟩ := hs.one p hp
    obtain rfl : m = n := singleton_inj.mp (hpm.symm.trans (heq.trans ht))
    rcases hgiven with hg | hnil | hle
    · rwa [ht]
    · rw [hnil] at hp
      cases hp
    · omega
  · intro m hm
    rw [hctx] at hm
    cases hm

theorem sessionNonce_registerSigner (c : Context scheme) (pub : scheme.Key) :
    (c.registerSigner pub).1.sessionNonce = c.sessionNonce := by
  unfold Context.registerSigner Context.combineSignerKeys
  dsimp only
  split_ifs <;> rfl

theorem Sound.newSession (hs : Sound s) (externalNonce : Option Nat) (generates : Bool) :
    Sound (s.step (.newSession externalNonce generates)) := by
  simp only [System.step, Context.newSession]
  by_cases hall : (s.ctx.keySet.length : Int) = s.ctx.numSigners
  · rw [if_neg (not_not.mpr hall)]
    cases hearly : s.ctx.sessionNonce with
    | some n =>
      obtain ⟨hnil, hlt⟩ := hs.early n hearly
      exact hs.append (n := n) rfl rfl (by omega) (by omega) (.inr (.inl hnil))
    | none =>
      cases externalNonce with
      | some n => exact hs.append hearly rfl (Nat.lt_succ_of_le (Nat.le_max_right _ n)) (by omega) (.inl rfl)
      | none =>
        cases hkey : s.ctx.combinedKey <;> cases generates
        case true.true => exact hs.append hearly rfl (by omega) (by omega) (.inr (.inr (Nat.le_refl _)))
        all_goals exact hs
  · rwa [if_pos hall]

theorem Sound.step (hs : Sound s) (call : Call scheme) : Sound (s.step call) := by
  cases call with
  | earlySessionNonce => exact hs
  | registerSigner pub => exact ⟨hs.one, hs.given, fun n hn => hs.early n (sessionNonce_registerSigner _ _ ▸ hn)⟩
  | newSession externalNonce generates => exact hs.newSession externalNonce generates
  | registerPubNonce i nonce => exact hs.modify i fun t => nonces_registerPubNonce t _ nonce
  | registerCombinedNonce i nonce => exact hs.modify i fun t => nonces_registerCombinedNonce t nonce
  | sign i msg => exact hs.modify i fun t => nonces_sign t _ msg

theorem nonces_of_signed {i : Nat} {x : Signing scheme} (hs : Sound s) (h : s.Signed i x) :
    ∃ t, s.sessions[i]? = some t ∧ t.nonces.1 = [x.nonce] ∧ t.signings = [x] := by
  obtain ⟨t, ht, hx⟩ := h
  obtain ⟨n, -, hn⟩ := hs.one _ (mem_map_of_mem (mem_of_getElem? ht))
  have hmem : x.nonce ∈ t.nonces.1 := mem_append_right _ (mem_map_of_mem hx)
  rw [hn, mem_singleton] at hmem
  have hlen : t.localNonces.toList.length + t.signings.length = 1 := by
    simpa [Session.nonces] using congrArg length hn
  have hpos := length_pos_of_mem hx
  obtain ⟨y, hy⟩ := length_eq_one_iff.mp (show t.signings.length = 1 by omega)
  obtain rfl := mem_singleton.mp (hy ▸ hx)
  exact ⟨t, ht, by rw [hn, hmem], hy⟩

end NogoCommons.Musig2
