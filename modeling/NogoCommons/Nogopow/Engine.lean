import NogoCommons.Nogopow.Cache

/-!
# `nogopow/nogopow.go` — sealing and verifying

The engine's state here is its mode and its cache, with one thing beside them that the source
does not have: a record of the comparisons `checkPow` has made. It is what "accepted without
looking" is stated in.

Three entry points verify a seal. Each has the short-cut for the genesis block, and each tests
for it by `Number.Uint64() == 0`, the low 64 bits of an unbounded number. So the short-cut is
taken by every multiple of `2 ^ 64`, and for those numbers a header is accepted with no
comparison at all, whatever its difficulty; for all others the three agree and the comparison
decides (`sealSound_iff`). The miner asks the same question of the same seed, so that what it
sends is accepted (`mineBlock_accepted`).
-/

namespace NogoCommons.Nogopow
open Lib

inductive Mode where
  | normal
  | fake
  | test
deriving DecidableEq

/-- `ErrInvalidSeal`. -/
inductive SealError where
  | invalidSeal
deriving DecidableEq

def SealError.text : SealError → String
  | .invalidSeal => "invalid seal"

/-- What a verification returns: `.ok ()` is the nil error. -/
abbrev Verdict := Except SealError Unit

/-- `2 ^ 256 - 1`. -/
def maxTarget : Int := 2 ^ 256 - 1

def difficultyToTarget : Option Int → Int
  | none => maxTarget
  | some d => if d ≤ 0 then maxTarget else maxTarget / d

/-- `checkPow`, as a function of the hash and the difficulty. -/
def checkPow (hash : Hash) (difficulty : Option Int) : Bool :=
  bigSetBytes hash.bytes ≤ difficultyToTarget difficulty

variable {d : Int} {h' : Header}

theorem checkPow_of_pos (hash : Hash) (hd : 1 ≤ d) :
    checkPow hash (some d) = true ↔ bigSetBytes hash.bytes * d ≤ 2 ^ 256 - 1 := by
  rw [checkPow, difficultyToTarget, if_neg (by omega), decide_eq_true_iff, maxTarget]
  exact Int.le_ediv_iff_mul_le (by omega)

theorem checkPow_of_nonpos (hash : Hash) (hd : d ≤ 0) : checkPow hash (some d) = true := by
  have hlt := beNat_lt hash.bytes
  rw [FixedBytes.bytes_length] at hlt
  rw [checkPow, difficultyToTarget, if_pos hd, decide_eq_true_iff, maxTarget, bigSetBytes]
  omega

/-- **The work test is exact for a difficulty of one or more, and no test for any other.** -/
theorem checkPow_exact_iff (hash : Hash) :
    (∀ d : Int, (checkPow hash (some d) = true ↔ 1 ≤ d ∧ bigSetBytes hash.bytes * d ≤ 2 ^ 256 - 1) ↔ 1 ≤ d) ∧
    ∀ d₁ d₂ : Int, 1 ≤ d₁ → d₁ ≤ d₂ → checkPow hash (some d₂) = true → checkPow hash (some d₁) = true := by
  refine ⟨fun d => ?_, fun d₁ d₂ h₁ h₂ h => ?_⟩
  · rcases Int.lt_or_le 0 d with hd | hd
    · exact ⟨fun _ => hd, fun _ => (checkPow_of_pos hash hd).trans (and_iff_right hd).symm⟩
    · exact ⟨fun h => (h.mp (checkPow_of_nonpos hash hd)).1, fun h => absurd h (by omega)⟩
  · rw [checkPow_of_pos hash h₁]
    rw [checkPow_of_pos hash (h₁.trans h₂)] at h
    refine le_trans ?_ h
    exact Int.mul_le_mul_of_nonneg_left h₂ (by simp [bigSetBytes])

/-- The largest hash, and no difficulty at all. -/
theorem zeroDifficulty_accepted :
    checkPow ⟨List.replicate 32 0xff, rfl⟩ (some 0) = true ∧ checkPow ⟨List.replicate 32 0xff, rfl⟩ (some (-1)) = true := by
  decide

def sealHash (P : Primitives) (h : Header) : Hash := bytesToHash (P.keccak256 (rlpEncode h)).bytes

/-- `ComputePoWHash`: the proof-of-work hash without an engine. -/
def computePoWHash (P : Primitives) (blockHash seed : Hash) : Hash :=
  P.hashMatrix (P.mulMatrixPooled blockHash.bytes (P.calcSeedCache seed.bytes))

/-- `calcSeed`. (The chain it is given is not read.) -/
def calcSeed (h : Header) : Go Hash := do
  let number ← deref h.number
  if bigUint64 number = 0 then .ok (.zero 32) else .ok h.parentHash

/-- `NogopowEngine`: what its verification and sealing read, and the comparisons made so far. -/
structure Engine (P : Primitives) where
  powMode : Mode
  cache : Cache P
  checks : List (Hash × Option Int) := []

namespace Engine
variable {P : Primitives}

def computePoW (e : Engine P) (blockHash seed : Hash) : Hash × Engine P :=
  let found := e.cache.getData seed.bytes
  (P.hashMatrix (P.mulMatrixPooled blockHash.bytes found.1), { e with cache := found.2 })

/-- `checkPow`, recorded. -/
def check (e : Engine P) (hash : Hash) (difficulty : Option Int) : Bool × Engine P :=
  (checkPow hash difficulty, { e with checks := e.checks ++ [(hash, difficulty)] })

/-- The lines `verifySeal` and `VerifySealWithBlockHash` have in common. -/
def checkSeal (e : Engine P) (h : Header) (blockHash : Hash) : Go (Verdict × Engine P) := do
  let seed ← calcSeed h
  let pow := e.computePoW blockHash seed
  let checked := pow.2.check pow.1 h.difficulty
  .ok (if checked.1 then .ok () else .error .invalidSeal, checked.2)

def verifySeal (e : Engine P) (h : Header) : Go (Verdict × Engine P) :=
  e.checkSeal h (sealHash P h)

def verifyHeader (e : Engine P) (h : Header) (withSeal : Bool) : Go (Verdict × Engine P) := do
  if e.powMode = .fake then return (.ok (), e)
  let number ← deref h.number
  if bigUint64 number = 0 then return (.ok (), e)
  if withSeal then e.verifySeal h else return (.ok (), e)

def verifySealOnly (e : Engine P) (h : Header) : Go (Verdict × Engine P) := do
  if e.powMode = .fake then return (.ok (), e)
  let number ← deref h.number
  if bigUint64 number = 0 then return (.ok (), e)
  e.verifySeal h

def verifySealWithBlockHash (e : Engine P) (h : Header) (blockHash : Hash) : Go (Verdict × Engine P) := do
  if e.powMode = .fake then return (.ok (), e)
  let number ← deref h.number
  if bigUint64 number = 0 then return (.ok (), e)
  e.checkSeal h blockHash

/-! ## What one verification does -/

/-- The cached computation is the plain one. -/
theorem computePoW_fst (e : Engine P) (blockHash seed : Hash) :
    (e.computePoW blockHash seed).1 = computePoWHash P blockHash seed := by
  simp only [computePoW, computePoWHash, Cache.getData_fst, FixedBytes.copy_self]

theorem computePoW_checks (e : Engine P) (blockHash seed : Hash) :
    (e.computePoW blockHash seed).2.checks = e.checks := rfl

variable {e : Engine P} {h : Header} {n : Int}

/-- Away from the short-cut one comparison is made, and it is the verdict. -/
theorem checkSeal_eq (e : Engine P) (blockHash : Hash) (hn : h.number = some n) (h0 : bigUint64 n ≠ 0) :
    ∃ e', e.checkSeal h blockHash =
        .ok (if checkPow (computePoWHash P blockHash h.parentHash) h.difficulty then .ok ()
          else .error .invalidSeal, e') ∧
      e'.checks = e.checks ++ [(computePoWHash P blockHash h.parentHash, h.difficulty)] := by
  have hseed : calcSeed h = .ok h.parentHash := by simp [calcSeed, hn, h0, bind, Except.bind]
  refine ⟨((e.computePoW blockHash h.parentHash).2.check
    (e.computePoW blockHash h.parentHash).1 h.difficulty).2, ?_, ?_⟩
  · simp only [checkSeal, hseed, bind, Except.bind, check, computePoW_fst]
  · simp only [check, computePoW_checks, computePoW_fst]

/-- Every entry point is the short-cut, or the common check. -/
theorem verifyHeader_eq (hmode : e.powMode ≠ .fake) (hn : h.number = some n) : e.verifyHeader h true =
      if bigUint64 n = 0 then .ok (.ok (), e) else e.checkSeal h (sealHash P h) := by
  simp [verifyHeader, verifySeal, hmode, hn, bind, Except.bind, pure, Except.pure]

theorem verifySealOnly_eq (hmode : e.powMode ≠ .fake) (hn : h.number = some n) : e.verifySealOnly h =
      if bigUint64 n = 0 then .ok (.ok (), e) else e.checkSeal h (sealHash P h) := by
  simp [verifySealOnly, verifySeal, hmode, hn, bind, Except.bind, pure, Except.pure]

theorem verifySealWithBlockHash_eq (blockHash : Hash) (hmode : e.powMode ≠ .fake) (hn : h.number = some n) :
    e.verifySealWithBlockHash h blockHash =
      if bigUint64 n = 0 then .ok (.ok (), e) else e.checkSeal h blockHash := by
  simp [verifySealWithBlockHash, hmode, hn, bind, Except.bind, pure, Except.pure]

/-! ## Soundness of the three entry points -/

/-- From `e` to `e'` the header's proof of work was compared with its difficulty, and met it. -/
structure Compared (e e' : Engine P) (h : Header) : Prop where
  made : e'.checks = e.checks ++
    [((e.computePoW (sealHash P h) h.parentHash).1, h.difficulty)]
  met : checkPow (e.computePoW (sealHash P h) h.parentHash).1 h.difficulty = true

/-- The three entry points return one result, and return nil only after the comparison. -/
def SealSound (e : Engine P) (h : Header) : Prop :=
  ∃ r e₁ e₂ e₃, e.verifyHeader h true = .ok (r, e₁) ∧ e.verifySealOnly h = .ok (r, e₂) ∧
    e.verifySealWithBlockHash h (sealHash P h) = .ok (r, e₃) ∧
    (r = .ok () → Compared e e₁ h ∧ Compared e e₂ h ∧ Compared e e₃ h)

/-- **Verification is sound exactly away from the multiples of `2 ^ 64`.** Whatever the engine
has cached, whatever the hash functions. -/
theorem sealSound_iff (e : Engine P) (h : Header) {n : Nat} (hmode : e.powMode = .normal)
    (hn : h.number = some (n : Int)) : SealSound e h ↔ n % 2 ^ 64 ≠ 0 := by
  have hfake : e.powMode ≠ .fake := by simp [hmode]
  have hzero : bigUint64 (n : Int) = 0 ↔ n % 2 ^ 64 = 0 := by
    rw [bigUint64_eq_zero, Int.natAbs_natCast]
  unfold SealSound
  rw [verifyHeader_eq hfake hn, verifySealOnly_eq hfake hn, verifySealWithBlockHash_eq _ hfake hn]
  by_cases h0 : n % 2 ^ 64 = 0
  · -- The short-cut accepts and leaves the record of comparisons as it was.
    simp only [if_pos (hzero.mpr h0), h0, ne_eq, not_true_eq_false, iff_false]
    rintro ⟨r, e₁, e₂, e₃, ⟨⟩, -, -, hcmp⟩
    have hmade := (hcmp rfl).1.made
    simp at hmade
  · have hne : bigUint64 (n : Int) ≠ 0 := fun hz => h0 (hzero.mp hz)
    obtain ⟨e', heq, hchecks⟩ := checkSeal_eq e (sealHash P h) hn hne
    simp only [if_neg hne, h0, ne_eq, not_false_eq_true, iff_true]
    refine ⟨_, e', e', e', heq, heq, heq, fun hok => ?_⟩
    have hmet : checkPow (computePoWHash P (sealHash P h) h.parentHash) h.difficulty = true := by
      by_contra hc
      rw [if_neg hc] at hok
      cases hok
    rw [← computePoW_fst e] at hmet hchecks
    exact ⟨⟨hchecks, hmet⟩, ⟨hchecks, hmet⟩, ⟨hchecks, hmet⟩⟩

/-- An engine whose proof-of-work hash is the largest number there is. -/
def hopeless : Primitives where
  keccak256 := fun _ => .zero 32
  calcSeedCache := fun _ => []
  mulMatrixPooled := fun _ _ => []
  hashMatrix := fun _ => ⟨List.replicate 32 0xff, rfl⟩

theorem sealSound_block_one :
    let e : Engine hopeless := { powMode := .normal, cache := .new hopeless }
    let h : Header := { Header.zero with number := some 1, difficulty := some 2 }
    SealSound e h ∧ e.verifySealOnly h ≠ .ok (.ok (), e) := by
  intro e h
  have hsound := (sealSound_iff e h (n := 1) rfl rfl).mpr (by decide)
  refine ⟨hsound, fun hok => ?_⟩
  obtain ⟨r, _, e₂, _, -, honly, -, hcmp⟩ := hsound
  rw [hok] at honly
  cases honly
  exact absurd (hcmp rfl).2.1.made (by simp)

/-- Block `2 ^ 64`, with a hash that meets no difficulty above one, is accepted by all three
entry points, and no comparison is made. -/
theorem verifySeal_bypass :
    let e : Engine hopeless := { powMode := .normal, cache := .new hopeless }
    let h : Header := { Header.zero with number := some (2 ^ 64), difficulty := some 2 }
    e.verifyHeader h true = .ok (.ok (), e) ∧ e.verifySealOnly h = .ok (.ok (), e) ∧
      e.verifySealWithBlockHash h (sealHash hopeless h) = .ok (.ok (), e) ∧
      checkPow (e.computePoW (sealHash hopeless h) h.parentHash).1 h.difficulty = false ∧
      ¬ SealSound e h := by
  intro e h
  have hn : h.number = some ((2 ^ 64 : Nat) : Int) := rfl
  have hfake : e.powMode ≠ .fake := by decide
  have h0 : bigUint64 ((2 ^ 64 : Nat) : Int) = 0 := by decide
  refine ⟨?_, ?_, ?_, ?_, fun hs => ?_⟩
  · rw [verifyHeader_eq hfake hn, if_pos h0]
  · rw [verifySealOnly_eq hfake hn, if_pos h0]
  · rw [verifySealWithBlockHash_eq _ hfake hn, if_pos h0]
  · rw [computePoW_fst]
    decide
  · obtain ⟨r, e₁, _, _, hhead, -, -, hcmp⟩ := hs
    rw [verifyHeader_eq hfake hn, if_pos h0] at hhead
    cases hhead
    exact absurd (hcmp rfl).1.made (by simp)

/-! ## Mining -/

def checkSolution (e : Engine P) (h : Header) (seed : Hash) : Bool × Engine P :=
  let pow := e.computePoW (sealHash P h) seed
  pow.2.check pow.1 h.difficulty

/-- The header with its nonce set for an attempt: the counter's 8 bytes, least significant
first, and zeros. -/
def withNonce (h : Header) (nonce : UInt64) : Header :=
  { h with nonce := .copy 32 (putUint64 nonce).reverse }

/-- The loop of `mineBlock`, for at most `fuel` attempts: the header it sends. -/
def mineFrom (e : Engine P) (h : Header) (seed : Hash) : Nat → UInt64 → Option Header × Engine P
  | 0, _ => (none, e)
  | fuel + 1, nonce =>
    let attempt := e.checkSolution (withNonce h nonce) seed
    if attempt.1 then (some (withNonce h nonce), attempt.2)
    else attempt.2.mineFrom h seed fuel (nonce + 1)

def mineBlock (e : Engine P) (h : Header) (fuel : Nat) : Go (Option Header × Engine P) := do
  let seed ← calcSeed h
  .ok (e.mineFrom h seed fuel 0)

/-- What the loop sends differs from what it was given in the nonce only, and meets its
difficulty. -/
theorem mineFrom_some {seed : Hash} : ∀ {fuel} {nonce} {e : Engine P},
    (e.mineFrom h seed fuel nonce).1 = some h' →
      (∃ nonce', h' = withNonce h nonce') ∧
        checkPow (computePoWHash P (sealHash P h') seed) h'.difficulty = true
  | 0, _, _, hm => by simp [mineFrom] at hm
  | fuel + 1, nonce, e, hm => by
    rw [mineFrom] at hm
    split at hm
    · rename_i hok
      obtain rfl : withNonce h nonce = h' := by simpa using hm
      refine ⟨⟨nonce, rfl⟩, ?_⟩
      rwa [← computePoW_fst e]
    · exact mineFrom_some hm

/-- **What the miner sends, every verifier accepts**: an engine with any other history of
cached seeds, in any mode. -/
theorem mineBlock_accepted {fuel : Nat} {e' : Engine P} (verifier : Engine P)
    (hm : e.mineBlock h fuel = .ok (some h', e')) : ∃ v, verifier.verifySealOnly h' = .ok (.ok (), v) := by
  -- The seed comes from the number and the parent, which the attempts leave alone.
  match hn : h.number with
  | none => simp [mineBlock, calcSeed, hn, deref, bind, Except.bind] at hm
  | some n =>
    by_cases hfake : verifier.powMode = .fake
    · exact ⟨verifier, by simp [verifySealOnly, hfake, pure, Except.pure]⟩
    have hsome : ∃ seed, calcSeed h = .ok seed ∧ (e.mineFrom h seed fuel 0).1 = some h' := by
      unfold mineBlock at hm
      match hs : calcSeed h with
      | .error p => simp [hs, bind, Except.bind] at hm
      | .ok seed =>
        refine ⟨seed, rfl, ?_⟩
        simp only [hs, bind, Except.bind, Except.ok.injEq] at hm
        rw [hm]
    obtain ⟨seed, hseed, hmine⟩ := hsome
    obtain ⟨⟨nonce, rfl⟩, hpow⟩ := mineFrom_some hmine
    have hn' : (withNonce h nonce).number = some n := hn
    have hparent : (withNonce h nonce).parentHash = h.parentHash := rfl
    rw [verifySealOnly_eq hfake hn']
    by_cases h0 : bigUint64 n = 0
    · exact ⟨verifier, if_pos h0⟩
    · obtain rfl : h.parentHash = seed := by
        simpa [calcSeed, hn, h0, bind, Except.bind] using hseed
      obtain ⟨v, hv, -⟩ := checkSeal_eq verifier (sealHash P (withNonce h nonce)) hn' h0
      refine ⟨v, ?_⟩
      rw [if_neg h0, hv, hparent, if_pos hpow]

theorem mineBlock_accepted_one :
    let e : Engine hopeless := ⟨.normal, .new hopeless, []⟩
    let h : Header := { Header.zero with number := some 1, difficulty := some 1 }
    ∃ v, e.verifySealOnly (withNonce h 0) = .ok (.ok (), v) := by
  intro e h
  exact mineBlock_accepted e (show e.mineBlock h 1 = _ from rfl)

end Engine
end NogoCommons.Nogopow
