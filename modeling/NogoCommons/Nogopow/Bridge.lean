import NogoCommons.Nogopow.Engine

/-!
# `nogopow/bridge.go` — verifying btcd-style headers

The bridge converts a btcd-style header and verifies it by `VerifySealWithBlockHash`. It takes
the height from an `int64`, whose absolute value is at most `2 ^ 63`: the short-cut for the
genesis block is then taken at height zero and nowhere else, and the bridge has none of the
bypass that the engine's own entry points have (`verifyBTCDBlock_sound`).

Of the ten fields it converts, nine are carried over and back. `Version` is not: `FromBTCDHeader`
has nowhere to put it and `ToBTCDHeader` answers one. So the proof of work does not commit to it
(`sealPreimage_eq_iff`), and the conversions invert each other at version one only
(`bridge_faithful_iff`).
-/

namespace NogoCommons.Nogopow
open Lib

structure BTCDBlockHeader where
  version : Int32
  prevBlock : FixedBytes 32
  merkleRoot : FixedBytes 32
  timestamp : Int64
  bits : UInt32
  nonce : FixedBytes 32
  height : Int64
  coinbase : FixedBytes 20
  stateRoot : FixedBytes 32
  extraData : Bytes

def fromBTCDHeader : Option BTCDBlockHeader → Option Int → Option Header
  | none, _ => none
  | some btcd, difficulty => some {
      parentHash := .copy 32 btcd.prevBlock.bytes
      coinbase := .copy 20 btcd.coinbase.bytes
      root := .copy 32 btcd.stateRoot.bytes
      txHash := .copy 32 btcd.merkleRoot.bytes
      number := some btcd.height.toInt
      gasLimit := btcd.bits.toUInt64
      time := btcd.timestamp.toUInt64
      extra := btcd.extraData
      nonce := .copy 32 btcd.nonce.bytes
      difficulty := difficulty }

inductive BridgeError where
  | nilHeader
  | convert
  | sealed (err : SealError)
deriving DecidableEq

def BridgeError.text : BridgeError → String
  | .nilHeader => "VerifyBTCDBlock: nil header"
  | .convert => "VerifyBTCDBlock: failed to convert header"
  | .sealed err => err.text

def Engine.verifyBTCDBlock {P : Primitives} (e : Engine P) (btcd : Option BTCDBlockHeader)
    (difficulty : Option Int) : Go (Except BridgeError Unit × Engine P) :=
  if btcd.isNone then .ok (.error .nilHeader, e)
  else
    match fromBTCDHeader btcd difficulty with
    | none => .ok (.error .convert, e)
    | some hdr => do
      let (verdict, e) ← e.verifySealWithBlockHash hdr (sealHash P hdr)
      .ok (verdict.mapError .sealed, e)

/-- An `int64` has all its bits in the low 64. -/
theorem bigUint64_int64 (x : Int64) : bigUint64 x.toInt = 0 ↔ x.toInt = 0 := by
  rw [bigUint64_eq_zero]
  have hlo := x.le_toInt
  have hhi := x.toInt_lt
  omega

/-- **The bridge accepts no block above the genesis without the comparison.** -/
theorem verifyBTCDBlock_sound {P : Primitives} (e : Engine P) (btcd : BTCDBlockHeader)
    (difficulty : Option Int) (hmode : e.powMode = .normal) (hheight : btcd.height.toInt ≠ 0) :
    ∃ hdr r e', fromBTCDHeader (some btcd) difficulty = some hdr ∧
      e.verifyBTCDBlock (some btcd) difficulty = .ok (r, e') ∧
      (r = .ok () → e.Compared e' hdr) := by
  have hfake : e.powMode ≠ .fake := by simp [hmode]
  have h0 : bigUint64 btcd.height.toInt ≠ 0 := fun h => hheight ((bigUint64_int64 _).mp h)
  obtain ⟨hdr, hhdr⟩ : ∃ hdr, fromBTCDHeader (some btcd) difficulty = some hdr := ⟨_, rfl⟩
  have hn : hdr.number = some btcd.height.toInt := by
    cases hhdr
    rfl
  obtain ⟨e', heq, hchecks⟩ := e.checkSeal_eq (sealHash P hdr) hn h0
  have hverify := Engine.verifySealWithBlockHash_eq (sealHash P hdr) hfake hn
  rw [if_neg h0, heq] at hverify
  rw [← e.computePoW_fst] at hverify hchecks
  by_cases hmet : checkPow (e.computePoW (sealHash P hdr) hdr.parentHash).1 hdr.difficulty = true
  · refine ⟨hdr, .ok (), e', hhdr, ?_, fun _ => ⟨hchecks, hmet⟩⟩
    simp [Engine.verifyBTCDBlock, hhdr, hverify, hmet, bind, Except.bind, Except.mapError]
  · refine ⟨hdr, .error (.sealed .invalidSeal), e', hhdr, ?_, fun hok => absurd hok (by simp)⟩
    simp [Engine.verifyBTCDBlock, hhdr, hverify, hmet, bind, Except.bind, Except.mapError]

/-! ## There and back -/

inductive ToBTCDError where
  | nilHeader
  | nilNumber
deriving DecidableEq

def ToBTCDError.text : ToBTCDError → String
  | .nilHeader => "ToBTCDHeader: nil header"
  | .nilNumber => "ToBTCDHeader: nil block number"

/-- `x.Int64()`: the low 64 bits of the absolute value, with the sign put back. -/
def bigInt64 (x : Int) : Int64 :=
  let v := (bigUint64 x).toInt64
  if x < 0 then -v else v

def toBTCDHeader : Option Header → Except ToBTCDError BTCDBlockHeader
  | none => .error .nilHeader
  | some h =>
    match h.number with
    | none => .error .nilNumber
    | some number => .ok {
        version := 1
        prevBlock := .copy 32 h.parentHash.bytes
        merkleRoot := .copy 32 h.txHash.bytes
        timestamp := h.time.toInt64
        bits := (h.gasLimit &&& 0xFFFFFFFF).toUInt32
        nonce := .copy 32 h.nonce.bytes
        height := bigInt64 number
        coinbase := .copy 20 h.coinbase.bytes
        stateRoot := .copy 32 h.root.bytes
        extraData := h.extra }

def Header.hash (P : Primitives) (h : Header) : Hash :=
  bytesToHash (P.keccak256 (rlpEncode h)).bytes

def computeBTCDSealHash (P : Primitives) (btcd : Option BTCDBlockHeader) (difficulty : Option Int) : Hash :=
  match fromBTCDHeader btcd difficulty with
  | none => .zero 32
  | some hdr => hdr.hash P

/-- What `ComputeBTCDSealHash` hashes. -/
def sealPreimage (btcd : BTCDBlockHeader) (difficulty : Option Int) : Bytes :=
  ((fromBTCDHeader (some btcd) difficulty).map rlpEncode).getD []

theorem computeBTCDSealHash_eq (P : Primitives) (btcd : BTCDBlockHeader)
    (difficulty : Option Int) : computeBTCDSealHash P (some btcd) difficulty =
      bytesToHash (P.keccak256 (sealPreimage btcd difficulty)).bytes := rfl

theorem bigInt64_toInt (x : Int64) : bigInt64 x.toInt = x := by
  have hlo := x.le_toInt
  have hhi := x.toInt_lt
  have hlow : (bigUint64 x.toInt).toInt64 = Int64.ofInt x.toInt.natAbs := by
    rw [bigUint64, Int64.ofInt_eq_ofNat, UInt64.toInt64_ofNat']
  unfold bigInt64
  simp only [hlow]
  split_ifs with hneg
  · rw [← Int64.ofInt_neg, show -(x.toInt.natAbs : Int) = x.toInt by omega, Int64.ofInt_toInt]
  · rw [show (x.toInt.natAbs : Int) = x.toInt by omega, Int64.ofInt_toInt]

theorem toUInt32_mask (x : UInt32) : (x.toUInt64 &&& 0xFFFFFFFF).toUInt32 = x := by
  apply UInt32.toNat_inj.mp
  have hlt := x.toNat_lt
  have hmask : (0xFFFFFFFF : UInt64).toNat = 2 ^ 32 - 1 := rfl
  rw [UInt64.toNat_toUInt32, UInt64.toNat_and, hmask, Nat.and_two_pow_sub_one_eq_mod, UInt32.toNat_toUInt64]
  omega

/-- **Back from the nogopow header, everything is as it was but for the version.** -/
theorem toBTCDHeader_fromBTCDHeader (b : BTCDBlockHeader) (d : Option Int) :
    toBTCDHeader (fromBTCDHeader (some b) d) = .ok { b with version := 1 } := by
  simp only [fromBTCDHeader, toBTCDHeader, FixedBytes.copy_self, bigInt64_toInt, toUInt32_mask, Int64.toInt64_toUInt64]

variable {b₁ b₂ : BTCDBlockHeader} {d : Option Int}

/-- **The seal commits to every field but the version**, once the lengths are fixed that the
encoding leaves open. -/
theorem sealPreimage_eq_iff (hextra : b₁.extraData.length = b₂.extraData.length)
    (h₁ : 0 ≤ b₁.height.toInt) (h₂ : 0 ≤ b₂.height.toInt)
    (hheight : (bigBytes b₁.height.toInt).length = (bigBytes b₂.height.toInt).length) :
    sealPreimage b₁ d = sealPreimage b₂ d ↔ { b₁ with version := 1 } = { b₂ with version := 1 } := by
  constructor
  · intro heq
    obtain ⟨⟨hprev, hcoin, hroot, htx⟩, hnum, hgas, htime, hx, hnonce, -⟩ :=
      @rlpEncode_fields ((fromBTCDHeader (some b₁) d).getD .zero)
        ((fromBTCDHeader (some b₂) d).getD .zero) hheight hextra heq
    simp only [fromBTCDHeader, Option.getD_some, FixedBytes.copy_self] at *
    have hbits : b₁.bits = b₂.bits := by rw [← toUInt32_mask b₁.bits, hgas, toUInt32_mask]
    have htimestamp : b₁.timestamp = b₂.timestamp := by
      rw [← Int64.toInt64_toUInt64 b₁.timestamp, htime, Int64.toInt64_toUInt64]
    have hheights : b₁.height = b₂.height := by
      have := natBytes_injective hnum
      exact Int64.toInt_inj.mp (by omega)
    rw [hprev, hcoin, hroot, htx, hx, hnonce, hbits, htimestamp, hheights]
  · intro heq
    have hpre : ∀ b : BTCDBlockHeader, sealPreimage b d = sealPreimage { b with version := 1 } d :=
      fun _ => rfl
    rw [hpre b₁, heq, ← hpre]

/-- Equal preimages come from equal headers, and both headers survive the conversions. -/
structure BridgeFaithful (b₁ b₂ : BTCDBlockHeader) (d : Option Int) : Prop where
  binding : sealPreimage b₁ d = sealPreimage b₂ d → b₁ = b₂
  roundTrip₁ : toBTCDHeader (fromBTCDHeader (some b₁) d) = .ok b₁
  roundTrip₂ : toBTCDHeader (fromBTCDHeader (some b₂) d) = .ok b₂

/-- **The bridge loses nothing exactly for headers of version one.** -/
theorem bridge_faithful_iff (hextra : b₁.extraData.length = b₂.extraData.length)
    (h₁ : 0 ≤ b₁.height.toInt) (h₂ : 0 ≤ b₂.height.toInt)
    (hheight : (bigBytes b₁.height.toInt).length = (bigBytes b₂.height.toInt).length) :
    BridgeFaithful b₁ b₂ d ↔ b₁.version = 1 ∧ b₂.version = 1 := by
  have hback : ∀ b : BTCDBlockHeader,
      toBTCDHeader (fromBTCDHeader (some b) d) = .ok b ↔ b.version = 1 := by
    intro b
    rw [toBTCDHeader_fromBTCDHeader]
    constructor
    · intro heq
      have := congrArg BTCDBlockHeader.version (Except.ok.inj heq)
      exact this.symm
    · intro hv
      rw [← hv]
  constructor
  · rintro ⟨-, hr₁, hr₂⟩
    exact ⟨(hback b₁).mp hr₁, (hback b₂).mp hr₂⟩
  · rintro ⟨hv₁, hv₂⟩
    refine ⟨fun heq => ?_, (hback b₁).mpr hv₁, (hback b₂).mpr hv₂⟩
    have hsame := (sealPreimage_eq_iff hextra h₁ h₂ hheight).mp heq
    rw [← hv₁] at hsame
    conv at hsame => rhs; rw [hv₁, ← hv₂]
    exact hsame

/-- The header `&BTCDBlockHeader{}`. -/
def BTCDBlockHeader.zero : BTCDBlockHeader where
  version := 0
  prevBlock := .zero 32
  merkleRoot := .zero 32
  timestamp := 0
  bits := 0
  nonce := .zero 32
  height := 0
  coinbase := .zero 20
  stateRoot := .zero 32
  extraData := []

theorem bridge_faithful_zero :
    let b : BTCDBlockHeader := { BTCDBlockHeader.zero with version := 1 }
    let b' : BTCDBlockHeader := { BTCDBlockHeader.zero with version := 1, bits := 5 }
    BridgeFaithful b b' (some 1) ∧ sealPreimage b (some 1) ≠ sealPreimage b' (some 1) := by
  intro b b'
  have hheight : 0 ≤ b.height.toInt ∧ 0 ≤ b'.height.toInt := by decide
  have hextra : b.extraData.length = b'.extraData.length := rfl
  have hfaith : BridgeFaithful b b' (some 1) :=
    (bridge_faithful_iff hextra hheight.1 hheight.2 rfl).mpr ⟨rfl, rfl⟩
  refine ⟨hfaith, fun heq => ?_⟩
  exact absurd (congrArg BTCDBlockHeader.bits (hfaith.binding heq)) (by decide)

theorem verifyBTCDBlock_sound_one :
    let e : Engine Engine.hopeless := ⟨.normal, .new _, []⟩
    let b := { BTCDBlockHeader.zero with height := 1 }
    ∃ hdr r e', fromBTCDHeader (some b) none = some hdr ∧ e.verifyBTCDBlock (some b) none = .ok (r, e') ∧
      (r = .ok () → e.Compared e' hdr) := by
  intro e b
  exact verifyBTCDBlock_sound e b _ rfl (by decide)

/-- Versions two and three of one header: one preimage, and neither comes back. -/
theorem bridge_drops_version :
    let b₂ : BTCDBlockHeader := { BTCDBlockHeader.zero with version := 2 }
    let b₃ : BTCDBlockHeader := { BTCDBlockHeader.zero with version := 3 }
    sealPreimage b₂ (some 1) = sealPreimage b₃ (some 1) ∧ b₂ ≠ b₃ ∧
      toBTCDHeader (fromBTCDHeader (some b₂) (some 1)) =
        .ok { BTCDBlockHeader.zero with version := 1 } := by
  intro b₂ b₃
  refine ⟨rfl, fun heq => ?_, toBTCDHeader_fromBTCDHeader b₂ _⟩
  exact absurd (congrArg BTCDBlockHeader.version heq) (by decide)

end NogoCommons.Nogopow
