import NogoCommons.Bloom.MerkleBlock
import NogoCommons.Wire.Messages

/-!
# `nogoutil/bloom/filter.go`, `nogoutil/bloom/murmurhash3.go` — Bloom filters

A filter has the bits of the elements that were added to it, and a transaction matches when one of its elements may be
among them: its id, an outpoint that it spends, or data that one of its scripts pushes. The data of a script come from
`txscript.PushedData`, which in this repository is a stub that finds none. The functions here are for any such function,
so that what they do is told apart from what the stub takes away.

`noFalseNegatives` is about any function for the data of scripts: what was added before is matched, over every sequence of
calls. With the stub this is true of ids and outpoints, and of data only as long as none that was added is pushed.
-/

namespace NogoCommons.Bloom
open Lib List
open Wire

/-! ## `MurmurHash3` -/

def murmurC1 : UInt32 := 0xcc9e2d51
def murmurC2 : UInt32 := 0x1b873593
def murmurR1 : UInt32 := 15
def murmurR2 : UInt32 := 13
def murmurM : UInt32 := 5
def murmurN : UInt32 := 0xe6546b64

/-- The scrambling of four bytes. -/
def murmurScramble (k : UInt32) : UInt32 :=
  let k := k * murmurC1
  let k := (k <<< murmurR1) ||| (k >>> (32 - murmurR1))
  k * murmurC2

def murmurHash3 (seed : UInt32) (data : Bytes) : UInt32 :=
  let dataLen := UInt32.ofNat data.length
  let numBlocks := dataLen / 4
  let hash := (range numBlocks.toNat).foldl (fun hash i =>
    let hash := hash ^^^ murmurScramble (uint32LE ((data.drop (i * 4)).take 4))
    let hash := (hash <<< murmurR2) ||| (hash >>> (32 - murmurR2))
    hash * murmurM + murmurN) seed
  -- the rest, of up to three bytes
  let rest := data.drop (numBlocks * 4).toNat
  let hash :=
    match rest with
    | [a, b, c] => hash ^^^ murmurScramble ((c.toUInt32 <<< 16) ^^^ (b.toUInt32 <<< 8) ^^^ a.toUInt32)
    | [a, b] => hash ^^^ murmurScramble ((b.toUInt32 <<< 8) ^^^ a.toUInt32)
    | [a] => hash ^^^ murmurScramble a.toUInt32
    | _ => hash
  let hash := hash ^^^ dataLen
  let hash := hash ^^^ (hash >>> 16)
  let hash := hash * 0x85ebca6b
  let hash := hash ^^^ (hash >>> 13)
  let hash := hash * 0xc2b2ae35
  hash ^^^ (hash >>> 16)

example : murmurHash3 0xfba4c795 [] = 0x6a396f08 ∧ murmurHash3 0 [0, 0x11, 0x22, 0x33, 0x44, 0x55, 0x66] = 0xb074502c := by
  decide

/-! ## Filters -/

/-- `BloomUpdateType`. -/
def bloomUpdateNone : UInt8 := 0
def bloomUpdateAll : UInt8 := 1
def bloomUpdateP2PubkeyOnly : UInt8 := 2

/-- A filter, with its `msgFilterLoad`, which is nil when none is loaded. -/
abbrev Filter := Option MsgFilterLoad

/-- The bit offset of the data for one of the hash functions. -/
def filterHash (msg : MsgFilterLoad) (hashNum : UInt32) (data : Bytes) : UInt32 :=
  murmurHash3 (hashNum * 0xfba4c795 + msg.tweak) data % (UInt32.ofNat msg.filter.length <<< 3)

/-- The loop of `matches`, for so many hash functions from a number on. -/
def matchesFrom (msg : MsgFilterLoad) (data : Bytes) : Nat → UInt32 → Go Bool
  | 0, _ => pure (decide (0 < msg.hashFuncs))
  | k + 1, i => do
    let idx := filterHash msg i data
    let b ← elemAt msg.filter (idx >>> 3).toNat
    if b &&& (1 <<< UInt8.ofNat (idx &&& 7).toNat) = 0 then pure false else matchesFrom msg data k (i + 1)

/-- `matches`. -/
def matchesData : Filter → Bytes → Go Bool
  | none, _ => pure false
  | some msg, data => matchesFrom msg data msg.hashFuncs.toNat 0

def outPointBytes (outpoint : OutPoint) : Bytes := outpoint.hash.bytes ++ putUint32LE outpoint.index
def matchesOutPoint (bf : Filter) (outpoint : OutPoint) : Go Bool := matchesData bf (outPointBytes outpoint)

/-- The loop of `add`, for so many hash functions from a number on. -/
def addFrom (data : Bytes) : Nat → UInt32 → MsgFilterLoad → Go MsgFilterLoad
  | 0, _, msg => pure msg
  | k + 1, i, msg => do
    let idx := filterHash msg i data
    let filter ← orAt msg.filter (idx >>> 3).toNat (1 <<< UInt8.ofNat (7 &&& idx).toNat)
    addFrom data k (i + 1) { msg with filter := filter }

/-- `add`. -/
def addData : Filter → Bytes → Go Filter
  | none, _ => pure none
  | some msg, data => do return some (← addFrom data msg.hashFuncs.toNat 0 msg)

def addOutPoint (bf : Filter) (outpoint : OutPoint) : Go Filter := addData bf (outPointBytes outpoint)

/-! ## Transactions -/

inductive ScriptClass
  | nonStandard | pubKey | pubKeyHash | witnessV0PubKeyHash | scriptHash | witnessV0ScriptHash | multiSig | nullData
  | witnessV1Taproot
deriving DecidableEq, Repr

/-- The functions of `txscript` that are used. The first has an error, which is not looked at; where the second has one,
there are no data. -/
structure Scripts where
  getScriptClass : Bytes → ScriptClass
  pushedData : Bytes → Option (List Bytes)

/-- `txscript`, as it is. -/
def stubs : Scripts where
  getScriptClass _ := .nonStandard
  pushedData _ := some []

section
variable (scripts : Scripts) (txHash : MsgTx → ChainHash)

def maybeAddOutpoint (bf : Filter) (pkScript : Bytes) (outHash : ChainHash) (outIdx : UInt32) : Go Filter := do
  let msg ← deref bf
  if msg.flags = bloomUpdateAll then addOutPoint bf ⟨outHash, outIdx⟩
  else if msg.flags = bloomUpdateP2PubkeyOnly then
    let scriptClass := scripts.getScriptClass pkScript
    if scriptClass = .pubKey ∨ scriptClass = .multiSig then addOutPoint bf ⟨outHash, outIdx⟩ else pure bf
  else pure bf

/-- Whether one of the data matches. -/
def anyMatches (bf : Filter) : List Bytes → Go Bool
  | [] => pure false
  | data :: rest => do if ← matchesData bf data then pure true else anyMatches bf rest

/-- The loop over the outputs. -/
def matchOutputs (outHash : ChainHash) : List (TxOut × Nat) → Filter → Bool → Go (Bool × Filter)
  | [], bf, matched => pure (matched, bf)
  | (txOut, i) :: rest, bf, matched => do
    match scripts.pushedData txOut.pkScript with
    | none => matchOutputs outHash rest bf matched
    | some pushedData =>
      if ← anyMatches bf pushedData then
        let bf ← maybeAddOutpoint scripts bf txOut.pkScript outHash (UInt32.ofNat i)
        matchOutputs outHash rest bf true
      else matchOutputs outHash rest bf matched

/-- The loop over the inputs. -/
def matchInputs (bf : Filter) : List TxIn → Go Bool
  | [] => pure false
  | txin :: rest => do
    if ← matchesOutPoint bf txin.previousOutPoint then pure true
    else
      match scripts.pushedData txin.signatureScript with
      | none => matchInputs bf rest
      | some pushedData => if ← anyMatches bf pushedData then pure true else matchInputs bf rest

def matchTxAndUpdate (bf : Filter) (tx : MsgTx) : Go (Bool × Filter) := do
  let matched ← matchesData bf (txHash tx).bytes
  let (matched, bf) ← matchOutputs scripts (txHash tx) tx.txOut.zipIdx bf matched
  if matched then pure (true, bf)
  else pure (← matchInputs scripts bf tx.txIn, bf)

end

/-! ## Bits -/

/-- A filter of the size that `wire` allows, with a hash function. -/
structure Usable (msg : MsgFilterLoad) : Prop where
  pos : 1 ≤ msg.filter.length
  le : msg.filter.length ≤ maxFilterLoadFilterSize
  hashFuncs : 0 < msg.hashFuncs

/-- The other filter has the bits of the one, and its parameters. -/
structure Below (msg msg' : MsgFilterLoad) : Prop where
  length : msg'.filter.length = msg.filter.length
  hashFuncs : msg'.hashFuncs = msg.hashFuncs
  tweak : msg'.tweak = msg.tweak
  flags : msg'.flags = msg.flags
  bits : ∀ i, flagAt msg.filter i = true → flagAt msg'.filter i = true

theorem Below.refl (msg : MsgFilterLoad) : Below msg msg := ⟨rfl, rfl, rfl, rfl, fun _ => id⟩

variable {msg msg' start : MsgFilterLoad} {data : Bytes}

theorem Below.trans {msg'' : MsgFilterLoad} (h : Below msg msg') (h' : Below msg' msg'') : Below msg msg'' :=
  ⟨h'.length.trans h.length, h'.hashFuncs.trans h.hashFuncs, h'.tweak.trans h.tweak, h'.flags.trans h.flags,
    fun i hi => h'.bits i (h.bits i hi)⟩

theorem Below.usable (h : Below msg msg') (hs : Usable msg) : Usable msg' :=
  ⟨h.length ▸ hs.pos, h.length ▸ hs.le, h.hashFuncs ▸ hs.hashFuncs⟩

theorem Below.filterHash (h : Below msg msg') (i : UInt32) (data : Bytes) :
    filterHash msg' i data = filterHash msg i data := by
  rw [Bloom.filterHash, Bloom.filterHash, h.length, h.tweak]

theorem filterHash_lt (hs : Usable msg) (i : UInt32) (data : Bytes) :
    (filterHash msg i data).toNat < 8 * msg.filter.length := by
  have hpos := hs.pos
  have hle : msg.filter.length ≤ 36000 := hs.le
  have hbits : (UInt32.ofNat msg.filter.length <<< 3).toNat = 8 * msg.filter.length := by
    rw [UInt32.toNat_shiftLeft, UInt32.toNat_ofNat', Nat.shiftLeft_eq]
    have hpow : 2 ^ (UInt32.toNat 3 % 32) = 8 := rfl
    rw [hpow]
    omega
  rw [filterHash, UInt32.toNat_mod, hbits]
  exact Nat.mod_lt _ (by omega)

theorem toNat_shiftRight_three (i : UInt32) : (i >>> 3).toNat = i.toNat / 8 := by
  rw [UInt32.toNat_shiftRight, Nat.shiftRight_eq_div_pow]
  rfl

theorem toNat_and_seven (i : UInt32) : (i &&& 7).toNat = i.toNat % 8 := by
  rw [UInt32.toNat_and]
  exact Nat.and_two_pow_sub_one_eq_mod i.toNat 3

/-- The test of a bit. -/
theorem and_bit_eq_zero (b : UInt8) (i : Nat) : b &&& (1 <<< UInt8.ofNat (i % 8)) = 0 ↔ b.toNat.testBit (i % 8) = false := by
  have hall : ∀ (b : Fin 256) (i : Fin 8), UInt8.ofNat b.val &&& (1 <<< UInt8.ofNat i.val) = 0 ↔
      (UInt8.ofNat b.val).toNat.testBit i.val = false := by decide +kernel
  have hb := hall ⟨b.toNat, b.toNat_lt⟩ ⟨i % 8, Nat.mod_lt _ (by decide)⟩
  rwa [UInt8.ofNat_toNat] at hb

/-- All bits of the data are there, for so many hash functions from a number on. -/
def Covers (msg : MsgFilterLoad) (data : Bytes) (k : Nat) (i : UInt32) : Prop :=
  ∀ j < k, flagAt msg.filter (filterHash msg (i + UInt32.ofNat j) data).toNat = true

theorem covers_succ {k : Nat} {i : UInt32} :
    Covers msg data (k + 1) i ↔ flagAt msg.filter (filterHash msg i data).toNat = true ∧ Covers msg data k (i + 1) := by
  have hshift : ∀ j : Nat, i + UInt32.ofNat (j + 1) = i + 1 + UInt32.ofNat j := by
    intro j
    rw [UInt32.ofNat_add, UInt32.add_comm (UInt32.ofNat j), UInt32.add_assoc]
    rfl
  constructor
  · intro h
    refine ⟨?_, fun j hj => ?_⟩
    · have h0 := h 0 (by omega)
      rwa [show i + UInt32.ofNat 0 = i from UInt32.add_zero i] at h0
    · rw [← hshift]
      exact h (j + 1) (by omega)
  · rintro ⟨h0, h⟩ j hj
    cases j with
    | zero => rwa [show i + UInt32.ofNat 0 = i from UInt32.add_zero i]
    | succ j =>
      rw [hshift]
      exact h j (by omega)

theorem Below.covers (h : Below msg msg') {k : Nat} {i : UInt32} (hc : Covers msg data k i) : Covers msg' data k i := by
  intro j hj
  rw [h.filterHash]
  exact h.bits _ (hc j hj)

theorem matchesFrom_ok (hs : Usable msg) (data : Bytes) (k : Nat) (i : UInt32) :
    ∃ b, matchesFrom msg data k i = .ok b ∧ (Covers msg data k i → b = true) := by
  induction k generalizing i with
  | zero => exact ⟨_, rfl, fun _ => decide_eq_true hs.hashFuncs⟩
  | succ k ih =>
    have hlt := filterHash_lt hs i data
    have hbyte : (filterHash msg i data).toNat / 8 < msg.filter.length := by omega
    rw [matchesFrom, toNat_shiftRight_three, toNat_and_seven, elemAt_of_lt hbyte, ok_bind]
    split_ifs with hzero
    · rw [and_bit_eq_zero] at hzero
      refine ⟨false, rfl, fun hc => ?_⟩
      have hbit := (covers_succ.mp hc).1
      rw [flagAt, getD_eq_getElem?_getD, getElem?_eq_getElem hbyte, Option.getD_some, hzero] at hbit
      cases hbit
    · obtain ⟨b, hb, hcov⟩ := ih (i + 1)
      exact ⟨b, hb, fun hc => hcov (covers_succ.mp hc).2⟩

theorem addFrom_ok (hs : Usable msg) (data : Bytes) (k : Nat) (i : UInt32) :
    ∃ msg', addFrom data k i msg = .ok msg' ∧ Below msg msg' ∧ Covers msg' data k i := by
  induction k generalizing i msg with
  | zero => exact ⟨msg, rfl, .refl msg, fun j hj => absurd hj (Nat.not_lt_zero j)⟩
  | succ k ih =>
    have hlt := filterHash_lt hs i data
    obtain ⟨filter, hor, hlen⟩ := orAt_ok (show (filterHash msg i data).toNat / 8 < msg.filter.length by omega)
      (byteOf true <<< UInt8.ofNat ((filterHash msg i data).toNat % 8))
    have hbelow : Below msg { msg with filter := filter } := by
      refine ⟨hlen, rfl, rfl, rfl, fun j hj => ?_⟩
      rw [flagAt_orAt hor, hj, Bool.true_or]
    obtain ⟨msg', hmsg', hbelow', hcov⟩ := ih (hbelow.usable hs) (i + 1)
    refine ⟨msg', ?_, hbelow.trans hbelow', covers_succ.mpr ⟨?_, hcov⟩⟩
    · rw [addFrom, toNat_shiftRight_three, UInt32.and_comm, toNat_and_seven]
      exact (congrArg (· >>= fun filter => addFrom data k (i + 1) { msg with filter := filter }) hor).trans hmsg'
    · rw [(hbelow.trans hbelow').filterHash]
      refine hbelow'.bits _ ?_
      rw [flagAt_orAt hor, Bool.true_and, decide_eq_true rfl, Bool.or_true]

/-! ## What was added is matched -/

/-- The filter has all bits of the data. -/
def Has (msg : MsgFilterLoad) (data : Bytes) : Prop := Covers msg data msg.hashFuncs.toNat 0

theorem Below.has (h : Below msg msg') (hd : Has msg data) : Has msg' data := by
  rw [Has, h.hashFuncs]
  exact h.covers hd

theorem matchesData_ok (hs : Usable msg) (data : Bytes) :
    ∃ b, matchesData (some msg) data = .ok b ∧ (Has msg data → b = true) :=
  matchesFrom_ok hs data _ 0

theorem addData_ok (hs : Usable msg) (data : Bytes) :
    ∃ msg', addData (some msg) data = .ok (some msg') ∧ Below msg msg' ∧ Has msg' data := by
  obtain ⟨msg', hmsg', hbelow, hcov⟩ := addFrom_ok hs data msg.hashFuncs.toNat 0
  refine ⟨msg', ?_, hbelow, ?_⟩
  · rw [addData, hmsg']
    rfl
  · rwa [Has, hbelow.hashFuncs]

theorem anyMatches_ok (hs : Usable msg) (datas : List Bytes) :
    ∃ b, anyMatches (some msg) datas = .ok b ∧ ((∃ data ∈ datas, Has msg data) → b = true) := by
  induction datas with
  | nil => exact ⟨false, rfl, fun ⟨_, h, _⟩ => absurd h (not_mem_nil)⟩
  | cons data datas ih =>
    obtain ⟨b, hb, hhas⟩ := matchesData_ok hs data
    rw [anyMatches, hb, ok_bind]
    cases b with
    | true => exact ⟨true, rfl, fun _ => rfl⟩
    | false =>
      obtain ⟨b', hb', hhas'⟩ := ih
      refine ⟨b', hb', ?_⟩
      rintro ⟨data', hmem, hdata'⟩
      rcases mem_cons.mp hmem with rfl | hmem
      · cases hhas hdata'
      · exact hhas' ⟨data', hmem, hdata'⟩

section
variable (scripts : Scripts) (txHash : MsgTx → ChainHash)

def Scripts.pushes (script : Bytes) : List Bytes := (scripts.pushedData script).getD []

theorem maybeAddOutpoint_ok (hs : Usable msg) (pkScript : Bytes) (outHash : ChainHash) (outIdx : UInt32) :
    ∃ msg', maybeAddOutpoint scripts (some msg) pkScript outHash outIdx = .ok (some msg') ∧ Below msg msg' ∧
      (msg.flags = bloomUpdateAll → Has msg' (outPointBytes ⟨outHash, outIdx⟩)) := by
  obtain ⟨msg', hmsg', hbelow, hhas⟩ := addData_ok hs (outPointBytes ⟨outHash, outIdx⟩)
  rw [maybeAddOutpoint, deref_some, ok_bind]
  split_ifs with hall hp2pk
  · exact ⟨msg', hmsg', hbelow, fun _ => hhas⟩
  · dsimp only
    split_ifs
    · exact ⟨msg', hmsg', hbelow, fun _ => hhas⟩
    · exact ⟨msg, rfl, .refl msg, fun h => absurd h hall⟩
  · exact ⟨msg, rfl, .refl msg, fun h => absurd h hall⟩

theorem matchOutputs_ok (hs : Usable msg) (outHash : ChainHash) (outs : List (TxOut × Nat)) (matched : Bool) :
    ∃ b msg', matchOutputs scripts outHash outs (some msg) matched = .ok (b, some msg') ∧ Below msg msg' ∧
      (matched = true → b = true) ∧
      ∀ out ∈ outs, (∃ data ∈ scripts.pushes out.1.pkScript, Has msg data) →
        b = true ∧ (msg.flags = bloomUpdateAll → Has msg' (outPointBytes ⟨outHash, UInt32.ofNat out.2⟩)) := by
  induction outs generalizing msg matched with
  | nil => exact ⟨matched, msg, rfl, .refl msg, id, forall_mem_nil _⟩
  | cons out outs ih =>
    obtain ⟨txOut, i⟩ := out
    rw [matchOutputs]
    cases hpushed : scripts.pushedData txOut.pkScript with
    | none =>
      obtain ⟨b, msg', hrun, hbelow, hmono, hrest⟩ := ih hs matched
      refine ⟨b, msg', hrun, hbelow, hmono, forall_mem_cons.mpr ⟨?_, hrest⟩⟩
      rintro ⟨data, hmem, -⟩
      rw [Scripts.pushes, hpushed] at hmem
      exact absurd hmem not_mem_nil
    | some pushedData =>
      obtain ⟨found, hfound, hhas⟩ := anyMatches_ok hs pushedData
      dsimp only
      rw [hfound, ok_bind]
      cases found with
      | false =>
        obtain ⟨b, msg', hrun, hbelow, hmono, hrest⟩ := ih hs matched
        refine ⟨b, msg', hrun, hbelow, hmono, forall_mem_cons.mpr ⟨?_, hrest⟩⟩
        intro hdata
        rw [Scripts.pushes, hpushed] at hdata
        cases hhas hdata
      | true =>
        obtain ⟨msg₁, hadd, hbelow₁, hpaid⟩ := maybeAddOutpoint_ok scripts hs txOut.pkScript outHash
          (UInt32.ofNat i)
        obtain ⟨b, msg', hrun, hbelow, hmono, hrest⟩ := ih (hbelow₁.usable hs) true
        refine ⟨b, msg', ?_, hbelow₁.trans hbelow, fun _ => hmono rfl, forall_mem_cons.mpr ⟨?_, ?_⟩⟩
        · rw [if_pos rfl, hadd, ok_bind, hrun]
        · exact fun _ => ⟨hmono rfl, fun hall => hbelow.has (hpaid hall)⟩
        · rintro out hmem ⟨data, hdata, hd⟩
          obtain ⟨hb, hout⟩ := hrest out hmem ⟨data, hdata, hbelow₁.has hd⟩
          exact ⟨hb, fun hall => hout (hbelow₁.flags.trans hall)⟩

theorem matchInputs_ok (hs : Usable msg) (ins : List TxIn) : ∃ b, matchInputs scripts (some msg) ins = .ok b ∧
      ∀ txin ∈ ins, (Has msg (outPointBytes txin.previousOutPoint) ∨
        ∃ data ∈ scripts.pushes txin.signatureScript, Has msg data) → b = true := by
  induction ins with
  | nil => exact ⟨false, rfl, forall_mem_nil _⟩
  | cons txin ins ih =>
    obtain ⟨b, hb, hspent⟩ := matchesData_ok hs (outPointBytes txin.previousOutPoint)
    obtain ⟨brest, hrest, hins⟩ := ih
    rw [matchInputs, matchesOutPoint, hb, ok_bind]
    cases b with
    | true => exact ⟨true, rfl, fun _ _ _ => rfl⟩
    | false =>
      rw [if_neg Bool.false_ne_true]
      cases hpushed : scripts.pushedData txin.signatureScript with
      | none =>
        refine ⟨brest, hrest, forall_mem_cons.mpr ⟨?_, hins⟩⟩
        rintro (h | ⟨data, hmem, -⟩)
        · cases hspent h
        · rw [Scripts.pushes, hpushed] at hmem
          exact absurd hmem not_mem_nil
      | some pushedData =>
        obtain ⟨found, hfound, hhas⟩ := anyMatches_ok hs pushedData
        dsimp only
        rw [hfound, ok_bind]
        cases found with
        | true => exact ⟨true, rfl, fun _ _ _ => rfl⟩
        | false =>
          refine ⟨brest, hrest, forall_mem_cons.mpr ⟨?_, hins⟩⟩
          rintro (h | hdata)
          · cases hspent h
          · rw [Scripts.pushes, hpushed] at hdata
            cases hhas hdata

/-- **One call**: what has its bits in the filter is matched, and the outputs are watched that have to be. -/
theorem matchTxAndUpdate_ok (hs : Usable msg) (tx : MsgTx) :
    ∃ b msg', matchTxAndUpdate scripts txHash (some msg) tx = .ok (b, some msg') ∧ Below msg msg' ∧
      (Has msg (txHash tx).bytes → b = true) ∧
      (∀ out ∈ tx.txOut.zipIdx, (∃ data ∈ scripts.pushes out.1.pkScript, Has msg data) →
        b = true ∧ (msg.flags = bloomUpdateAll → Has msg' (outPointBytes ⟨txHash tx, UInt32.ofNat out.2⟩))) ∧
      ∀ txin ∈ tx.txIn, (Has msg (outPointBytes txin.previousOutPoint) ∨
        ∃ data ∈ scripts.pushes txin.signatureScript, Has msg data) → b = true := by
  obtain ⟨b₀, hb₀, hid⟩ := matchesData_ok hs (txHash tx).bytes
  obtain ⟨b₁, msg', hrun, hbelow, hmono, houts⟩ := matchOutputs_ok scripts hs (txHash tx) tx.txOut.zipIdx b₀
  obtain ⟨b₂, hins, hall⟩ := matchInputs_ok scripts (hbelow.usable hs) tx.txIn
  rw [matchTxAndUpdate, hb₀, ok_bind, hrun, ok_bind]
  cases b₁ with
  | true => exact ⟨true, msg', rfl, hbelow, fun _ => rfl, houts, fun _ _ _ => rfl⟩
  | false =>
    refine ⟨b₂, msg', ?_, hbelow, fun h => ?_, fun out hmem hdata => ?_, fun txin hmem h => hall txin hmem ?_⟩
    · dsimp only
      rw [if_neg Bool.false_ne_true, hins]
      rfl
    · cases hmono (hid h)
    · cases (houts out hmem hdata).1
    · rcases h with h | ⟨data, hdata, hd⟩
      · exact .inl (hbelow.has h)
      · exact .inr ⟨data, hdata, hbelow.has hd⟩

end

/-! ## Sequences of calls -/

inductive Call
  | add (data : Bytes)
  | addHash (hash : ChainHash)
  | addOutPoint (outpoint : OutPoint)
  | matchTx (tx : MsgTx)

/-- What a caller knows: the elements that were added, and the outputs of transactions given to `MatchTxAndUpdate` whose
script pushes one that had been added before. -/
structure History where
  added : List Bytes
  paid : List OutPoint

section
variable (scripts : Scripts) (pushes : Bytes → List Bytes) (txHash : MsgTx → ChainHash)

def Call.run (bf : Filter) : Call → Go Filter
  | .add data => addData bf data
  | .addHash hash => addData bf hash.bytes
  | .addOutPoint outpoint => Bloom.addOutPoint bf outpoint
  | .matchTx tx => do return (← matchTxAndUpdate scripts txHash bf tx).2

def runCalls (bf : Filter) (calls : List Call) : Go Filter := calls.foldlM (Call.run scripts txHash) bf

/-- The outputs whose script pushes what was added. -/
def paidOutputs (added : List Bytes) (tx : MsgTx) : List OutPoint :=
  (tx.txOut.zipIdx.filter fun out => (pushes out.1.pkScript).any (added.contains ·)).map fun out =>
    ⟨txHash tx, UInt32.ofNat out.2⟩

def History.note (h : History) : Call → History
  | .add data => { h with added := data :: h.added }
  | .addHash hash => { h with added := hash.bytes :: h.added }
  | .addOutPoint outpoint => { h with added := outPointBytes outpoint :: h.added }
  | .matchTx tx => { h with paid := h.paid ++ paidOutputs pushes txHash h.added tx }

def historyOf (calls : List Call) : History := calls.foldl (History.note pushes txHash) ⟨[], []⟩

/-- The scripts of the outputs and inputs. -/
def scriptsOf (tx : MsgTx) : List Bytes := tx.txOut.map TxOutOf.pkScript ++ tx.txIn.map TxInOf.signatureScript

/-- The transaction has to be matched: its id was added, or an outpoint that it spends, or data that one of its scripts
pushes, or it spends an output that is paid to such data and the filter says that these are watched. -/
def Due (flags : UInt8) (h : History) (tx : MsgTx) : Prop :=
  (txHash tx).bytes ∈ h.added ∨ (∃ txin ∈ tx.txIn, outPointBytes txin.previousOutPoint ∈ h.added) ∨
    (∃ script ∈ scriptsOf tx, ∃ data ∈ pushes script, data ∈ h.added) ∨
    (flags = bloomUpdateAll ∧ ∃ txin ∈ tx.txIn, txin.previousOutPoint ∈ h.paid)

/-- The filter has what the caller relies on. -/
structure Keeps (start msg : MsgFilterLoad) (h : History) : Prop where
  below : Below start msg
  added : ∀ data ∈ h.added, Has msg data
  paid : start.flags = bloomUpdateAll → ∀ outpoint ∈ h.paid, Has msg (outPointBytes outpoint)

theorem Keeps.add {h : History} (hk : Keeps start msg h) (hs : Usable start) (data : Bytes) :
    ∃ msg', addData (some msg) data = .ok (some msg') ∧ Keeps start msg' { h with added := data :: h.added } := by
  obtain ⟨msg', hadd, hbelow, hhas⟩ := addData_ok (hk.below.usable hs) data
  exact ⟨msg', hadd, hk.below.trans hbelow, forall_mem_cons.mpr ⟨hhas, fun d hd => hbelow.has (hk.added d hd)⟩,
    fun hall outpoint hmem => hbelow.has (hk.paid hall outpoint hmem)⟩

theorem Keeps.note {h : History} (hk : Keeps start msg h) (hs : Usable start) (call : Call) :
    ∃ msg', call.run scripts txHash (some msg) = .ok (some msg') ∧
      Keeps start msg' (h.note scripts.pushes txHash call) := by
  cases call with
  | add data => exact hk.add hs data
  | addHash hash => exact hk.add hs hash.bytes
  | addOutPoint outpoint => exact hk.add hs (outPointBytes outpoint)
  | matchTx tx =>
    obtain ⟨b, msg', hrun, hbelow, -, houts, -⟩ := matchTxAndUpdate_ok scripts txHash
      (hk.below.usable hs) tx
    refine ⟨msg', ?_, hk.below.trans hbelow, fun d hd => hbelow.has (hk.added d hd), fun hall => ?_⟩
    · rw [Call.run, hrun]
      rfl
    · refine forall_mem_append.mpr ⟨fun outpoint hmem => hbelow.has (hk.paid hall outpoint hmem), ?_⟩
      intro outpoint hmem
      obtain ⟨out, hout, rfl⟩ := mem_map.mp hmem
      obtain ⟨hout, hany⟩ := mem_filter.mp hout
      obtain ⟨data, hdata, hadded⟩ := any_eq_true.mp hany
      exact (houts out hout ⟨data, hdata, hk.added data (contains_iff_mem.mp hadded)⟩).2 (hk.below.flags.trans hall)

theorem runCalls_keeps {h : History} (hk : Keeps start msg h) (hs : Usable start) (calls : List Call) :
    ∃ msg', runCalls scripts txHash (some msg) calls = .ok (some msg') ∧
      Keeps start msg' (calls.foldl (History.note scripts.pushes txHash) h) := by
  induction calls generalizing msg h with
  | nil => exact ⟨msg, rfl, hk⟩
  | cons call calls ih =>
    obtain ⟨msg₁, hcall, hk₁⟩ := hk.note scripts txHash hs call
    obtain ⟨msg', hrun, hk'⟩ := ih hk₁
    refine ⟨msg', ?_, hk'⟩
    rwa [runCalls, foldlM_cons, hcall]

/-- **No false negatives**, for any function that finds the data of scripts. -/
theorem noFalseNegatives (hs : Usable msg) (calls : List Call) (tx : MsgTx) :
    ∃ bf, runCalls scripts txHash (some msg) calls = .ok bf ∧ ∃ matched bf',
      matchTxAndUpdate scripts txHash bf tx = .ok (matched, bf') ∧
      (Due scripts.pushes txHash msg.flags (historyOf scripts.pushes txHash calls) tx → matched = true) := by
  have hstart : Keeps msg msg ⟨[], []⟩ := ⟨.refl msg, forall_mem_nil _, fun _ => forall_mem_nil _⟩
  obtain ⟨msg₁, hrun, hk⟩ := runCalls_keeps scripts txHash hstart hs calls
  obtain ⟨b, msg', hmatch, -, hid, houts, hins⟩ := matchTxAndUpdate_ok scripts txHash
    (hk.below.usable hs) tx
  refine ⟨some msg₁, hrun, b, some msg', hmatch, ?_⟩
  rintro (h | ⟨txin, hmem, h⟩ | ⟨script, hscript, data, hdata, h⟩ | ⟨hall, txin, hmem, h⟩)
  · exact hid (hk.added _ h)
  · exact hins txin hmem (.inl (hk.added _ h))
  · rcases mem_append.mp hscript with hscript | hscript
    · obtain ⟨txOut, hmem, rfl⟩ := mem_map.mp hscript
      obtain ⟨i, hi⟩ := mem_iff_getElem?.mp hmem
      exact (houts (txOut, i) (mem_zipIdx_iff_getElem?.mpr hi) ⟨data, hdata, hk.added _ h⟩).1
    · obtain ⟨txin, hmem, rfl⟩ := mem_map.mp hscript
      exact hins txin hmem (.inr ⟨data, hdata, hk.added _ h⟩)
  · exact hins txin hmem (.inl (hk.paid hall _ h))

end

/-! ## The data that scripts push -/

/-- The data that the push opcodes of a script push; there are none in a script with a push that is cut off. -/
def parsePushes : Nat → Bytes → Option (List Bytes)
  | _, [] => some []
  | 0, _ :: _ => none
  | fuel + 1, op :: rest =>
    -- the length of the data, in so many bytes, unless the opcode pushes none
    let width := if op = 0x4c then 1 else if op = 0x4d then 2 else if op = 0x4e then 4 else 0
    let len := if op ≤ 0x4b then op.toNat else beNat (rest.take width).reverse
    if 0x4e < op then parsePushes fuel rest
    else if rest.length < width + len then none
    else (parsePushes fuel (rest.drop (width + len))).map fun pushed => (rest.drop width).take len :: pushed

def scriptPushes (script : Bytes) : List Bytes := (parsePushes script.length script).getD []

example : scriptPushes [0x76, 0xa9, 2, 7, 8, 0x88, 0x4c, 1, 9] = [[7, 8], [9]] := by decide

section
variable (txHash : MsgTx → ChainHash)

/-- No script of the transaction pushes what was added. -/
def Unpushed (added : List Bytes) (tx : MsgTx) : Prop :=
  ∀ script ∈ scriptsOf tx, ∀ data ∈ scriptPushes script, data ∉ added

/-- Each `MatchTxAndUpdate` is for a transaction whose scripts push nothing that was added before. -/
def AllUnpushed : History → List Call → Prop
  | _, [] => True
  | h, .matchTx tx :: calls => Unpushed h.added tx ∧ AllUnpushed (h.note scriptPushes txHash (.matchTx tx)) calls
  | h, call :: calls => AllUnpushed (h.note scriptPushes txHash call) calls

theorem paidOutputs_eq_nil {pushes : Bytes → List Bytes} {added : List Bytes} {tx : MsgTx}
    (h : ∀ script ∈ scriptsOf tx, ∀ data ∈ pushes script, data ∉ added) : paidOutputs pushes txHash added tx = [] := by
  rw [paidOutputs, map_eq_nil_iff, filter_eq_nil_iff]
  intro out hout hany
  obtain ⟨data, hdata, hadded⟩ := any_eq_true.mp hany
  have hscript : out.1.pkScript ∈ scriptsOf tx :=
    mem_append_left _ (mem_map.mpr ⟨out.1, fst_mem_of_mem_zipIdx hout, rfl⟩)
  exact h _ hscript data hdata (contains_iff_mem.mp hadded)

/-- Then the caller's history is the one that the stub leaves. -/
theorem foldl_note_stubs (h : History) (calls : List Call) (hcalls : AllUnpushed txHash h calls) :
    calls.foldl (History.note scriptPushes txHash) h = calls.foldl (History.note stubs.pushes txHash) h := by
  induction calls generalizing h with
  | nil => rfl
  | cons call calls ih =>
    rw [foldl_cons, foldl_cons]
    cases call with
    | add _ | addHash _ | addOutPoint _ => exact ih _ hcalls
    | matchTx tx =>
      have hstub : ∀ script ∈ scriptsOf tx, ∀ data ∈ stubs.pushes script, data ∉ h.added :=
        fun _ _ _ hdata => absurd hdata not_mem_nil
      have hnote : h.note scriptPushes txHash (.matchTx tx) = h.note stubs.pushes txHash (.matchTx tx) := by
        rw [History.note, History.note, paidOutputs_eq_nil txHash hcalls.1, paidOutputs_eq_nil txHash hstub]
      rw [ih _ hcalls.2, hnote]

theorem AllUnpushed.append {h : History} {calls : List Call} {tx : MsgTx}
    (hcalls : AllUnpushed txHash h (calls ++ [.matchTx tx])) :
    AllUnpushed txHash h calls ∧ Unpushed (calls.foldl (History.note scriptPushes txHash) h).added tx := by
  induction calls generalizing h with
  | nil => exact ⟨trivial, hcalls.1⟩
  | cons call calls ih =>
    cases call with
    | add _ | addHash _ | addOutPoint _ => exact ih hcalls
    | matchTx tx' => exact ⟨⟨hcalls.1, (ih hcalls.2).1⟩, (ih hcalls.2).2⟩

/-- **With the stub there are no false negatives as long as no data that were added are pushed.** -/
theorem matched_of_unpushed {msg : MsgFilterLoad} (hs : Usable msg) (calls : List Call) (tx : MsgTx)
    (hcalls : AllUnpushed txHash ⟨[], []⟩ (calls ++ [.matchTx tx])) :
    ∃ bf, runCalls stubs txHash (some msg) calls = .ok bf ∧ ∃ matched bf',
      matchTxAndUpdate stubs txHash bf tx = .ok (matched, bf') ∧
      (Due scriptPushes txHash msg.flags (historyOf scriptPushes txHash calls) tx → matched = true) := by
  obtain ⟨bf, hrun, matched, bf', hmatch, hdue⟩ := noFalseNegatives stubs txHash hs calls tx
  refine ⟨bf, hrun, matched, bf', hmatch, fun h => hdue ?_⟩
  obtain ⟨hbefore, hlast⟩ := hcalls.append
  rw [historyOf, foldl_note_stubs txHash _ _ hbefore] at h
  rw [foldl_note_stubs txHash _ _ hbefore] at hlast
  rcases h with h | h | ⟨script, hscript, data, hdata, hadded⟩ | h
  · exact .inl h
  · exact .inr (.inl h)
  · exact absurd hadded (hlast script hscript data hdata)
  · exact .inr (.inr (.inr h))

end

/-- An output that pays to three bytes. -/
def payingTx : MsgTx := ⟨1, [], [⟨0, [3, 1, 2, 3]⟩], 0⟩
def emptyFilter : MsgFilterLoad := ⟨replicate 8 0, 2, 0, bloomUpdateAll⟩

/-- The three bytes were added, and the transaction that pays to them is not matched. -/
theorem pushedData_not_matched : Usable emptyFilter ∧ Due scriptPushes (fun _ => .zero 32) emptyFilter.flags
      (historyOf scriptPushes (fun _ => .zero 32) [.add [1, 2, 3]]) payingTx ∧
    ∃ bf, runCalls stubs (fun _ => .zero 32) (some emptyFilter) [.add [1, 2, 3]] = .ok bf ∧
      matchTxAndUpdate stubs (fun _ => .zero 32) bf payingTx = .ok (false, bf) := by
  refine ⟨⟨by decide, by decide, by decide⟩, ?_, ?_⟩
  · refine .inr (.inr (.inl ⟨[3, 1, 2, 3], mem_cons_self, [1, 2, 3], ?_, mem_cons_self⟩))
    have hpushes : scriptPushes [3, 1, 2, 3] = [[1, 2, 3]] := by decide
    rw [hpushes]
    exact mem_cons_self
  · refine ⟨_, rfl, ?_⟩
    decide

/-- An outpoint that was added and is spent. -/
theorem matched_of_unpushed_spent : Usable emptyFilter ∧
    AllUnpushed (fun _ => .zero 32) ⟨[], []⟩ ([.addOutPoint ⟨.zero 32, 5⟩] ++
      [.matchTx ⟨1, [⟨⟨.zero 32, 5⟩, [], none, 0⟩], [⟨0, [3, 1, 2, 3]⟩], 0⟩]) ∧
    ∃ bf, runCalls stubs (fun _ => .zero 32) (some emptyFilter) [.addOutPoint ⟨.zero 32, 5⟩] = .ok bf ∧ ∃ matched bf',
      matchTxAndUpdate stubs (fun _ => .zero 32) bf ⟨1, [⟨⟨.zero 32, 5⟩, [], none, 0⟩], [⟨0, [3, 1, 2, 3]⟩], 0⟩ =
        .ok (matched, bf') ∧
      (Due scriptPushes (fun _ => .zero 32) emptyFilter.flags
        (historyOf scriptPushes (fun _ => .zero 32) [.addOutPoint ⟨.zero 32, 5⟩])
        ⟨1, [⟨⟨.zero 32, 5⟩, [], none, 0⟩], [⟨0, [3, 1, 2, 3]⟩], 0⟩ → matched = true) := by
  have hs : Usable emptyFilter := ⟨by decide, by decide, by decide⟩
  have hcalls : AllUnpushed (fun _ => .zero 32) ⟨[], []⟩ ([.addOutPoint ⟨.zero 32, 5⟩] ++
      [.matchTx ⟨1, [⟨⟨.zero 32, 5⟩, [], none, 0⟩], [⟨0, [3, 1, 2, 3]⟩], 0⟩]) := by
    refine ⟨?_, trivial⟩
    unfold Unpushed
    decide
  exact ⟨hs, hcalls, matched_of_unpushed _ hs _ _ hcalls⟩

end NogoCommons.Bloom
