import NogoCommons.Nogoutil.Tx

/-!
# `nogoutil/block.go`

A block wraps its transactions when they are asked for, one at a time (`tx`) or all of them (`allTransactions`), and keeps
its own bytes once they have been written (`bytes`). When all transactions are wrapped and the bytes are there, each
transaction is given its part of them, found by an offset that is moved on in the branch that wraps a transaction. A
transaction that was wrapped before does not move the offset. So the parts are right if nothing that is wrapped comes
before something that is not (`wrapFrom_ok`), and wrong otherwise: `Misplaces` is the state in which `Transactions` goes
wrong, and a run that never calls it there hands out right hashes only (`run_faithful`).

A block that was decoded has no wrapped transaction when it is given its bytes, so its transactions always get their own
part. The bytes themselves are kept as they came, with whatever followed the block in them (`newBlockFromBytes_faithful`).

A `*Tx` that was handed out is the one in the block's list. So the list holds each transaction as it is by now, and what
a method of it changes is changed there.
-/

namespace NogoCommons.Nogoutil
open Lib Reader List
open Wire

/-- `OutOfRangeError`, by its text. -/
structure OutOfRangeError where
  text : String
deriving DecidableEq

/-- A `Block`; an empty `serializedBlock` is one that is not there. -/
structure Block where
  msgBlock : MsgBlock
  serializedBlock : Bytes
  blockHash : Option ChainHash
  transactions : List (Option Tx)
  txnsGenerated : Bool
deriving DecidableEq

def newBlock (msgBlock : MsgBlock) : Block where
  msgBlock := msgBlock
  serializedBlock := []
  blockHash := none
  transactions := []
  txnsGenerated := false

namespace Block

/-- `Bytes`, with the block as it is afterwards. -/
def bytes (b : Block) : Bytes × Block :=
  if b.serializedBlock.length ≠ 0 then (b.serializedBlock, b)
  else (b.msgBlock.serialize, { b with serializedBlock := b.msgBlock.serialize })

/-- `TxLoc`, with the block as it is afterwards. The slab is the buffer that was borrowed. -/
def txLoc (slab : ScriptSlab) (b : Block) : Except WireError (List TxLoc) × Block :=
  ((MsgBlock.deserializeTxLoc slab b.bytes.1).map Prod.snd, b.bytes.2)

/-- The slice of wrapped transactions, made when there is none. -/
def withSlots (b : Block) : Block :=
  if b.transactions.length = 0 then
    { b with transactions := replicate b.msgBlock.transactions.length none }
  else b

/-- `Tx`, with the block as it is afterwards. -/
def tx (b : Block) (txNum : Int) : Go (Except OutOfRangeError Tx × Block) :=
  let numTx := b.msgBlock.transactions.length
  if txNum < 0 ∨ numTx ≤ txNum.toNat then
    let last := len64 numTx - 1
    .ok (.error ⟨s!"transaction index {txNum} is out of range - max {last}"⟩, b)
  else do
    let b := b.withSlots
    match ← elemAt b.transactions txNum.toNat with
    | some tx => return (.ok tx, b)
    | none =>
      let msgTx ← elemAt b.msgBlock.transactions txNum.toNat
      let tx := (newTx msgTx).setIndex txNum
      return (.ok tx, { b with transactions := b.transactions.set txNum.toNat (some tx) })

/-- The loop of `Transactions`, from a position and an offset on. -/
def wrapFrom (msgBlock : MsgBlock) (serializedBlock : Bytes) : Nat → Nat → List (Option Tx) → Go (List (Option Tx))
  | _, _, [] => .ok []
  | i, offset, some tx :: rest => do
    let rest ← wrapFrom msgBlock serializedBlock (i + 1) offset rest
    return some tx :: rest
  | i, offset, none :: rest => do
    let msgTx ← elemAt msgBlock.transactions i
    let tx := (newTx msgTx).setIndex i
    let size := msgTx.serializeSize
    if 0 < serializedBlock.length then do
      let raw ← slice serializedBlock offset (offset + size)
      let rest ← wrapFrom msgBlock serializedBlock (i + 1) (offset + size) rest
      return some (tx.setBytes raw) :: rest
    else do
      let rest ← wrapFrom msgBlock serializedBlock (i + 1) offset rest
      return some tx :: rest

/-- `Transactions`, with the block as it is afterwards. -/
def allTransactions (b : Block) : Go (List (Option Tx) × Block) :=
  if b.txnsGenerated then .ok (b.transactions, b)
  else do
    let b := b.withSlots
    let offset := 80 + varIntSerializeSize (len64 b.msgBlock.transactions.length)
    let transactions ← wrapFrom b.msgBlock b.serializedBlock 0 offset b.transactions
    return (transactions, { b with transactions := transactions, txnsGenerated := true })

section Hashes
variable (doubleHash : Bytes → ChainHash)

/-- `Hash`, with the block as it is afterwards. -/
def hash (b : Block) : ChainHash × Block :=
  match b.blockHash with
  | some hash => (hash, b)
  | none =>
    let hash := b.msgBlock.header.blockHash doubleHash
    (hash, { b with blockHash := some hash })

/-- `Hash` of a transaction of the block, which is the one in its list. -/
def hashAt (b : Block) (i : Nat) (tx : Tx) : Go (ChainHash × Block) := do
  let r ← tx.hash doubleHash
  return (r.1, { b with transactions := b.transactions.set i (some r.2) })

/-- `TxHash`, with the block as it is afterwards. -/
def txHash (b : Block) (txNum : Int) : Go (Except OutOfRangeError ChainHash × Block) := do
  let r ← b.tx txNum
  match r.1 with
  | .error err => return (.error err, r.2)
  | .ok tx =>
    let h ← r.2.hashAt doubleHash txNum.toNat tx
    return (.ok h.1, h.2)

end Hashes
end Block

/-- `NewBlockFromReader`, with what is left in the reader. -/
def newBlockFromReader (slab : ScriptSlab) (r : Bytes) : Except WireError (Block × Bytes) := do
  let msgBlock ← (MsgBlock.btcDecode witnessEncoding slab).run r
  return (newBlock msgBlock.1, msgBlock.2)

def newBlockFromBytes (slab : ScriptSlab) (serializedBlock : Bytes) : Go (Except WireError Block) :=
  match newBlockFromReader slab serializedBlock with
  | .error err => .ok (.error err)
  | .ok r => do
    let b ← { r.1 with serializedBlock := serializedBlock }.allTransactions
    return .ok b.2

/-! ## Runs -/

/-- The calls on a block, and the calls on one of the transactions that it has handed out. -/
inductive Call where
  | tx (txNum : Int)
  | txHash (txNum : Int)
  | transactions
  | bytes
  | hash
  | txLoc (slab : ScriptSlab)
  | hashOf (i : Nat)
  | witnessHashOf (i : Nat)

section Runs
variable (doubleHash : Bytes → ChainHash)

/-- What one call does: the pointers that it hands out, each with the position it was asked for, and the block
afterwards. -/
def Block.call (b : Block) : Call → Go (List (Nat × Option Tx) × Block)
  | .tx txNum => do
    let r ← b.tx txNum
    match r.1 with
    | .error _ => return ([], r.2)
    | .ok tx => return ([(txNum.toNat, some tx)], r.2)
  | .txHash txNum => do
    let r ← b.txHash doubleHash txNum
    return ([], r.2)
  | .transactions => do
    let r ← b.allTransactions
    return (r.1.zipIdx.map fun p => (p.2, p.1), r.2)
  | .bytes => .ok ([], b.bytes.2)
  | .hash => .ok ([], (b.hash doubleHash).2)
  | .txLoc slab => .ok ([], (b.txLoc slab).2)
  | .hashOf i =>
    match b.transactions[i]? with
    | some (some tx) => do
      let r ← b.hashAt doubleHash i tx
      return ([], r.2)
    | _ => .ok ([], b)
  | .witnessHashOf i =>
    match b.transactions[i]? with
    | some (some tx) =>
      .ok ([], { b with transactions := b.transactions.set i (some (tx.witnessHash doubleHash).2) })
    | _ => .ok ([], b)

/-- What a sequence of calls does. -/
def Block.run : Block → List Call → Go (List (Nat × Option Tx) × Block)
  | b, [] => .ok ([], b)
  | b, call :: calls => do
    let r ← b.call doubleHash call
    let rs ← r.2.run calls
    return (r.1 ++ rs.1, rs.2)

/-- What a transaction has to answer that was handed out for a position of a block. -/
structure Faithful (msg : MsgBlock) (i : Nat) (t : Tx) : Prop where
  hash : ∃ msgTx, msg.transactions[i]? = some msgTx ∧ (∃ t', t.hash doubleHash = .ok (msgTx.txHash doubleHash, t')) ∧
    (t.witnessHash doubleHash).1 = msgTx.witnessHash doubleHash
  index : t.index = i

end Runs

/-! ## Where `Transactions` goes wrong -/

/-- Nothing that is wrapped comes before something that is not. -/
def Ordered (txs : List (Option Tx)) : Prop := txs.Pairwise fun e e' => e.isSome = true → e'.isSome = true

instance decidableOrdered (txs : List (Option Tx)) : Decidable (Ordered txs) :=
  inferInstanceAs (Decidable (Pairwise _ txs))

/-- `Transactions` would give a transaction the bytes of another. -/
def Block.Misplaces (b : Block) : Prop :=
  b.txnsGenerated = false ∧ b.serializedBlock ≠ [] ∧ ¬ Ordered b.transactions

instance decidableMisplaces (b : Block) : Decidable b.Misplaces := inferInstanceAs (Decidable (_ ∧ _ ∧ ¬ _))

def Call.Safe (b : Block) : Call → Prop
  | .transactions => ¬ b.Misplaces
  | _ => True

instance decidableSafe (b : Block) : (call : Call) → Decidable (call.Safe b)
  | .transactions => inferInstanceAs (Decidable (¬ b.Misplaces))
  | .tx _ | .txHash _ | .bytes | .hash | .txLoc _ | .hashOf _ | .witnessHashOf _ => isTrue trivial

variable {b : Block}
section Runs
variable (doubleHash : Bytes → ChainHash)

/-- Every call of a run is safe where it is made. -/
def Careful : Block → List Call → Prop
  | _, [] => True
  | b, call :: calls => call.Safe b ∧ ∀ r ∈ (b.call doubleHash call).toOption, Careful r.2 calls

/-- What a wrapped transaction is at a position of a block. -/
structure Entry (msg : MsgBlock) (i : Nat) (t : Tx) : Prop where
  msgTx : msg.transactions[i]? = some t.msgTx
  index : t.txIndex = i
  sound : t.Sound doubleHash

variable {doubleHash} {msg : MsgBlock} {i offset : Nat} {t : Tx} {txs : List (Option Tx)} {ser : Bytes}

theorem Entry.faithful (h : Entry doubleHash msg i t) : Faithful doubleHash msg i t where
  hash := by
    obtain ⟨t', hhash, -⟩ := h.sound.hash
    exact ⟨t.msgTx, h.msgTx, ⟨t', hhash⟩, h.sound.witnessHash.1⟩
  index := h.index

theorem Entry.same {t' : Tx} (h : Entry doubleHash msg i t) (hs : t'.Sound doubleHash) (hsame : t.SameTx t') :
    Entry doubleHash msg i t' where
  msgTx := by rw [hsame.1, h.msgTx]
  index := by rw [hsame.2, h.index]
  sound := hs

theorem entry_newTx {msgTx : MsgTx} (h : msg.transactions[i]? = some msgTx) :
    Entry doubleHash msg i ((newTx msgTx).setIndex i) where
  msgTx := h
  index := rfl
  sound := (Tx.sound_newTx msgTx).setIndex i

variable (doubleHash msg) in
/-- A list of wrapped transactions that starts at a position of a block. -/
def Entries (i : Nat) (txs : List (Option Tx)) : Prop :=
  ∀ k t, txs[k]? = some (some t) → Entry doubleHash msg (i + k) t

theorem entries_cons {e : Option Tx} :
    Entries doubleHash msg i (e :: txs) ↔ (∀ t ∈ e, Entry doubleHash msg i t) ∧ Entries doubleHash msg (i + 1) txs := by
  constructor
  · intro h
    refine ⟨fun t ht => h 0 t (congrArg some ht), fun k t hk => ?_⟩
    rw [Nat.add_right_comm]
    exact h (k + 1) t hk
  · rintro ⟨hhead, htail⟩ k t hk
    cases k with
    | zero => exact hhead t (Option.some.inj hk)
    | succ k =>
      rw [Nat.add_comm k 1, ← Nat.add_assoc]
      exact htail k t hk

variable (msg) in
/-- What the loop needs of the bytes and of its offset: there are no bytes, or they start with the block and the offset
is the one of the next transaction that has to be wrapped. -/
def Placed (ser : Bytes) (i offset : Nat) (txs : List (Option Tx)) : Prop :=
  ser = [] ∨ (∃ rest, ser = msg.serialize ++ rest) ∧ Ordered txs ∧ (offset = msg.txStart i ∨ ∀ e ∈ txs, e.isSome = true)

theorem Placed.of_some (h : Placed msg ser i offset (some t :: txs)) : Placed msg ser (i + 1) offset txs := by
  rcases h with hnil | ⟨hser, hord, -⟩
  · exact .inl hnil
  · obtain ⟨hall, hord⟩ := pairwise_cons.mp hord
    exact .inr ⟨hser, hord, .inr fun e he => hall e he rfl⟩

/-- Where a transaction has to be wrapped, the offset is the right one, and so is the next. -/
theorem Placed.of_none {msgTx : MsgTx} (h : Placed msg ser i offset (none :: txs)) (hpos : 0 < ser.length)
    (hmsg : msg.transactions[i]? = some msgTx) :
    slice ser offset (offset + msgTx.serializeSize) = .ok msgTx.serialize ∧
      Placed msg ser (i + 1) (offset + msgTx.serializeSize) txs := by
  obtain ⟨⟨rest, rfl⟩, hord, hoffset⟩ := h.resolve_left (length_pos_iff.mp hpos)
  have hstart : offset = msg.txStart i := by
    refine hoffset.resolve_right fun hall => ?_
    have hnone := hall none mem_cons_self
    cases hnone
  subst hstart
  exact ⟨slice_serialize hmsg rest, .inr ⟨⟨rest, rfl⟩, (pairwise_cons.mp hord).2, .inl (txStart_succ hmsg).symm⟩⟩

theorem wrapFrom_ok (hp : Placed msg ser i offset txs) (hlen : i + txs.length = msg.transactions.length)
    (he : Entries doubleHash msg i txs) :
    ∃ out, Block.wrapFrom msg ser i offset txs = .ok out ∧ out.length = txs.length ∧ (∀ e ∈ out, e.isSome = true) ∧
      Entries doubleHash msg i out := by
  induction txs generalizing i offset with
  | nil => exact ⟨[], rfl, rfl, forall_mem_nil _, he⟩
  | cons e txs ih =>
    rw [length_cons] at hlen
    obtain ⟨hhead, htail⟩ := entries_cons.mp he
    cases e with
    | some t =>
      obtain ⟨out, hout, hlength, hall, hentries⟩ := ih hp.of_some (by omega) htail
      refine ⟨some t :: out, ?_, by simp [hlength], forall_mem_cons.mpr ⟨rfl, hall⟩, entries_cons.mpr ⟨hhead, hentries⟩⟩
      rw [Block.wrapFrom, hout]
      rfl
    | none =>
      have hi : i < msg.transactions.length := by omega
      have hmsg : msg.transactions[i]? = some msg.transactions[i] := getElem?_eq_getElem hi
      have hnew : Entry doubleHash msg i _ := entry_newTx hmsg
      rw [Block.wrapFrom, elemAt_of_lt hi, ok_bind]
      dsimp only
      split_ifs with hpos
      · obtain ⟨hslice, hnext⟩ := hp.of_none hpos hmsg
        obtain ⟨out, hout, hlength, hall, hentries⟩ := ih hnext (by omega) htail
        rw [hslice, ok_bind, hout]
        refine ⟨_, rfl, by simp [hlength], forall_mem_cons.mpr ⟨rfl, hall⟩, entries_cons.mpr ⟨?_, hentries⟩⟩
        rintro t ⟨⟩
        exact ⟨hnew.msgTx, hnew.index, hnew.sound.setBytes⟩
      · have hnil : ser = [] := by simpa using hpos
        obtain ⟨out, hout, hlength, hall, hentries⟩ := ih (.inl hnil) (by omega) htail
        rw [hout]
        refine ⟨_, rfl, by simp [hlength], forall_mem_cons.mpr ⟨rfl, hall⟩, entries_cons.mpr ⟨?_, hentries⟩⟩
        rintro t ⟨⟩
        exact hnew

variable (doubleHash msg) in
/-- What every call keeps. -/
structure Inv (b : Block) : Prop where
  msgBlock : b.msgBlock = msg
  serialized : b.serializedBlock = [] ∨ ∃ rest, b.serializedBlock = msg.serialize ++ rest
  length : b.transactions = [] ∨ b.transactions.length = msg.transactions.length
  entries : Entries doubleHash msg 0 b.transactions
  generated : b.txnsGenerated = true →
    b.transactions.length = msg.transactions.length ∧ ∀ e ∈ b.transactions, e.isSome = true

theorem inv_newBlock : Inv doubleHash msg (newBlock msg) where
  msgBlock := rfl
  serialized := .inl rfl
  length := .inl rfl
  entries _ _ h := by cases h
  generated h := by cases h

section Keeps
variable (h : Inv doubleHash msg b)
include h

theorem Inv.withSlots : Inv doubleHash msg b.withSlots ∧ b.withSlots.transactions.length = msg.transactions.length := by
  unfold Block.withSlots
  split_ifs with hempty
  · rw [h.msgBlock]
    refine ⟨⟨rfl, h.serialized, .inr length_replicate, ?_, ?_⟩, length_replicate⟩
    · intro k t hk
      rw [getElem?_replicate] at hk
      split_ifs at hk
      cases Option.some.inj hk
    · intro hgenerated
      have hzero : msg.transactions.length = 0 := by rw [← (h.generated hgenerated).1, hempty]
      refine ⟨length_replicate, fun e he => ?_⟩
      rw [hzero] at he
      cases he
  · refine ⟨h, h.length.resolve_left fun hnil => hempty ?_⟩
    rw [hnil, length_nil]

theorem Inv.set (ht : Entry doubleHash msg i t) :
    Inv doubleHash msg { b with transactions := b.transactions.set i (some t) } where
  msgBlock := h.msgBlock
  serialized := h.serialized
  length := by
    rcases h.length with hnil | hlen
    · rw [hnil]
      exact .inl rfl
    · exact .inr (by rw [length_set, hlen])
  entries k t' hk := by
    rw [getElem?_set] at hk
    split_ifs at hk with hik hlt
    · subst hik
      cases Option.some.inj hk
      rwa [Nat.zero_add]
    · exact h.entries k t' hk
  generated hgenerated := by
    obtain ⟨hlen, hall⟩ := h.generated hgenerated
    refine ⟨by rw [length_set, hlen], fun e he => ?_⟩
    rcases mem_or_eq_of_mem_set he with hmem | rfl
    · exact hall e hmem
    · rfl

theorem Inv.bytes : Inv doubleHash msg b.bytes.2 := by
  unfold Block.bytes
  split_ifs with hempty
  · exact h
  · refine ⟨h.msgBlock, .inr ⟨[], ?_⟩, h.length, h.entries, h.generated⟩
    rw [append_nil, h.msgBlock]

theorem Inv.hash : Inv doubleHash msg (b.hash doubleHash).2 := by
  unfold Block.hash
  split
  · exact h
  · exact ⟨h.msgBlock, h.serialized, h.length, h.entries, h.generated⟩

theorem Inv.entry (ht : b.transactions[i]? = some (some t)) : Entry doubleHash msg i t := by
  have hentry := h.entries i t ht
  rwa [Nat.zero_add] at hentry

theorem Inv.tx (txNum : Int) : ∃ r b', b.tx txNum = .ok (r, b') ∧ Inv doubleHash msg b' ∧
      ∀ t, r = .ok t → b'.transactions[txNum.toNat]? = some (some t) := by
  obtain ⟨hinv, hlen⟩ := h.withSlots
  unfold Block.tx
  dsimp only
  rw [h.msgBlock]
  split_ifs with hrange
  · exact ⟨_, b, rfl, h, fun t ht => by cases ht⟩
  · have hlt : txNum.toNat < b.withSlots.transactions.length := by omega
    have hnum : (txNum.toNat : Int) = txNum := Int.toNat_of_nonneg (by omega)
    rw [elemAt_of_lt hlt, ok_bind]
    cases hslot : b.withSlots.transactions[txNum.toNat] with
    | some t =>
      refine ⟨_, _, rfl, hinv, fun t' ht' => ?_⟩
      cases ht'
      rw [getElem?_eq_getElem hlt, hslot]
    | none =>
      have hmsg := getElem?_eq_getElem (show txNum.toNat < msg.transactions.length by omega)
      generalize msg.transactions[txNum.toNat] = msgTx at hmsg
      have hnew : Entry doubleHash msg txNum.toNat ((newTx msgTx).setIndex txNum) := by
        have hentry : Entry doubleHash msg txNum.toNat _ := entry_newTx hmsg
        rwa [hnum] at hentry
      have helem : elemAt b.withSlots.msgBlock.transactions txNum.toNat = .ok msgTx := by
        rw [hinv.msgBlock, elemAt, hmsg]
      rw [helem, ok_bind]
      refine ⟨_, _, rfl, hinv.set hnew, fun t' ht' => ?_⟩
      cases ht'
      rw [getElem?_set_self hlt]

theorem Inv.hashAt (ht : b.transactions[i]? = some (some t)) :
    ∃ hash b', b.hashAt doubleHash i t = .ok (hash, b') ∧ Inv doubleHash msg b' := by
  have hentry := h.entry ht
  obtain ⟨t', hhash, hsound, hsame⟩ := hentry.sound.hash
  rw [Block.hashAt, hhash]
  exact ⟨_, _, rfl, h.set (hentry.same hsound hsame)⟩

theorem Inv.txHash (txNum : Int) : ∃ r b', b.txHash doubleHash txNum = .ok (r, b') ∧ Inv doubleHash msg b' := by
  obtain ⟨r, b₁, htx, hinv, hslot⟩ := h.tx txNum
  rw [Block.txHash, htx, ok_bind]
  cases r with
  | error err => exact ⟨_, b₁, rfl, hinv⟩
  | ok t =>
    obtain ⟨hash, b₂, hhash, hinv'⟩ := hinv.hashAt (hslot t rfl)
    dsimp only
    rw [hhash]
    exact ⟨_, b₂, rfl, hinv'⟩

/-- `Transactions` wraps every transaction, each as it should be, where it is safe to call. -/
theorem Inv.allTransactions (hsafe : ¬ b.Misplaces) :
    ∃ b', b.allTransactions = .ok (b'.transactions, b') ∧ Inv doubleHash msg b' ∧
      b'.serializedBlock = b.serializedBlock ∧
      b'.transactions.length = msg.transactions.length ∧ ∀ e ∈ b'.transactions, e.isSome = true := by
  unfold Block.allTransactions
  split_ifs with hgenerated
  · exact ⟨b, rfl, h, rfl, h.generated hgenerated⟩
  · obtain ⟨hinv, hlen⟩ := h.withSlots
    have hser : b.withSlots.serializedBlock = b.serializedBlock := by
      unfold Block.withSlots
      split_ifs <;> rfl
    have hplaced : Placed msg b.serializedBlock 0 (msg.txStart 0) b.withSlots.transactions := by
      rcases h.serialized with hnil | hbytes
      · exact .inl hnil
      · refine .inr ⟨hbytes, ?_, .inl rfl⟩
        unfold Block.withSlots
        split_ifs with hempty
        · exact pairwise_replicate.mpr (.inr id)
        · by_contra hord
          refine hsafe ⟨by simpa using hgenerated, fun hnil => ?_, hord⟩
          obtain ⟨rest, hrest⟩ := hbytes
          rw [hnil] at hrest
          exact serialize_block_ne_nil msg (append_eq_nil_iff.mp hrest.symm).1
    obtain ⟨out, hout, hlength, hall, hentries⟩ := wrapFrom_ok hplaced (by rw [Nat.zero_add, hlen]) hinv.entries
    rw [hlen] at hlength
    dsimp only
    rw [hinv.msgBlock, hser, show 80 + varIntSerializeSize (len64 msg.transactions.length) = msg.txStart 0 from rfl, hout,
      ok_bind]
    exact ⟨⟨msg, b.serializedBlock, _, out, true⟩, rfl, ⟨rfl, h.serialized, .inr hlength, hentries, fun _ => ⟨hlength, hall⟩⟩, rfl, hlength, hall⟩

theorem Inv.call {call : Call} (hsafe : call.Safe b) :
    ∃ out b', b.call doubleHash call = .ok (out, b') ∧ Inv doubleHash msg b' ∧
      ∀ p ∈ out, ∃ t, p.2 = some t ∧ Entry doubleHash msg p.1 t := by
  cases call with
  | tx txNum =>
    obtain ⟨r, b', htx, hinv, hslot⟩ := h.tx txNum
    rw [Block.call, htx, ok_bind]
    cases r with
    | error err => exact ⟨[], b', rfl, hinv, forall_mem_nil _⟩
    | ok t =>
      refine ⟨_, b', rfl, hinv, fun p hp => ?_⟩
      obtain rfl := mem_singleton.mp hp
      exact ⟨t, rfl, hinv.entry (hslot t rfl)⟩
  | txHash txNum =>
    obtain ⟨r, b', htx, hinv⟩ := h.txHash txNum
    rw [Block.call, htx]
    exact ⟨[], b', rfl, hinv, forall_mem_nil _⟩
  | transactions =>
    obtain ⟨b', hall, hinv, -, -, hsome⟩ := h.allTransactions hsafe
    rw [Block.call, hall]
    refine ⟨_, b', rfl, hinv, fun p hp => ?_⟩
    obtain ⟨⟨e, k⟩, hmem, rfl⟩ := mem_map.mp hp
    have hget := mk_mem_zipIdx_iff_getElem?.mp hmem
    obtain ⟨t, rfl⟩ := Option.isSome_iff_exists.mp (hsome e (mem_of_getElem? hget))
    exact ⟨t, rfl, hinv.entry hget⟩
  | bytes => exact ⟨[], _, rfl, h.bytes, forall_mem_nil _⟩
  | hash => exact ⟨[], _, rfl, h.hash, forall_mem_nil _⟩
  | txLoc slab => exact ⟨[], _, rfl, h.bytes, forall_mem_nil _⟩
  | hashOf i =>
    rw [Block.call]
    split
    · next t ht =>
      obtain ⟨hash, b', hhash, hinv⟩ := h.hashAt ht
      rw [hhash]
      exact ⟨[], b', rfl, hinv, forall_mem_nil _⟩
    · exact ⟨[], b, rfl, h, forall_mem_nil _⟩
  | witnessHashOf i =>
    rw [Block.call]
    split
    · next t ht =>
      have hentry := h.entry ht
      obtain ⟨-, hsound, hsame⟩ := hentry.sound.witnessHash
      exact ⟨[], _, rfl, h.set (hentry.same hsound hsame), forall_mem_nil _⟩
    · exact ⟨[], b, rfl, h, forall_mem_nil _⟩

end Keeps

theorem Inv.run (h : Inv doubleHash msg b) {calls : List Call} (hc : Careful doubleHash b calls) :
    ∃ out b', b.run doubleHash calls = .ok (out, b') ∧ Inv doubleHash msg b' ∧
      ∀ p ∈ out, ∃ t, p.2 = some t ∧ Entry doubleHash msg p.1 t := by
  induction calls generalizing b with
  | nil => exact ⟨[], b, rfl, h, forall_mem_nil _⟩
  | cons call calls ih =>
    obtain ⟨out, b₁, hcall, hinv, hout⟩ := h.call hc.1
    have hrest := hc.2 (out, b₁) (by rw [hcall]; rfl)
    obtain ⟨out', b₂, hrun, hinv', hout'⟩ := ih hinv hrest
    rw [Block.run, hcall, ok_bind, hrun]
    refine ⟨out ++ out', b₂, rfl, hinv', fun p hp => ?_⟩
    exact (mem_append.mp hp).elim (hout p) (hout' p)

/-- In every careful run the calls do not panic, every transaction that is handed out has the right hashes and the right
index, and keeps them. -/
theorem run_faithful {calls : List Call} (hcareful : Careful doubleHash (newBlock msg) calls) :
    ∃ out b, (newBlock msg).run doubleHash calls = .ok (out, b) ∧
      (∀ p ∈ out, ∃ t, p.2 = some t ∧ Faithful doubleHash msg p.1 t) ∧
      ∀ i t, b.transactions[i]? = some (some t) → Faithful doubleHash msg i t := by
  obtain ⟨out, b, hrun, hinv, hout⟩ := inv_newBlock.run hcareful
  refine ⟨out, b, hrun, fun p hp => ?_, fun i t ht => (hinv.entry ht).faithful⟩
  obtain ⟨t, hp2, hentry⟩ := hout p hp
  exact ⟨t, hp2, hentry.faithful⟩

end Runs

/-- Two transactions that differ in their version. -/
def twoTransactions : MsgBlock where
  header := ⟨1, FixedBytes.zero 32, FixedBytes.zero 32, 0, 0, 0⟩
  transactions := [txOfEmptyItems 0, { txOfEmptyItems 0 with version := 3 }]

/-- The first transaction may be wrapped before the others as long as the bytes are not there yet. -/
theorem run_faithful_two : ∃ out b, (newBlock twoTransactions).run (FixedBytes.copy 32) [.tx 0, .transactions, .bytes] =
      .ok (out, b) ∧
    (∀ p ∈ out, ∃ t, p.2 = some t ∧ Faithful (FixedBytes.copy 32) twoTransactions p.1 t) ∧
    ∀ i t, b.transactions[i]? = some (some t) → Faithful (FixedBytes.copy 32) twoTransactions i t := by
  apply run_faithful
  refine ⟨trivial, fun r hr => ⟨?_, fun _ _ => ⟨trivial, fun _ _ => trivial⟩⟩⟩
  cases hr
  decide

/-- The second transaction is given the bytes of the first. -/
theorem second_transaction_misplaced :
    ∃ r ∈ ((newBlock twoTransactions).run (FixedBytes.copy 32) [.tx 0, .bytes, .transactions]).toOption,
      ∃ t ∈ r.2.transactions[1]?.join, ∃ msgTx ∈ twoTransactions.transactions[1]?, t.msgTx = msgTx ∧
        (t.hash (FixedBytes.copy 32)).toOption.map Prod.fst ≠ some (msgTx.txHash (FixedBytes.copy 32)) := by
  decide +kernel

/-! ## Blocks from bytes -/

section FromBytes
variable {slab : ScriptSlab} {s : Bytes} {msg : MsgBlock}

/-- What a stream is that a block is read from. -/
theorem run_btcDecode_ok {rest : Bytes} (h : (MsgBlock.btcDecode witnessEncoding slab).run s = .ok (msg, rest)) :
    s = msg.serialize ++ rest := by
  obtain ⟨u, rfl, hreads⟩ := run_eq_ok.mp h
  rw [((format_btcDecode_block witnessEncoding slab u msg).mp hreads).2]
  rfl

theorem run_btcDecode_serialize (hfits : msg.header.timestamp.Fits) (hcount : msg.transactions.length ≤ maxTxPerBlock)
    (hall : ∀ tx ∈ msg.transactions, Decodable witnessEncoding tx) (rest : Bytes) :
    (MsgBlock.btcDecode witnessEncoding slab).run (msg.serialize ++ rest) = .ok (msg, rest) :=
  (format_btcDecode_block witnessEncoding slab).reads ⟨hfits, hcount, hall⟩ rest

/-- **Blocks are decoded from their encoding only.** -/
theorem run_btcDecode_iff {rest : Bytes} : (MsgBlock.btcDecode witnessEncoding slab).run s = .ok (msg, rest) ↔
    s = msg.serialize ++ rest ∧ msg.header.timestamp.Fits ∧ msg.transactions.length ≤ maxTxPerBlock ∧
      ∀ tx ∈ msg.transactions, Decodable witnessEncoding tx := by
  constructor
  · intro h
    obtain ⟨u, -, hreads⟩ := run_eq_ok.mp h
    exact ⟨run_btcDecode_ok h, ((format_btcDecode_block witnessEncoding slab u msg).mp hreads).1⟩
  · rintro ⟨rfl, hfits, hcount, hall⟩
    exact run_btcDecode_serialize hfits hcount hall rest

section
variable (doubleHash : Bytes → ChainHash)

/-- A block that was just read wraps each transaction with its own bytes, whatever follows them. -/
theorem newBlockFromBytes_eq {rest : Bytes} (h : (MsgBlock.btcDecode witnessEncoding slab).run s = .ok (msg, rest)) :
    ∃ b, newBlockFromBytes slab s = .ok (.ok b) ∧ Inv doubleHash msg b ∧ b.serializedBlock = s ∧
      b.transactions.length = msg.transactions.length ∧ ∀ e ∈ b.transactions, e.isSome = true := by
  have hreader : newBlockFromReader slab s = .ok (newBlock msg, rest) := by
    rw [newBlockFromReader, h]
    rfl
  have hnew : Inv doubleHash msg (newBlock msg) := inv_newBlock
  have hinv : Inv doubleHash msg { newBlock msg with serializedBlock := s } :=
    ⟨rfl, .inr ⟨rest, run_btcDecode_ok h⟩, .inl rfl, hnew.entries, hnew.generated⟩
  obtain ⟨b, hb, hinv', hser, hlen, hall⟩ := hinv.allTransactions fun hmis => hmis.2.2 Pairwise.nil
  refine ⟨b, ?_, hinv', hser, hlen, hall⟩
  rw [newBlockFromBytes, hreader]
  dsimp only
  rw [hb]
  rfl

/-- `NewBlockFromBytes` never panics. -/
theorem newBlockFromBytes_total (slab : ScriptSlab) (s : Bytes) : ∃ r, newBlockFromBytes slab s = .ok r := by
  cases h : (MsgBlock.btcDecode witnessEncoding slab).run s with
  | error err =>
    refine ⟨.error err, ?_⟩
    rw [newBlockFromBytes, newBlockFromReader, h]
    rfl
  | ok r =>
    obtain ⟨b, hb, -⟩ := newBlockFromBytes_eq (fun _ => FixedBytes.zero 32) h
    exact ⟨.ok b, hb⟩

/-- What an accepted block is. -/
theorem newBlockFromBytes_eq_ok (h : newBlockFromBytes slab s = .ok (.ok b)) :
    ∃ rest, (MsgBlock.btcDecode witnessEncoding slab).run s = .ok (b.msgBlock, rest) ∧
      Inv doubleHash b.msgBlock b ∧ b.serializedBlock = s ∧
      b.transactions.length = b.msgBlock.transactions.length ∧ ∀ e ∈ b.transactions, e.isSome = true := by
  cases hrun : (MsgBlock.btcDecode witnessEncoding slab).run s with
  | error err =>
    rw [newBlockFromBytes, newBlockFromReader, hrun] at h
    cases h
  | ok r =>
    obtain ⟨b', hb', hinv, hser, hlen, hall⟩ := newBlockFromBytes_eq doubleHash hrun
    rw [h] at hb'
    cases hb'
    rw [hinv.msgBlock]
    exact ⟨r.2, rfl, hinv, hser, hlen, hall⟩

/-- The hashes of a block from bytes are right for every byte string that is accepted. -/
theorem hashes_newBlockFromBytes (h : newBlockFromBytes slab s = .ok (.ok b))
    (hi : i < b.msgBlock.transactions.length) :
    ∃ t, b.transactions[i]? = some (some t) ∧ Faithful doubleHash b.msgBlock i t := by
  obtain ⟨rest, -, hinv, -, hlen, hall⟩ := newBlockFromBytes_eq_ok doubleHash h
  have hget := getElem?_eq_getElem (hlen ▸ hi)
  obtain ⟨t, ht⟩ := Option.isSome_iff_exists.mp (hall _ (mem_of_getElem? hget))
  rw [ht] at hget
  exact ⟨t, hget, (hinv.entry hget).faithful⟩

end

/-- An accepted block gives the bytes that it would be encoded as, and the hashes of its transactions, exactly if nothing
followed the block in the bytes it was made from. -/
theorem newBlockFromBytes_faithful {b : Block} (doubleHash : Bytes → ChainHash)
    (haccepted : newBlockFromBytes slab s = .ok (.ok b)) :
    (b.bytes.1 = b.msgBlock.serialize ∧ ∀ i < b.msgBlock.transactions.length,
        ∃ t, b.transactions[i]? = some (some t) ∧ Faithful doubleHash b.msgBlock i t) ↔
      ∃ msg, (MsgBlock.btcDecode witnessEncoding slab).run s = .ok (msg, []) := by
  obtain ⟨rest, hrun, -, hser, -⟩ := newBlockFromBytes_eq_ok doubleHash haccepted
  have hs := run_btcDecode_ok hrun
  have hbytes : b.bytes.1 = s := by
    have hne : b.serializedBlock.length ≠ 0 := by
      rw [hser, hs, length_append]
      have := length_pos_iff.mpr (serialize_block_ne_nil b.msgBlock)
      omega
    rw [Block.bytes, if_pos hne, hser]
  rw [hbytes]
  constructor
  · rintro ⟨hall, -⟩
    have hrest : rest = [] := by
      rw [hs] at hall
      exact append_right_eq_self.mp hall
    exact ⟨b.msgBlock, by rw [hrun, hrest]⟩
  · rintro ⟨msg, hmsg⟩
    rw [hrun] at hmsg
    cases hmsg
    exact ⟨by rw [hs, append_nil], fun i hi => hashes_newBlockFromBytes doubleHash haccepted hi⟩

end FromBytes

/-- One transaction, with three items in its witness. -/
def oneTransaction : MsgBlock where
  header := ⟨1, FixedBytes.zero 32, FixedBytes.zero 32, Time.ofUint32 0, 0, 0⟩
  transactions := [txOfEmptyItems 3]

theorem decodable_oneTransaction : ∀ tx ∈ oneTransaction.transactions, Decodable witnessEncoding tx := by
  intro tx htx
  obtain rfl := mem_singleton.mp htx
  have hlimits := withinLimits_txOfEmptyItems 3
  have hfits : ∀ ti ∈ (txOfEmptyItems 3).txIn, ∃ items, ti.witness = some items ∧ WitnessFits items := by
    intro ti hti
    obtain rfl := mem_singleton.mp hti
    refine ⟨replicate 3 [], rfl, ?_, fun item hitem => ?_⟩
    · rw [length_replicate]
      decide
    · obtain rfl := eq_of_mem_replicate hitem
      exact Nat.zero_le _
  exact ⟨hlimits.txIn_le, hlimits.txOut_le, hlimits.signatureScripts, hlimits.pkScripts, hlimits.size,
    fun _ => cons_ne_nil _ _, .inr ⟨rfl, rfl, hfits⟩⟩

theorem run_oneTransaction (slab : ScriptSlab) (rest : Bytes) :
    (MsgBlock.btcDecode witnessEncoding slab).run (oneTransaction.serialize ++ rest) = .ok (oneTransaction, rest) := by
  apply run_btcDecode_serialize
  · exact Time.fits_ofUint32 0
  · show 1 ≤ maxTxPerBlock
    decide
  · exact decodable_oneTransaction

theorem newBlockFromBytes_faithful_one : ∃ b,
    newBlockFromBytes (FixedBytes.zero scriptSlabSize) (oneTransaction.serialize ++ []) = .ok (.ok b) ∧
    b.bytes.1 = b.msgBlock.serialize ∧ ∀ i < b.msgBlock.transactions.length,
      ∃ t, b.transactions[i]? = some (some t) ∧ Faithful (FixedBytes.copy 32) b.msgBlock i t := by
  have hrun := run_oneTransaction (FixedBytes.zero scriptSlabSize) []
  obtain ⟨b, hb, -⟩ := newBlockFromBytes_eq (FixedBytes.copy 32) hrun
  exact ⟨b, hb, (newBlockFromBytes_faithful (FixedBytes.copy 32) hb).mpr ⟨oneTransaction, hrun⟩⟩

/-- A byte after the block is kept as if it were a part of it. -/
theorem trailing_byte_kept : ∃ b,
    newBlockFromBytes (FixedBytes.zero scriptSlabSize) (oneTransaction.serialize ++ [0]) = .ok (.ok b) ∧
    b.bytes.1 ≠ b.msgBlock.serialize := by
  obtain ⟨b, hb, hinv, hser, -⟩ :=
    newBlockFromBytes_eq (FixedBytes.copy 32) (run_oneTransaction (FixedBytes.zero scriptSlabSize) [0])
  refine ⟨b, hb, fun hbytes => ?_⟩
  have hne : b.serializedBlock.length ≠ 0 := by
    rw [hser, length_append, length_singleton]
    exact Nat.add_one_ne_zero _
  rw [Block.bytes, if_pos hne, hinv.msgBlock, hser] at hbytes
  exact cons_ne_nil _ _ (append_right_eq_self.mp hbytes)

end NogoCommons.Nogoutil
