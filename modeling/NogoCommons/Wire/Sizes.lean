import NogoCommons.Wire.Block

/-!
# Sizes, hashes and locations (`wire/msgtx.go`, `wire/msgblock.go`)

The size functions count what the encoders write without writing it: `baseSize` is the length of the encoding without
witnesses (`length_serializeNoWitness`) and `serializeSize` the length of the one with them (`length_serialize`). What
depends on these sizes is cut out of bytes that were encoded before, and for that the two encodings have to be pieces of
one another: a transaction with witnesses becomes one without when the marker and everything between the outputs and the
lock time are left out (`strip_serialize`), and a block holds its transactions one after the other from `txStart` on
(`slice_serialize`).
-/

namespace NogoCommons.Wire
open Lib
open List hiding iterate
open Lib.Reader

/-! ## Transactions -/

def TxInOf.serializeSize (t : TxIn) : Nat :=
  40 + varIntSerializeSize (len64 t.signatureScript.length) + t.signatureScript.length

def TxOutOf.serializeSize (t : TxOut) : Nat :=
  8 + varIntSerializeSize (len64 t.pkScript.length) + t.pkScript.length

/-- `TxWitness.SerializeSize`. -/
def witnessSerializeSize (t : List Bytes) : Nat :=
  varIntSerializeSize (len64 t.length) +
    (t.map fun witItem => varIntSerializeSize (len64 witItem.length) + witItem.length).sum

def MsgTx.baseSize (msg : MsgTx) : Nat :=
  8 + varIntSerializeSize (len64 msg.txIn.length) + varIntSerializeSize (len64 msg.txOut.length) +
    (msg.txIn.map TxInOf.serializeSize).sum + (msg.txOut.map TxOutOf.serializeSize).sum

def MsgTx.serializeSize (msg : MsgTx) : Nat :=
  msg.baseSize +
    if msg.hasWitness then 2 + (msg.txIn.map fun txin => witnessSerializeSize txin.items).sum else 0

def MsgTx.serializeSizeStripped (msg : MsgTx) : Nat := msg.baseSize
def MsgTx.serialize (msg : MsgTx) : Bytes := msg.btcEncode witnessEncoding
def MsgTx.serializeNoWitness (msg : MsgTx) : Bytes := msg.btcEncode baseEncoding

section Lengths

theorem length_flatten_map {α : Type} {w : α → Bytes} {size : α → Nat} (hw : ∀ a, (w a).length = size a) (as : List α) :
    (as.map w).flatten.length = (as.map size).sum := by
  rw [length_flatten, map_map]
  exact congrArg sum (map_congr_left fun a _ => hw a)

theorem flatten_map_split {α : Type} {as : List α} {a : α} {i : Nat} (h : as[i]? = some a) (w : α → Bytes) :
    (as.map w).flatten = ((as.take i).map w).flatten ++ (w a ++ ((as.drop (i + 1)).map w).flatten) := by
  obtain ⟨hi, rfl⟩ := List.getElem?_eq_some_iff.mp h
  rw [← flatten_cons, ← map_cons, ← drop_eq_getElem_cons hi, ← flatten_append, ← map_append, take_append_drop]

theorem length_writeTxIn (t : TxIn) : (writeTxIn t).length = t.serializeSize := by
  simp [writeTxIn, writeOutPoint, length_writeVarBytes, TxInOf.serializeSize]
  omega

theorem length_writeTxOut (t : TxOut) : (writeTxOut t).length = t.serializeSize := by
  simp [writeTxOut, length_writeVarBytes, TxOutOf.serializeSize, leBytes]
  omega

theorem length_writeTxWitness (t : List Bytes) : (writeTxWitness t).length = witnessSerializeSize t := by
  rw [writeTxWitness, writeList, length_append, length_writeVarInt, length_flatten_map length_writeVarBytes]
  rfl

/-- What an encoding holds between the version, with the marker after it, and the witnesses. -/
def MsgTx.body (msg : MsgTx) : Bytes := writeList writeTxIn msg.txIn ++ writeList writeTxOut msg.txOut

variable (msg : MsgTx)

theorem length_body : msg.body.length + 8 = msg.baseSize := by
  rw [MsgTx.body, length_append, writeList, writeList, length_append, length_append, length_writeVarInt,
    length_writeVarInt, length_flatten_map length_writeTxIn, length_flatten_map length_writeTxOut, MsgTx.baseSize]
  omega

theorem serializeNoWitness_eq :
    msg.serializeNoWitness = putUint32LE msg.version.toUInt32 ++ msg.body ++ putUint32LE msg.lockTime := by
  rw [MsgTx.serializeNoWitness, btcEncode_of_bare rfl]
  simp [MsgTx.body, writeList]

theorem serialize_of_hasWitness {msg : MsgTx} (h : msg.hasWitness = true) :
    msg.serialize = putUint32LE msg.version.toUInt32 ++ ([txFlagMarker, witnessFlag] ++ (msg.body ++
      ((msg.txIn.map fun ti => writeTxWitness ti.items).flatten ++ putUint32LE msg.lockTime))) := by
  rw [MsgTx.serialize, btcEncode_of_hasWitness h]
  simp [MsgTx.body, writeList]

theorem serialize_of_not_hasWitness {msg : MsgTx} (h : msg.hasWitness = false) :
    msg.serialize = msg.serializeNoWitness := by
  rw [MsgTx.serialize, MsgTx.serializeNoWitness, btcEncode_of_bare (by rw [h, Bool.and_false]), btcEncode_of_bare rfl]

theorem length_serializeNoWitness : msg.serializeNoWitness.length = msg.serializeSizeStripped := by
  rw [serializeNoWitness_eq, MsgTx.serializeSizeStripped, ← length_body]
  simp
  omega

theorem length_serialize : msg.serialize.length = msg.serializeSize := by
  cases h : msg.hasWitness with
  | false =>
    rw [serialize_of_not_hasWitness h, length_serializeNoWitness, MsgTx.serializeSize, h]
    rfl
  | true =>
    have hwitnesses : (msg.txIn.map fun ti => writeTxWitness ti.items).flatten.length =
        (msg.txIn.map fun txin => witnessSerializeSize txin.items).sum := by
      apply length_flatten_map
      intro ti
      exact length_writeTxWitness _
    rw [serialize_of_hasWitness h, MsgTx.serializeSize, h, ← length_body]
    simp only [length_append, putUint32LE_length, hwitnesses, if_true, length_cons, length_nil]
    omega

theorem serialize_ne_nil : msg.serialize ≠ [] := by
  intro h
  have hlen := length_serialize msg
  have hbody := length_body msg
  rw [h, length_nil, MsgTx.serializeSize] at hlen
  omega

end Lengths

/-- The pieces of the encoding with witnesses that make the one without. -/
theorem strip_serialize {msg : MsgTx} (h : msg.hasWitness = true) :
    msg.serialize.take 4 ++ (msg.serialize.drop 6).take (msg.baseSize - 8) ++
      msg.serialize.drop (msg.serialize.length - 4) = msg.serializeNoWitness := by
  have hbody : msg.baseSize - 8 = msg.body.length := by
    have := length_body msg
    omega
  have hversion : (putUint32LE msg.version.toUInt32).length = 4 := putUint32LE_length _
  have hlock : (putUint32LE msg.lockTime).length = 4 := putUint32LE_length _
  rw [serializeNoWitness_eq, hbody, serialize_of_hasWitness h]
  generalize putUint32LE msg.version.toUInt32 = version at hversion ⊢
  generalize putUint32LE msg.lockTime = lockTime at hlock ⊢
  generalize (msg.txIn.map fun ti => writeTxWitness ti.items).flatten = witnesses
  congr 1
  · congr 1
    · exact take_left' hversion
    · rw [← append_assoc, drop_left' (by simp [hversion]), take_left]
  · rw [← append_assoc, ← append_assoc, ← append_assoc]
    apply drop_left'
    simp [hversion, hlock]
    omega

/-! ## Script locations -/

/-- The loop of `PkScriptLocs`, over the outputs from one on that starts at `n`. -/
def pkScriptLocsFrom (n : Nat) : List TxOut → List Nat
  | [] => []
  | txOut :: outs =>
    let loc := n + (8 + varIntSerializeSize (len64 txOut.pkScript.length))
    loc :: pkScriptLocsFrom (loc + txOut.pkScript.length) outs

/-- What `PkScriptLocs` takes for the presence of witnesses: the first input has a witness that is not `nil`. -/
def MsgTx.firstWitness (msg : MsgTx) : Bool := msg.txIn.head?.any (·.witness.isSome)

def MsgTx.pkScriptLocs (msg : MsgTx) : List Nat :=
  if msg.txOut.length = 0 then [] else
    pkScriptLocsFrom (4 + varIntSerializeSize (len64 msg.txIn.length) + varIntSerializeSize (len64 msg.txOut.length) +
      (if msg.firstWitness then 2 else 0) + (msg.txIn.map TxInOf.serializeSize).sum) msg.txOut

/-- What `Serialize` writes before the script of an output, with its length at the end. -/
def MsgTx.untilScript (msg : MsgTx) (i : Nat) (txOut : TxOut) : Bytes :=
  [putUint32LE msg.version.toUInt32, if msg.hasWitness then [txFlagMarker, witnessFlag] else [],
    writeList writeTxIn msg.txIn, writeVarInt (len64 msg.txOut.length), ((msg.txOut.take i).map writeTxOut).flatten,
    leBytes 8 txOut.value.toUInt64.toNat, writeVarInt (len64 txOut.pkScript.length)].flatten

theorem serialize_untilScript {msg : MsgTx} {i : Nat} {txOut : TxOut} (h : msg.txOut[i]? = some txOut) :
    ∃ after, msg.serialize = msg.untilScript i txOut ++ (txOut.pkScript ++ after) := by
  have hcut := flatten_map_split h writeTxOut
  simp only [MsgTx.serialize, MsgTx.btcEncode, MsgTx.untilScript, writeList, hcut, writeTxOut, writeVarBytes,
    flatten_cons, append_assoc, beq_self_eq_true, Bool.true_and]
  exact ⟨_, rfl⟩

theorem length_untilScript (msg : MsgTx) (i : Nat) (txOut : TxOut) : (msg.untilScript i txOut).length =
    4 + varIntSerializeSize (len64 msg.txIn.length) + varIntSerializeSize (len64 msg.txOut.length) +
      (if msg.hasWitness then 2 else 0) + (msg.txIn.map TxInOf.serializeSize).sum +
      ((msg.txOut.take i).map TxOutOf.serializeSize).sum + 8 + varIntSerializeSize (len64 txOut.pkScript.length) := by
  have hmarker : (if msg.hasWitness then [txFlagMarker, witnessFlag] else []).length = if msg.hasWitness then 2 else 0 := by
    split <;> rfl
  simp only [MsgTx.untilScript, flatten_cons, flatten_nil, length_append, writeList, hmarker,
    length_writeVarInt, length_flatten_map length_writeTxIn, length_flatten_map length_writeTxOut, putUint32LE_length,
    length_leBytes, length_nil]
  omega

theorem pkScriptLocsFrom_getElem? (n : Nat) (outs : List TxOut) (i : Nat) : (pkScriptLocsFrom n outs)[i]? =
    outs[i]?.map fun txOut => n + ((outs.take i).map TxOutOf.serializeSize).sum + 8 +
      varIntSerializeSize (len64 txOut.pkScript.length) := by
  induction outs generalizing n i with
  | nil => rfl
  | cons txOut outs ih =>
    cases i with
    | zero => simp [pkScriptLocsFrom, Nat.add_assoc]
    | succ i =>
      simp only [pkScriptLocsFrom, getElem?_cons_succ, ih, take_succ_cons, map_cons, sum_cons, TxOutOf.serializeSize]
      congr 1
      funext out
      omega

/-- **The locations are those of the scripts if the first input shows whether there are witnesses.** -/
theorem pkScriptLocs_exact_iff (msg : MsgTx) :
    ((∀ i, msg.pkScriptLocs[i]? = msg.txOut[i]?.map fun txOut => (msg.untilScript i txOut).length) ∧
      ∀ i txOut, msg.txOut[i]? = some txOut → ∃ after, msg.serialize = msg.untilScript i txOut ++ (txOut.pkScript ++ after)) ↔
    (msg.txOut = [] ∨ msg.firstWitness = msg.hasWitness) := by
  rw [and_iff_left fun i txOut => serialize_untilScript]
  simp only [MsgTx.pkScriptLocs, length_untilScript]
  cases hout : msg.txOut with
  | nil => simp
  | cons txOut outs =>
    simp only [length_cons, Nat.add_eq_zero_iff, one_ne_zero, and_false, if_false, pkScriptLocsFrom_getElem?, reduceCtorEq,
      false_or]
    constructor
    · intro h
      have hfirst := h 0
      simp only [getElem?_cons_zero, Option.map_some, Option.some.injEq] at hfirst
      cases hf : msg.firstWitness <;> cases hw : msg.hasWitness <;> simp_all
    · intro h i
      rw [h]

/-- The second input alone has a witness. -/
def secondWitness : MsgTx :=
  let txIn : TxIn := ⟨⟨.zero 32, 0⟩, [], none, 0⟩
  ⟨1, [txIn, { txIn with witness := some [[1]] }], [⟨0, [2]⟩], 0⟩

theorem pkScriptLocs_secondWitness :
    secondWitness.pkScriptLocs = [97] ∧ (secondWitness.serialize.drop 97).take 1 ≠ [2] ∧
      (secondWitness.serialize.drop 98).take 2 = [1, 2] := by
  decide

section Hashes
variable (doubleHash : Bytes → ChainHash)

def MsgTx.txHash (msg : MsgTx) : ChainHash := doubleHash msg.serializeNoWitness

def MsgTx.witnessHash (msg : MsgTx) : ChainHash :=
  if msg.hasWitness then doubleHash msg.serialize else msg.txHash doubleHash

/-- The witness hash is always the hash of what `Serialize` writes. -/
theorem witnessHash_eq (msg : MsgTx) : msg.witnessHash doubleHash = doubleHash msg.serialize := by
  unfold MsgTx.witnessHash
  split_ifs with h
  · rfl
  · rw [serialize_of_not_hasWitness (by simpa using h)]
    rfl

def BlockHeader.blockHash (h : BlockHeader) : ChainHash := doubleHash (writeBlockHeader h)

end Hashes

/-! ## Blocks -/

def blockHeaderLen : Nat := 80
def MsgBlock.serialize (msg : MsgBlock) : Bytes := msg.btcEncode witnessEncoding
def MsgBlock.serializeNoWitness (msg : MsgBlock) : Bytes := msg.btcEncode baseEncoding

def MsgBlock.serializeSize (msg : MsgBlock) : Nat :=
  blockHeaderLen + varIntSerializeSize (len64 msg.transactions.length) + (msg.transactions.map MsgTx.serializeSize).sum

def MsgBlock.serializeSizeStripped (msg : MsgBlock) : Nat :=
  blockHeaderLen + varIntSerializeSize (len64 msg.transactions.length) +
    (msg.transactions.map MsgTx.serializeSizeStripped).sum

theorem length_btcEncode_block {enc : MessageEncoding} {size : MsgTx → Nat}
    (hsize : ∀ tx : MsgTx, (tx.btcEncode enc).length = size tx) (msg : MsgBlock) : (msg.btcEncode enc).length =
      blockHeaderLen + varIntSerializeSize (len64 msg.transactions.length) + (msg.transactions.map size).sum := by
  simp only [MsgBlock.btcEncode, writeList, flatten_cons, flatten_nil, length_append, length_writeVarInt,
    length_writeBlockHeader, length_flatten_map hsize, blockHeaderLen, length_nil]
  omega

/-- Where the transaction with a number starts in the encoding of its block. -/
def MsgBlock.txStart (msg : MsgBlock) (i : Nat) : Nat :=
  blockHeaderLen + varIntSerializeSize (len64 msg.transactions.length) +
    ((msg.transactions.take i).map MsgTx.serializeSize).sum

variable {i : Nat} {tx : MsgTx}

theorem txStart_succ {msg : MsgBlock} (h : msg.transactions[i]? = some tx) :
    msg.txStart (i + 1) = msg.txStart i + tx.serializeSize := by
  unfold MsgBlock.txStart
  rw [take_add_one, h]
  simp
  omega

theorem serialize_block_ne_nil (msg : MsgBlock) : msg.serialize ≠ [] := by
  intro h
  have hlen := congrArg length h
  rw [MsgBlock.serialize, MsgBlock.btcEncode] at hlen
  simp [length_writeBlockHeader] at hlen

theorem serialize_block_eq (msg : MsgBlock) :
    msg.serialize = writeBlockHeader msg.header ++ (writeVarInt (len64 msg.transactions.length) ++
      (msg.transactions.map MsgTx.serialize).flatten) := by
  rw [MsgBlock.serialize, MsgBlock.btcEncode, flatten_cons, flatten_cons, flatten_nil, append_nil]
  rfl

/-- What the encoding of a block holds before a transaction. -/
def MsgBlock.before (msg : MsgBlock) (i : Nat) : Bytes :=
  writeBlockHeader msg.header ++ (writeVarInt (len64 msg.transactions.length) ++
    ((msg.transactions.take i).map MsgTx.serialize).flatten)

theorem length_before (msg : MsgBlock) (i : Nat) : (msg.before i).length = msg.txStart i := by
  rw [MsgBlock.before, length_append, length_append, length_writeBlockHeader, length_writeVarInt,
    length_flatten_map length_serialize, MsgBlock.txStart, blockHeaderLen, Nat.add_assoc]

/-- A block is cut at a transaction. -/
theorem serialize_split {msg : MsgBlock} (h : msg.transactions[i]? = some tx) :
    ∃ after, msg.serialize = msg.before i ++ (tx.serialize ++ after) := by
  rw [serialize_block_eq, flatten_map_split h, MsgBlock.before]
  simp only [append_assoc]
  exact ⟨_, rfl⟩

/-- The transaction, cut out of an encoding of its block that may go on. -/
theorem slice_serialize {msg : MsgBlock} (h : msg.transactions[i]? = some tx) (rest : Bytes) :
    slice (msg.serialize ++ rest) (msg.txStart i) (msg.txStart i + tx.serializeSize) = .ok tx.serialize := by
  obtain ⟨after, hcut⟩ := serialize_split h
  have hlen := length_before msg i
  have hsize := length_serialize tx
  have hall : msg.serialize ++ rest = msg.before i ++ (tx.serialize ++ (after ++ rest)) := by
    rw [hcut, append_assoc, append_assoc]
  rw [hall, slice_ok (Nat.le_add_right ..)]
  · rw [drop_left' hlen, Nat.add_sub_cancel_left, ← hsize, take_left]
  · simp only [length_append]
    omega

/-! ## Locations -/

structure TxLoc where
  txStart : Nat
  txLen : Nat
deriving DecidableEq, Repr

/-- The loop of `DeserializeTxLoc`; the reader is asked how much is left, so it is a stream here. -/
def txLocsFrom (fullLen : Nat) : Nat → Bytes → Bytes → Except WireError (List (MsgTx × TxLoc))
  | 0, _, _ => .ok []
  | n + 1, scriptBuf, r => do
    let tx ← (MsgTx.btcDecodeBuf witnessEncoding scriptBuf).run r
    let rest ← txLocsFrom fullLen n tx.1.2 tx.2
    return (tx.1.1, ⟨fullLen - r.length, (fullLen - tx.2.length) - (fullLen - r.length)⟩) :: rest

/-- `DeserializeTxLoc`, with the block it fills. -/
def MsgBlock.deserializeTxLoc (slab : ScriptSlab) (r : Bytes) : Except WireError (MsgBlock × List TxLoc) := do
  let header ← readBlockHeader.run r
  let txCount ← readVarInt.run header.2
  let count := txCount.1
  failIf (maxTxPerBlock < count.toNat) (.message "MsgBlock.DeserializeTxLoc"
    s!"too many transactions to fit into a block [count {count}, max {maxTxPerBlock}]")
  let found ← txLocsFrom r.length count.toNat slab.bytes txCount.2
  return (⟨header.1, found.map Prod.fst⟩, found.map Prod.snd)

theorem btcDecodeBuf_run {buf r rest : Bytes} {x : MsgTx × Bytes} (hbuf : buf.length = scriptSlabSize)
    (h : (MsgTx.btcDecodeBuf witnessEncoding buf).run r = .ok (x, rest)) :
    x.2.length = scriptSlabSize ∧ r = x.1.serialize ++ rest := by
  rcases sim_btcDecodeBuf witnessEncoding hbuf r with ⟨e, hp, -⟩ | ⟨a, tx, rest', hp, hq, rfl, hlen⟩
  · rw [h] at hp
    cases hp
  · rw [h] at hp
    cases hp
    obtain ⟨u, rfl, hu⟩ := run_eq_ok.mp hq
    obtain ⟨-, rfl⟩ := (format_decodeValues ..).mp hu
    exact ⟨hlen, rfl⟩

/-- The loop reads what the loop of `BtcDecode` reads, and every location is where the one before it ends. -/
theorem txLocsFrom_ok {fullLen n : Nat} {buf r : Bytes} {found : List (MsgTx × TxLoc)}
    (hbuf : buf.length = scriptSlabSize) (hr : r.length ≤ fullLen) (h : txLocsFrom fullLen n buf r = .ok found) :
    found.length = n ∧
    (∃ x rest, (iterate (MsgTx.btcDecodeBuf witnessEncoding) n buf).run r = .ok (x, rest) ∧ x.1 = found.map Prod.fst) ∧
    ∀ i tx (loc : TxLoc), found[i]? = some (tx, loc) →
      loc = ⟨fullLen - r.length + ((found.take i).map fun x => x.1.serializeSize).sum, tx.serializeSize⟩ := by
  induction n generalizing buf r found with
  | zero =>
    cases h
    exact ⟨rfl, ⟨([], buf), r, rfl, rfl⟩, by simp⟩
  | succ n ih =>
    obtain ⟨tx, hrun, h⟩ := bind_eq_ok.mp h
    obtain ⟨found', hfound, h⟩ := bind_eq_ok.mp h
    cases h
    obtain ⟨hbuf', hcut⟩ := btcDecodeBuf_run hbuf hrun
    have hlen : r.length = tx.1.1.serializeSize + tx.2.length := by
      rw [hcut, length_append, length_serialize]
    obtain ⟨hn, ⟨x, rest, hx, hmap⟩, hlocs⟩ := ih hbuf' (by omega) hfound
    refine ⟨congrArg (· + 1) hn, ⟨(tx.1.1 :: x.1, x.2), rest, ?_, congrArg (tx.1.1 :: ·) hmap⟩, ?_⟩
    · rw [iterate, run_bind_ok hrun, run_bind_ok hx]
      rfl
    · intro i tx' loc hi
      cases i with
      | zero =>
        cases hi
        simp
        omega
      | succ i =>
        rw [hlocs i tx' loc hi]
        simp
        omega

theorem deserializeTxLoc_ok {slab : ScriptSlab} {s : Bytes} {block : MsgBlock} {locs : List TxLoc}
    (h : MsgBlock.deserializeTxLoc slab s = .ok (block, locs)) :
    (∃ rest, (MsgBlock.btcDecode witnessEncoding slab).run s = .ok (block, rest)) ∧
      locs.length = block.transactions.length ∧
      ∀ i tx, block.transactions[i]? = some tx → locs[i]? = some (TxLoc.mk (block.txStart i) tx.serializeSize) := by
  obtain ⟨header, hheader, h⟩ := bind_eq_ok.mp h
  obtain ⟨txCount, hcount, h⟩ := bind_eq_ok.mp h
  obtain ⟨hmax, h⟩ := failIf_bind_eq_ok.mp h
  obtain ⟨found, hfound, h⟩ := bind_eq_ok.mp h
  cases h
  obtain ⟨u₁, hs, hu₁⟩ := run_eq_ok.mp hheader
  obtain ⟨u₂, hr, hu₂⟩ := run_eq_ok.mp hcount
  obtain ⟨-, rfl⟩ := (format_readBlockHeader ..).mp hu₁
  obtain ⟨-, rfl⟩ := (format_readVarInt ..).mp hu₂
  have hlen : s.length = 80 + varIntSerializeSize txCount.1 + txCount.2.length := by
    rw [hs, hr, length_append, length_append, length_writeBlockHeader, length_writeVarInt, Nat.add_assoc]
  obtain ⟨hn, ⟨x, rest, hx, hmap⟩, hlocs⟩ := txLocsFrom_ok slab.length_eq (by omega) hfound
  refine ⟨⟨rest, ?_⟩, by simp, fun i tx htx => ?_⟩
  · rw [MsgBlock.btcDecode, run_bind_ok hheader, run_bind_ok hcount, refuse, if_neg hmax, run_bind_ok rfl,
      run_bind_ok hx, hmap]
    rfl
  · rw [getElem?_map] at htx ⊢
    obtain ⟨⟨tx', loc⟩, hi, rfl⟩ := Option.map_eq_some_iff.mp htx
    rw [hi, hlocs i tx' loc hi]
    simp [MsgBlock.txStart, blockHeaderLen, len64_of_length hn, ← map_take, Function.comp_def]
    omega

/-- **The sizes are those of the encodings, and the locations those of the transactions.** -/
theorem block_sizes_and_locations : (∀ msg : MsgBlock, msg.serializeSize = msg.serialize.length ∧
      msg.serializeSizeStripped = msg.serializeNoWitness.length) ∧
    ∀ slab s block locs, MsgBlock.deserializeTxLoc slab s = .ok (block, locs) →
      (∃ rest, ∀ slab', (MsgBlock.btcDecode witnessEncoding slab').run s = .ok (block, rest)) ∧
      locs.length = block.transactions.length ∧
      (∀ i (loc loc' : TxLoc), locs[i]? = some loc → locs[i + 1]? = some loc' → loc'.txStart = loc.txStart + loc.txLen) ∧
      ∀ (i : Nat) (tx : MsgTx), block.transactions[i]? = some tx →
        ∃ loc : TxLoc, locs[i]? = some loc ∧ slice s loc.txStart (loc.txStart + loc.txLen) = .ok tx.serialize := by
  refine ⟨fun msg => ⟨(length_btcEncode_block length_serialize msg).symm,
    (length_btcEncode_block length_serializeNoWitness msg).symm⟩, fun slab s block locs h => ?_⟩
  obtain ⟨⟨rest, hrun⟩, hlen, hlocs⟩ := deserializeTxLoc_ok h
  refine ⟨⟨rest, fun slab' => ?_⟩, hlen, fun i loc loc' hi hi' => ?_, fun i tx htx => ⟨_, hlocs i tx htx, ?_⟩⟩
  · rw [btcDecode_block_eq] at hrun ⊢
    exact hrun
  · obtain ⟨hlt, -⟩ := List.getElem?_eq_some_iff.mp hi'
    rw [hlen] at hlt
    have htx := getElem?_eq_getElem (Nat.lt_of_succ_lt hlt)
    rw [hlocs i _ htx] at hi
    rw [hlocs (i + 1) _ (getElem?_eq_getElem hlt)] at hi'
    cases hi
    cases hi'
    exact txStart_succ htx
  · obtain ⟨u, rfl, hu⟩ := run_eq_ok.mp hrun
    obtain ⟨-, rfl⟩ := (format_btcDecode_block ..).mp hu
    exact slice_serialize htx rest

end NogoCommons.Wire
