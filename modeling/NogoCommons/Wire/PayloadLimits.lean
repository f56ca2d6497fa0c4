import NogoCommons.Wire.Block
import Mathlib.Algebra.Order.BigOperators.Group.List

/-!
# What a payload of bounded length can hold

The decoders of transactions and blocks have limits that their encoders do not have. A payload that may be sent at all is
not longer than `maxProtocolMessageLength`, and this is enough to keep a transaction within the limits
(`decodable_of_length`): every input takes at least 41 bytes, every output nine, every witness item one, and all scripts
together are shorter than the slab.
-/

namespace NogoCommons.Wire
open Lib Reader List

def maxProtocolMessageLength : Nat := 4 * 1000 * 1000

/-- Elements of a least size take at least so much, and all that they hold besides. -/
theorem le_length_flatten {α : Type} {w : α → Bytes} {size : α → Nat} {least : Nat}
    (hw : ∀ a, least + size a ≤ (w a).length) (as : List α) :
    least * as.length + (as.map size).sum ≤ (as.map w).flatten.length := by
  induction as with
  | nil => exact Nat.zero_le _
  | cons a as ih =>
    have ha := hw a
    simp only [map_cons, flatten_cons, length_append, length_cons, sum_cons, Nat.mul_succ]
    omega

theorem le_sum_map {α : Type} (size : α → Nat) {as : List α} {a : α} (h : a ∈ as) : size a ≤ (as.map size).sum :=
  single_le_sum (fun _ _ => Nat.zero_le _) _ (mem_map_of_mem h)

theorem le_length_writeTxIn (ti : TxIn) : 41 + ti.signatureScript.length ≤ (writeTxIn ti).length := by
  have hpos := varIntSerializeSize_pos (len64 ti.signatureScript.length)
  simp only [writeTxIn, writeOutPoint, flatten_cons, flatten_nil, append_nil, length_append,
    FixedBytes.bytes_length, putUint32LE_length, length_writeVarBytes]
  omega

theorem le_length_writeTxOut (out : TxOut) : 9 + out.pkScript.length ≤ (writeTxOut out).length := by
  have hpos := varIntSerializeSize_pos (len64 out.pkScript.length)
  simp only [writeTxOut, flatten_cons, flatten_nil, append_nil, length_append, length_leBytes, length_writeVarBytes]
  omega

theorem le_length_writeVarBytes (bs : Bytes) : 1 + bs.length ≤ (writeVarBytes bs).length := by
  have hpos := varIntSerializeSize_pos (len64 bs.length)
  rw [length_writeVarBytes]
  omega

theorem le_length_writeTxWitness (items : List Bytes) :
    items.length + (items.map length).sum ≤ (writeTxWitness items).length := by
  have hitems := le_length_flatten le_length_writeVarBytes items
  rw [writeTxWitness, writeList, length_append]
  omega

theorem le_length_txIns (tins : List TxIn) : 41 * tins.length + signatureSize tins ≤ (tins.map writeTxIn).flatten.length :=
  le_length_flatten le_length_writeTxIn tins

theorem le_length_txOuts (outs : List TxOut) :
    1 + 9 * outs.length + pkSize outs ≤ (writeList writeTxOut outs).length := by
  have houts := le_length_flatten le_length_writeTxOut outs
  have hcount := varIntSerializeSize_pos (len64 outs.length)
  rw [writeList, length_append, length_writeVarInt, pkSize]
  omega

/-- The number of witness items. -/
def itemCount (tins : List TxIn) : Nat := (tins.map fun ti => ti.items.length).sum

theorem le_length_witnesses (tx : MsgTx) : itemCount tx.txIn + witnessSize tx.txIn ≤
    (tx.txIn.map fun ti => writeTxWitness ti.items).flatten.length := by
  have hwitness : ∀ ti : TxIn, 0 + (ti.items.length + (ti.items.map length).sum) ≤
      (writeTxWitness ti.items).length := fun ti => (Nat.zero_add _).le.trans (le_length_writeTxWitness ti.items)
  have hsplit : (tx.txIn.map fun ti => ti.items.length + (ti.items.map length).sum).sum =
      itemCount tx.txIn + witnessSize tx.txIn := sum_map_add
  rw [← hsplit]
  exact (Nat.le_add_left ..).trans (le_length_flatten hwitness tx.txIn)

theorem itemCount_eq_zero {tins : List TxIn} (hnone : ∀ ti ∈ tins, ti.witness = none) : itemCount tins = 0 := by
  apply sum_eq_zero
  intro n hn
  obtain ⟨ti, hti, rfl⟩ := mem_map.mp hn
  rw [items_of_witness_none (hnone ti hti)]
  rfl

variable {enc : MessageEncoding} {tx : MsgTx}

/-- All there is in a transaction that was decoded was in the bytes. -/
theorem le_length_btcEncode (hbare : (∀ ti ∈ tx.txIn, ti.witness = none) ∨
      enc = witnessEncoding ∧ tx.hasWitness = true) :
    10 + 41 * tx.txIn.length + 9 * tx.txOut.length + tx.scriptSize + itemCount tx.txIn ≤
      (tx.btcEncode enc).length := by
  have hins := le_length_txIns tx.txIn
  have houts := le_length_txOuts tx.txOut
  have hcount := varIntSerializeSize_pos (len64 tx.txIn.length)
  rw [MsgTxOf.scriptSize]
  rcases hbare with hnone | ⟨rfl, hhas⟩
  · rw [btcEncode_of_bare (by rw [hasWitness_eq_false hnone, Bool.and_false]), witnessSize_eq_zero hnone,
      itemCount_eq_zero hnone]
    simp only [length_append, putUint32LE_length, length_writeVarInt]
    omega
  · have hwitnesses := le_length_witnesses tx
    rw [btcEncode_of_hasWitness hhas]
    simp only [length_append, putUint32LE_length, length_writeVarInt]
    omega

/-- Either no input has a witness, or all have one and it is encoded. -/
def Uniform (enc : MessageEncoding) (tx : MsgTx) : Prop :=
  (∀ ti ∈ tx.txIn, ti.witness = none) ∨
    enc = witnessEncoding ∧ tx.hasWitness = true ∧ ∀ ti ∈ tx.txIn, ∃ items, ti.witness = some items

theorem uniform_decoded (enc : MessageEncoding) (tx : MsgTx) : Uniform enc (tx.decoded enc) := by
  rw [MsgTx.decoded]
  split_ifs with hdo
  · obtain ⟨henc, hhas⟩ := Bool.and_eq_true_iff.mp hdo
    refine .inr ⟨eq_of_beq henc, (hasWitness_orEmpty tx).trans hhas, ?_⟩
    intro ti hti
    obtain ⟨t, -, rfl⟩ := mem_map.mp hti
    exact ⟨t.items, rfl⟩
  · exact .inl witness_bare

/-- A transaction of a message is within the limits of the decoder. -/
theorem Uniform.decodable (h : Uniform enc tx) (hin : tx.txIn ≠ [])
    (hlen : (tx.btcEncode enc).length ≤ maxProtocolMessageLength) : Decodable enc tx := by
  have hall := (le_length_btcEncode (h.imp_right fun hw => ⟨hw.1, hw.2.1⟩)).trans hlen
  simp only [MsgTxOf.scriptSize, maxProtocolMessageLength] at hall
  have hsize : tx.scriptSize ≤ scriptSlabSize := by
    rw [MsgTxOf.scriptSize, scriptSlabSize]
    omega
  refine ⟨?_, ?_, ?_, ?_, hsize, fun _ => hin, ?_⟩
  · have : maxTxInPerMessage = 818401 := by decide
    omega
  · have : maxTxOutPerMessage = 3728271 := by decide
    omega
  · intro ti hti
    have hti' : ti.signatureScript.length ≤ signatureSize tx.txIn :=
      le_sum_map (fun ti : TxIn => ti.signatureScript.length) hti
    rw [maxWitnessItemSize]
    omega
  · intro out hout
    have hout' : out.pkScript.length ≤ pkSize tx.txOut := le_sum_map (fun out : TxOut => out.pkScript.length) hout
    rw [maxWitnessItemSize]
    omega
  · rcases h with hnone | ⟨henc, hhas, hsome⟩
    · exact .inl hnone
    · refine .inr ⟨henc, hhas, ?_⟩
      intro ti hti
      obtain ⟨items, hw⟩ := hsome ti hti
      have hitems : ti.items = items := by rw [TxInOf.items, hw]; rfl
      have hcount : ti.items.length ≤ itemCount tx.txIn := le_sum_map (fun ti : TxIn => ti.items.length) hti
      have hbytes : (ti.items.map length).sum ≤ witnessSize tx.txIn :=
        le_sum_map (fun ti : TxIn => (ti.items.map length).sum) hti
      rw [hitems] at hcount hbytes
      refine ⟨items, hw, by rw [maxWitnessItemsPerInput]; omega, ?_⟩
      intro item hitem
      have hitem' : item.length ≤ (items.map length).sum := le_sum_map _ hitem
      rw [maxWitnessItemSize]
      omega

theorem txIn_decoded_ne_nil (enc : MessageEncoding) (h : tx.txIn ≠ []) : (tx.decoded enc).txIn ≠ [] := by
  intro hnil
  apply h
  rw [MsgTx.decoded] at hnil
  split_ifs at hnil
  · exact map_eq_nil_iff.mp hnil
  · exact map_eq_nil_iff.mp hnil

theorem decodable_of_length (hin : tx.txIn ≠ [])
    (hlen : (tx.btcEncode enc).length ≤ maxProtocolMessageLength) : Decodable enc (tx.decoded enc) := by
  apply (uniform_decoded enc tx).decodable (txIn_decoded_ne_nil enc hin)
  rwa [btcEncode_decoded]

/-! ## Blocks -/

theorem le_length_tx (tx : MsgTx) : 10 + 0 ≤ (tx.btcEncode enc).length := by
  have h := le_length_btcEncode ((uniform_decoded enc tx).imp_right fun hw => ⟨hw.1, hw.2.1⟩)
  rw [btcEncode_decoded] at h
  omega

/-- A block as it is after it has been encoded and decoded. -/
def MsgBlock.onWire (msg : MsgBlock) (enc : MessageEncoding) : MsgBlock where
  header := msg.header.truncate
  transactions := msg.transactions.map fun tx => MsgTx.decoded enc tx

theorem btcEncode_block_onWire (msg : MsgBlock) (enc : MessageEncoding) :
    (msg.onWire enc).btcEncode enc = msg.btcEncode enc := by
  have htxs : ((msg.transactions.map fun tx => MsgTx.decoded enc tx).map fun tx => MsgTx.btcEncode tx enc) =
      msg.transactions.map fun tx => MsgTx.btcEncode tx enc := by
    rw [map_map]
    apply map_congr_left
    intro tx _
    exact btcEncode_decoded enc tx
  simp only [MsgBlock.btcEncode, MsgBlock.onWire, writeBlockHeader_truncate, writeList, length_map, htxs]

/-- A block of a message is decoded. -/
theorem reads_btcDecode_block {msg : MsgBlock} (slab : ScriptSlab)
    (hin : ∀ tx ∈ msg.transactions, tx.txIn ≠ []) (hlen : (msg.btcEncode enc).length ≤ maxProtocolMessageLength) :
    (MsgBlock.btcDecode enc slab).Reads (msg.btcEncode enc) (msg.onWire enc) := by
  rw [← btcEncode_block_onWire]
  apply (format_btcDecode_block enc slab).reads
  have htxs : (msg.transactions.map fun tx => MsgTx.btcEncode tx enc).flatten.length ≤ maxProtocolMessageLength := by
    refine Nat.le_trans ?_ hlen
    simp only [MsgBlock.btcEncode, writeList, flatten_cons, length_append]
    omega
  refine ⟨Time.fits_ofUint32 _, ?_, ?_⟩
  · have hcount := (le_length_flatten le_length_tx msg.transactions).trans htxs
    have hmax : maxTxPerBlock = 400001 := by decide
    rw [maxProtocolMessageLength] at hcount
    show (msg.transactions.map _).length ≤ _
    rw [length_map]
    omega
  · intro tx htx
    obtain ⟨t, ht, rfl⟩ := mem_map.mp htx
    apply decodable_of_length (hin t ht)
    refine Nat.le_trans ?_ htxs
    rw [length_flatten]
    exact le_sum_map length (mem_map_of_mem ht)

end NogoCommons.Wire
