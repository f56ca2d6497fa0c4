import NogoCommons.Wire.Tx

/-!
# The format of transactions

What the decoder accepts is a format: a transaction is read from its encoding and from nothing else
(`format_btcDecode`). Two things stand in the way of a simple proof. The scripts go through a slab; and a list may not be
longer than its limit, but neither may the scripts of all the lists together be longer than the slab.

For the first there is a decoder that returns the scripts as they are, and only counts how much of the slab would be used
(`valueScratch`). The two decoders do the same on every stream (`sim_scan`): what the one keeps as a slice, the other has
as a value, and the slab holds that value in that slice from then on. Moving the scripts gives the values
(`relocate_eq`), since the buffer they are moved to is as large as all of them.

For the second, every step refuses what does not fit behind what came before; that all steps go well says that everything
together fits (`allFrom_room`).
-/

namespace NogoCommons.Wire
open Lib Reader List

/-! ## The decoder that returns the scripts -/

def valueScratch : Scratch Bytes Nat where
  room used := scriptSlabSize - used
  keep used script := (script, used + script.length)

/-- What the signature scripts, the public key scripts and the witnesses take up. -/
def signatureSize (tins : List TxIn) : Nat := (tins.map fun ti => ti.signatureScript.length).sum
def pkSize (outs : List TxOut) : Nat := (outs.map fun out => out.pkScript.length).sum
def witnessSize (tins : List TxIn) : Nat := (tins.map fun ti => (ti.items.map length).sum).sum
def MsgTxOf.scriptSize (tx : MsgTx) : Nat := signatureSize tx.txIn + pkSize tx.txOut + witnessSize tx.txIn

/-- A witness that the decoder takes. -/
def WitnessFits (items : List Bytes) : Prop :=
  items.length ≤ maxWitnessItemsPerInput ∧ ∀ item ∈ items, item.length ≤ maxWitnessItemSize

/-- The transactions that the decoder returns. -/
structure Decodable (enc : MessageEncoding) (tx : MsgTx) : Prop where
  txIn_le : tx.txIn.length ≤ maxTxInPerMessage
  txOut_le : tx.txOut.length ≤ maxTxOutPerMessage
  signatureScripts : ∀ ti ∈ tx.txIn, ti.signatureScript.length ≤ maxWitnessItemSize
  pkScripts : ∀ out ∈ tx.txOut, out.pkScript.length ≤ maxWitnessItemSize
  size : tx.scriptSize ≤ scriptSlabSize
  some_txIn : enc = witnessEncoding → tx.txIn ≠ []
  witnesses : (∀ ti ∈ tx.txIn, ti.witness = none) ∨
    enc = witnessEncoding ∧ tx.hasWitness = true ∧ ∀ ti ∈ tx.txIn, ∃ items, ti.witness = some items ∧ WitnessFits items

/-- A reader that takes the bytes of a value from the slab: it reads the `good` values that the slab has room for, and
counts their `size` as used. -/
def SlabReads {α : Type} (p : Nat → WireReader (α × Nat)) (good : α → Prop) (size : α → Nat) (w : α → Bytes) : Prop :=
  ∀ used u a used', (p used).Reads u (a, used') ↔
    (good a ∧ size a ≤ scriptSlabSize - used) ∧ used' = used + size a ∧ u = w a

section Room
variable {α : Type} {good : α → Prop} {size : α → Nat} {used n : Nat} {β : Type} {u : Bytes} {b : β}

/-- That each in its turn fits behind the ones before says that all of them fit. -/
theorem allFrom_room (as : List α) :
    AllFrom (fun used a => good a ∧ size a ≤ scriptSlabSize - used) (fun used a => used + size a) used as ↔
      (∀ a ∈ as, good a) ∧ (as.map size).sum ≤ scriptSlabSize - used := by
  induction as generalizing used with
  | nil => simp [AllFrom]
  | cons a as ih =>
    rw [AllFrom, ih, map_cons, sum_cons, forall_mem_cons]
    constructor
    · rintro ⟨⟨hgood, ha⟩, hall, hsum⟩
      exact ⟨⟨hgood, hall⟩, by omega⟩
    · rintro ⟨⟨hgood, hall⟩, hsum⟩
      exact ⟨⟨hgood, by omega⟩, hall, by omega⟩

theorem foldl_room (used : Nat) (as : List α) :
    as.foldl (fun used a => used + size a) used = used + (as.map size).sum := by
  induction as generalizing used with
  | nil => rfl
  | cons a as ih => rw [foldl_cons, ih, map_cons, sum_cons, Nat.add_assoc]

/-- A list of things that take up room. -/
theorem reads_iterate_room {p : Nat → WireReader (α × Nat)} {w : α → Bytes} (hp : SlabReads p good size w)
    (n used : Nat) (u : Bytes) (as : List α) (used' : Nat) : (iterate p n used).Reads u (as, used') ↔
      as.length = n ∧ ((∀ a ∈ as, good a) ∧ (as.map size).sum ≤ scriptSlabSize - used) ∧
        used' = used + (as.map size).sum ∧ u = (as.map w).flatten := by
  rw [reads_iterate hp, allFrom_room, foldl_room]

end Room

/-! ### Scripts, inputs and outputs -/

theorem reads_readScriptBuf (fieldName : String) : SlabReads (readScriptBuf valueScratch fieldName)
    (fun script => script.length ≤ maxWitnessItemSize) length writeVarBytes := by
  intro used u script used'
  rw [readScriptBuf, format_readVarInt.reads_bind]
  constructor
  · rintro ⟨count, -, v, rfl, hv⟩
    obtain ⟨hmax, hv⟩ := reads_refuse_bind.mp hv
    obtain ⟨hroom, hv⟩ := reads_refuse_bind.mp hv
    obtain ⟨bs, v, v', rfl, hfull, hpure⟩ := reads_bind.mp hv
    obtain ⟨hlen, rfl⟩ := reads_readFull.mp hfull
    obtain ⟨rfl, ⟨⟩⟩ := reads_pure.mp hpure
    have hroom' : ¬ scriptSlabSize - used < count.toNat := hroom
    refine ⟨⟨by omega, by omega⟩, rfl, ?_⟩
    rw [writeVarBytes, hlen, len64, UInt64.ofNat_toNat, append_nil]
  · rintro ⟨⟨hmax, hroom⟩, rfl, rfl⟩
    have hcount := toNat_len64 (hmax.trans_lt (by decide))
    refine ⟨len64 script.length, trivial, script, rfl, ?_⟩
    refine reads_refuse_bind.mpr ⟨by rw [hcount]; exact Nat.not_lt.mpr hmax, ?_⟩
    refine reads_refuse_bind.mpr ⟨by rw [hcount]; exact Nat.not_lt.mpr hroom, ?_⟩
    rw [hcount]
    exact reads_bind.mpr ⟨script, script, [], (append_nil _).symm, reads_readFull.mpr ⟨rfl, rfl⟩,
      reads_pure.mpr ⟨rfl, rfl⟩⟩

theorem format_readOutPoint : Format readOutPoint (fun _ => True) writeOutPoint := by
  refine ((format_readArray 32).field OutPoint.hash fun hash => format_readUint32LE.field OutPoint.index fun index =>
    formatOf_pure ?_).format (by simp) fun _ => rfl
  rintro ⟨⟩
  simp

theorem reads_readTxInBuf : SlabReads (readTxInBuf valueScratch)
    (fun ti => ti.signatureScript.length ≤ maxWitnessItemSize ∧ ti.witness = none) (·.signatureScript.length)
    writeTxIn := by
  intro used u ti used'
  rw [readTxInBuf, format_readOutPoint.reads_bind]
  constructor
  · rintro ⟨op, -, v, rfl, hv⟩
    obtain ⟨⟨script, used₁⟩, v₁, v₂, rfl, hscript, hrest⟩ := reads_bind.mp hv
    obtain ⟨⟨hmax, hroom⟩, rfl, rfl⟩ := (reads_readScriptBuf ..).mp hscript
    obtain ⟨sequence, -, v₃, rfl, hpure⟩ := format_readUint32LE.reads_bind.mp hrest
    obtain ⟨rfl, ⟨⟩⟩ := reads_pure.mp hpure
    exact ⟨⟨⟨hmax, rfl⟩, hroom⟩, rfl, rfl⟩
  · obtain ⟨op, script, witness, sequence⟩ := ti
    rintro ⟨⟨⟨hmax, hnone⟩, hroom⟩, rfl, rfl⟩
    obtain rfl : witness = none := hnone
    refine ⟨op, trivial, _, rfl, reads_bind.mpr ⟨(script, used + script.length), _, _, rfl, ?_, ?_⟩⟩
    · exact (reads_readScriptBuf ..).mpr ⟨⟨hmax, hroom⟩, rfl, rfl⟩
    · exact format_readUint32LE.reads_bind.mpr ⟨sequence, trivial, [], rfl, reads_pure.mpr ⟨rfl, rfl⟩⟩

theorem reads_readTxOutBuf : SlabReads (readTxOutBuf valueScratch)
    (fun out => out.pkScript.length ≤ maxWitnessItemSize) (·.pkScript.length) writeTxOut := by
  intro used u out used'
  rw [readTxOutBuf, format_readInt64LE.reads_bind]
  constructor
  · rintro ⟨value, -, v, rfl, hv⟩
    obtain ⟨⟨script, used₁⟩, v₁, v₂, rfl, hscript, hpure⟩ := reads_bind.mp hv
    obtain ⟨hfits, rfl, rfl⟩ := (reads_readScriptBuf ..).mp hscript
    obtain ⟨rfl, ⟨⟩⟩ := reads_pure.mp hpure
    exact ⟨hfits, rfl, rfl⟩
  · rintro ⟨hfits, rfl, rfl⟩
    refine ⟨out.value, trivial, _, rfl, reads_bind.mpr ⟨(out.pkScript, used + out.pkScript.length), _, [], rfl, ?_, ?_⟩⟩
    · exact (reads_readScriptBuf ..).mpr ⟨hfits, rfl, rfl⟩
    · exact reads_pure.mpr ⟨rfl, rfl⟩

theorem reads_readTxWitness :
    SlabReads (readTxWitness valueScratch) WitnessFits (fun items => (items.map length).sum) writeTxWitness := by
  intro used u items used'
  rw [readTxWitness, format_readVarInt.reads_bind]
  constructor
  · rintro ⟨count, -, v, rfl, hv⟩
    obtain ⟨hmax, hv⟩ := reads_refuse_bind.mp hv
    obtain ⟨hlen, ⟨hall, hroom⟩, rfl, rfl⟩ := (reads_iterate_room (reads_readScriptBuf _) ..).mp hv
    refine ⟨⟨⟨by omega, hall⟩, hroom⟩, rfl, ?_⟩
    rw [writeTxWitness, writeList, hlen, len64, UInt64.ofNat_toNat]
  · rintro ⟨⟨⟨hmax, hall⟩, hroom⟩, rfl, rfl⟩
    have hcount := toNat_len64 (hmax.trans_lt (by decide))
    refine ⟨len64 items.length, trivial, _, rfl, ?_⟩
    refine reads_refuse_bind.mpr ⟨by rw [hcount]; exact Nat.not_lt.mpr hmax, ?_⟩
    rw [hcount]
    exact (reads_iterate_room (reads_readScriptBuf _) ..).mpr ⟨rfl, ⟨hall, hroom⟩, rfl, rfl⟩

/-! ### The flag and the witnesses -/

theorem reads_readTxInCount (enc : MessageEncoding) (u : Bytes) (flag : UInt8) (count : UInt64) :
    (readTxInCount enc).Reads u (flag, count) ↔
      flag = 0 ∧ ¬ (count = 0 ∧ enc = witnessEncoding) ∧ u = writeVarInt count ∨
        flag = witnessFlag ∧ enc = witnessEncoding ∧ u = [txFlagMarker, witnessFlag] ++ writeVarInt count := by
  rw [readTxInCount, format_readVarInt.reads_bind]
  constructor
  · rintro ⟨first, -, v, rfl, hv⟩
    split_ifs at hv with hmarker
    · obtain ⟨rfl, henc⟩ := hmarker
      obtain ⟨f, -, v₁, rfl, hv₁⟩ := format_readUint8.reads_bind.mp hv
      obtain ⟨hflag, hv₂⟩ := reads_refuse_bind.mp hv₁
      obtain ⟨c, -, v₃, rfl, hpure⟩ := format_readVarInt.reads_bind.mp hv₂
      obtain ⟨rfl, heq⟩ := reads_pure.mp hpure
      obtain ⟨rfl, rfl⟩ := Prod.mk.inj heq
      obtain rfl : f = witnessFlag := Decidable.not_not.mp hflag
      exact .inr ⟨rfl, henc, by rw [append_nil]; rfl⟩
    · obtain ⟨rfl, ⟨⟩⟩ := reads_pure.mp hv
      exact .inl ⟨rfl, hmarker, append_nil _⟩
  · rintro (⟨rfl, hmarker, rfl⟩ | ⟨rfl, henc, rfl⟩)
    · refine ⟨count, trivial, [], (append_nil _).symm, ?_⟩
      rw [if_neg hmarker]
      exact reads_pure.mpr ⟨rfl, rfl⟩
    · refine ⟨0, trivial, witnessFlag :: writeVarInt count, rfl, ?_⟩
      rw [if_pos ⟨rfl, henc⟩]
      refine format_readUint8.reads_bind.mpr ⟨witnessFlag, trivial, writeVarInt count, rfl, ?_⟩
      refine reads_refuse_bind.mpr ⟨fun h => h rfl, ?_⟩
      exact format_readVarInt.reads_bind.mpr
        ⟨count, trivial, [], (append_nil _).symm, reads_pure.mpr ⟨rfl, rfl⟩⟩

/-- An input as it is before its witness has been read. -/
def TxInOf.bare {σ : Type} (ti : TxInOf σ) : TxInOf σ := { ti with witness := none }

theorem setWitnesses_bare {tins : List TxIn} (hsome : ∀ ti ∈ tins, ∃ items, ti.witness = some items) :
    setWitnesses (tins.map TxInOf.bare) (tins.map TxInOf.items) = tins := by
  induction tins with
  | nil => rfl
  | cons ti tins ih =>
    obtain ⟨items, hitems⟩ := hsome ti mem_cons_self
    have hti : { ti.bare with witness := some ti.items } = ti := by
      rw [TxInOf.items, hitems]
      obtain ⟨op, script, witness, sequence⟩ := ti
      obtain rfl : witness = some items := hitems
      rfl
    exact congrArg₂ List.cons hti (ih fun t ht => hsome t (mem_cons_of_mem _ ht))

theorem bare_setWitnesses {ins : List TxIn} (hnone : ∀ ti ∈ ins, ti.witness = none) :
    ∀ {witnesses}, witnesses.length = ins.length →
      ins = (setWitnesses ins witnesses).map TxInOf.bare ∧ witnesses = (setWitnesses ins witnesses).map TxInOf.items ∧
        ∀ ti ∈ setWitnesses ins witnesses, ∃ items ∈ witnesses, ti.witness = some items := by
  induction ins with
  | nil =>
    intro witnesses hlen
    obtain rfl := length_eq_zero_iff.mp hlen
    exact ⟨rfl, rfl, fun ti h => absurd h not_mem_nil⟩
  | cons ti ins ih =>
    intro witnesses hlen
    cases witnesses with
    | nil => cases hlen
    | cons items witnesses =>
      obtain ⟨hbare, hitems, hsome⟩ := ih (fun ti h => hnone ti (mem_cons_of_mem _ h)) (Nat.succ.inj hlen)
      have hti : ti = TxInOf.bare { ti with witness := some items } := by
        obtain ⟨op, script, witness, sequence⟩ := ti
        obtain rfl : witness = none := hnone _ mem_cons_self
        rfl
      refine ⟨congrArg₂ List.cons hti hbare, congrArg₂ List.cons rfl hitems, ?_⟩
      intro t ht
      rcases mem_cons.mp ht with rfl | ht
      · exact ⟨items, mem_cons_self, rfl⟩
      · obtain ⟨w, hw, hwt⟩ := hsome t ht
        exact ⟨w, mem_cons_of_mem _ hw, hwt⟩

variable {enc : MessageEncoding} {tx : MsgTx}

theorem reads_readTxWitnesses (henc : enc = witnessEncoding) {ins : List TxIn}
    (hnone : ∀ ti ∈ ins, ti.witness = none) (used : Nat) (u : Bytes) (tins : List TxIn) (used' : Nat) :
    (readTxWitnesses valueScratch enc witnessFlag ins used).Reads u (tins, used') ↔
      (ins = tins.map TxInOf.bare ∧ (tins.any fun ti => ti.items.length != 0) = true ∧
        (∀ ti ∈ tins, ∃ items, ti.witness = some items ∧ WitnessFits items) ∧
        witnessSize tins ≤ scriptSlabSize - used) ∧
      used' = used + witnessSize tins ∧ u = (tins.map fun ti => writeTxWitness ti.items).flatten := by
  rw [readTxWitnesses, if_pos ⟨by decide, henc⟩, reads_bind]
  constructor
  · rintro ⟨⟨witnesses, used₁⟩, v, v', rfl, hv, hv'⟩
    obtain ⟨hlen, ⟨hfits, hroom⟩, rfl, rfl⟩ := (reads_iterate_room reads_readTxWitness ..).mp hv
    obtain ⟨hany, hpure⟩ := reads_refuse_bind.mp hv'
    obtain ⟨rfl, ⟨⟩⟩ := reads_pure.mp hpure
    obtain ⟨hbare, hitems, hsome⟩ := bare_setWitnesses hnone hlen
    have hsize : (witnesses.map fun items => (items.map length).sum).sum =
        witnessSize (setWitnesses ins witnesses) := by
      rw [hitems, map_map, ← hitems]
      rfl
    refine ⟨⟨hbare, Bool.eq_true_of_not_eq_false hany, ?_, hsize ▸ hroom⟩, by rw [← hsize], ?_⟩
    · intro ti hti
      obtain ⟨items, hmem, hw⟩ := hsome ti hti
      exact ⟨items, hw, hfits items hmem⟩
    · have hbytes : witnesses.map writeTxWitness =
          (setWitnesses ins witnesses).map fun ti => writeTxWitness ti.items := by
        rw [hitems, map_map, ← hitems]
        rfl
      rw [append_nil, hbytes]
  · rintro ⟨⟨hbare, hany, hfits, hroom⟩, rfl, rfl⟩
    have hset : setWitnesses ins (tins.map TxInOf.items) = tins := by
      rw [hbare]
      exact setWitnesses_bare fun ti h => (hfits ti h).imp fun _ => And.left
    refine ⟨(tins.map TxInOf.items, used + witnessSize tins), _, [], (append_nil _).symm, ?_, ?_⟩
    · have hlen : (tins.map TxInOf.items).length = ins.length := by rw [hbare, length_map, length_map]
      have hall : ∀ items ∈ tins.map TxInOf.items, WitnessFits items := by
        intro items hmem
        obtain ⟨ti, hti, rfl⟩ := mem_map.mp hmem
        obtain ⟨items, hw, hitems⟩ := hfits ti hti
        rwa [TxInOf.items, hw]
      refine (reads_iterate_room reads_readTxWitness ..).mpr ⟨hlen, ⟨hall, ?_⟩, ?_, ?_⟩
      · rwa [map_map]
      · rw [map_map]
        rfl
      · rw [map_map]
        rfl
    · show (refuse _ _ >>= _).Reads ..
      rw [hset, reads_refuse_bind, hany]
      exact ⟨Bool.noConfusion, reads_pure.mpr ⟨rfl, rfl⟩⟩

/-! ### A transaction -/

theorem items_of_witness_none {ti : TxIn} (h : ti.witness = none) : ti.items = [] := by rw [TxInOf.items, h]; rfl

theorem hasWitness_eq_false (hnone : ∀ ti ∈ tx.txIn, ti.witness = none) : tx.hasWitness = false := by
  apply any_eq_false.mpr
  intro ti hti
  rw [items_of_witness_none (hnone ti hti)]
  decide

theorem witnessSize_eq_zero {tins : List TxIn} (hnone : ∀ ti ∈ tins, ti.witness = none) : witnessSize tins = 0 := by
  apply sum_eq_zero
  intro n hn
  obtain ⟨ti, hti, rfl⟩ := mem_map.mp hn
  rw [items_of_witness_none (hnone ti hti)]
  rfl

/-- The encoding without witnesses. -/
theorem btcEncode_of_bare (h : (enc == witnessEncoding && tx.hasWitness) = false) :
    tx.btcEncode enc = putUint32LE tx.version.toUInt32 ++ (writeVarInt (len64 tx.txIn.length) ++
      ((tx.txIn.map writeTxIn).flatten ++ (writeList writeTxOut tx.txOut ++ putUint32LE tx.lockTime))) := by
  simp [MsgTx.btcEncode, h, writeList]

/-- The encoding with witnesses. -/
theorem btcEncode_of_hasWitness (h : tx.hasWitness = true) :
    tx.btcEncode witnessEncoding = putUint32LE tx.version.toUInt32 ++
      (([txFlagMarker, witnessFlag] ++ writeVarInt (len64 tx.txIn.length)) ++
      ((tx.txIn.map writeTxIn).flatten ++ (writeList writeTxOut tx.txOut ++
        ((tx.txIn.map fun ti => writeTxWitness ti.items).flatten ++ putUint32LE tx.lockTime)))) := by
  simp [MsgTx.btcEncode, h, writeList]

theorem len64_of_length {count : UInt64} (h : n = count.toNat) : len64 n = count := by
  rw [len64, h, UInt64.ofNat_toNat]

/-- The inputs, and the outputs, when their number is known. -/
theorem reads_limited_room {α : Type} {good : α → Prop} {size : α → Nat} {p : Nat → WireReader (α × Nat)}
    {w : α → Bytes} (hp : SlabReads p good size w) {limit : Nat} {tooMany : WireError}
    {f : List α × Nat → WireReader β} :
    (do refuse (limit < n) tooMany; let as ← iterate p n used; f as).Reads u b ↔
      ∃ as, (as.length = n ∧ as.length ≤ limit ∧ (∀ a ∈ as, good a) ∧ (as.map size).sum ≤ scriptSlabSize - used) ∧
        ∃ v, u = (as.map w).flatten ++ v ∧ (f (as, used + (as.map size).sum)).Reads v b := by
  rw [reads_refuse_bind, reads_bind]
  constructor
  · rintro ⟨hmax, ⟨as, used₁⟩, v₁, v₂, rfl, has, hv₂⟩
    obtain ⟨hlen, ⟨hall, hroom⟩, rfl, rfl⟩ := (reads_iterate_room hp ..).mp has
    exact ⟨as, ⟨hlen, by omega, hall, hroom⟩, v₂, rfl, hv₂⟩
  · rintro ⟨as, ⟨hlen, hmax, hall, hroom⟩, v, rfl, hv⟩
    refine ⟨by omega, _, _, v, rfl, ?_, hv⟩
    exact (reads_iterate_room hp ..).mpr ⟨hlen, ⟨hall, hroom⟩, rfl, rfl⟩

/-- The inputs, and what comes after them. -/
theorem reads_scan_txIn {f : List TxIn × Nat → WireReader β} {tooMany : WireError} :
    (do refuse (maxTxInPerMessage < n) tooMany; let txIn ← iterate (readTxInBuf valueScratch) n used; f txIn).Reads u b ↔
      ∃ ins : List TxIn, (ins.length = n ∧ ins.length ≤ maxTxInPerMessage ∧
        (∀ ti ∈ ins, ti.signatureScript.length ≤ maxWitnessItemSize ∧ ti.witness = none) ∧
        signatureSize ins ≤ scriptSlabSize - used) ∧
        ∃ v, u = (ins.map writeTxIn).flatten ++ v ∧ (f (ins, used + signatureSize ins)).Reads v b :=
  reads_limited_room reads_readTxInBuf

/-- The outputs, and what comes after them. -/
theorem reads_scan_txOut {f : List TxOut × Nat → WireReader β} : (do
      let count ← readVarInt
      refuse (maxTxOutPerMessage < count.toNat) (.message "MsgTx.BtcDecode"
        s!"too many output transactions to fit into max message size [count {count}, max {maxTxOutPerMessage}]")
      let txOut ← iterate (readTxOutBuf valueScratch) count.toNat used
      f txOut).Reads u b ↔
      ∃ outs : List TxOut, (outs.length ≤ maxTxOutPerMessage ∧
        (∀ out ∈ outs, out.pkScript.length ≤ maxWitnessItemSize) ∧ pkSize outs ≤ scriptSlabSize - used) ∧
        ∃ v, u = writeList writeTxOut outs ++ v ∧ (f (outs, used + pkSize outs)).Reads v b := by
  rw [format_readVarInt.reads_bind]
  constructor
  · rintro ⟨count, -, v, rfl, hv⟩
    obtain ⟨outs, ⟨hlen, hfits⟩, v', rfl, hv'⟩ := (reads_limited_room reads_readTxOutBuf).mp hv
    refine ⟨outs, hfits, v', ?_, hv'⟩
    rw [writeList, len64_of_length hlen, append_assoc]
  · rintro ⟨outs, hfits, v, rfl, hv⟩
    have hcount := toNat_len64 (hfits.1.trans_lt (by decide))
    refine ⟨len64 outs.length, trivial, _, append_assoc .., ?_⟩
    exact (reads_limited_room reads_readTxOutBuf).mpr ⟨outs, ⟨hcount.symm, hfits⟩, v, rfl, hv⟩

/-- The bytes and the size of an input have nothing to do with its witness. -/
theorem signatureSize_bare (tins : List TxIn) : signatureSize (tins.map TxInOf.bare) = signatureSize tins := by
  rw [signatureSize, map_map]
  rfl

theorem map_writeTxIn_bare (tins : List TxIn) : (tins.map TxInOf.bare).map writeTxIn = tins.map writeTxIn := by
  rw [map_map]
  rfl

theorem decodable_of_reads_scan (h : (MsgTxOf.scan valueScratch enc 0).Reads u (tx, used)) :
    Decodable enc tx ∧ used = tx.scriptSize ∧ u = tx.btcEncode enc := by
  obtain ⟨version, -, v₀, rfl, h₀⟩ := format_readInt32LE.reads_bind.mp h
  obtain ⟨⟨flag, count⟩, v₁, v₂, rfl, hcount, h₁⟩ := reads_bind.mp h₀
  obtain ⟨ins, ⟨hlenIn, hmaxIn, hgood, hroomIn⟩, v₃, rfl, h₂⟩ := reads_scan_txIn.mp h₁
  obtain ⟨outs, ⟨hmaxOut, hpk, hroomOut⟩, v₄, rfl, h₃⟩ := reads_scan_txOut.mp h₂
  obtain ⟨⟨tins, used₁⟩, v₅, v₆, rfl, hwitnesses, h₄⟩ := reads_bind.mp h₃
  obtain ⟨lockTime, -, v₇, rfl, h₅⟩ := format_readUint32LE.reads_bind.mp h₄
  obtain ⟨rfl, ⟨⟩⟩ := reads_pure.mp h₅
  have hnone : ∀ ti ∈ ins, ti.witness = none := fun ti hti => (hgood ti hti).2
  dsimp only at hroomIn hroomOut hlenIn
  rcases (reads_readTxInCount ..).mp hcount with ⟨rfl, hsome, rfl⟩ | ⟨rfl, rfl, rfl⟩
  · -- there is no flag, and the inputs stay as they are
    rw [readTxWitnesses, if_neg (fun h => h.1 rfl)] at hwitnesses
    obtain ⟨rfl, ⟨⟩⟩ := reads_pure.mp hwitnesses
    have hfalse : MsgTxOf.hasWitness ⟨version, ins, outs, lockTime⟩ = false := hasWitness_eq_false hnone
    have hsize : MsgTxOf.scriptSize ⟨version, ins, outs, lockTime⟩ = 0 + signatureSize ins + pkSize outs := by
      rw [MsgTxOf.scriptSize, witnessSize_eq_zero hnone, Nat.zero_add, Nat.add_zero]
    refine ⟨⟨hmaxIn, hmaxOut, fun ti hti => (hgood ti hti).1, hpk, ?_, ?_, .inl hnone⟩, hsize.symm, ?_⟩
    · show MsgTxOf.scriptSize ⟨version, ins, outs, lockTime⟩ ≤ scriptSlabSize
      omega
    · intro henc hnil
      obtain rfl : ins = [] := hnil
      exact hsome ⟨UInt64.toNat_inj.mp hlenIn.symm, henc⟩
    · rw [btcEncode_of_bare (by rw [hfalse, Bool.and_false]), len64_of_length hlenIn, append_nil]
      rfl
  · obtain ⟨⟨rfl, hany, hfits, hroom⟩, rfl, rfl⟩ := (reads_readTxWitnesses rfl hnone ..).mp hwitnesses
    dsimp only at hroom ⊢
    rw [signatureSize_bare] at hroomIn hroomOut hroom ⊢
    rw [length_map] at hlenIn hmaxIn
    have hsize : MsgTxOf.scriptSize ⟨version, tins, outs, lockTime⟩ =
        0 + signatureSize tins + pkSize outs + witnessSize tins := by rw [MsgTxOf.scriptSize, Nat.zero_add]
    refine ⟨⟨hmaxIn, hmaxOut, ?_, hpk, by omega, ?_, .inr ⟨rfl, hany, hfits⟩⟩, hsize.symm, ?_⟩
    · intro ti hti
      exact (hgood ti.bare (mem_map_of_mem hti)).1
    · rintro - rfl
      cases hany
    · have hhas : MsgTxOf.hasWitness ⟨version, tins, outs, lockTime⟩ = true := hany
      rw [btcEncode_of_hasWitness hhas, len64_of_length hlenIn, map_writeTxIn_bare, append_nil]

theorem reads_scan_of_decodable (h : Decodable enc tx) :
    (MsgTxOf.scan valueScratch enc 0).Reads (tx.btcEncode enc) (tx, tx.scriptSize) := by
  have hlenIn := toNat_len64 (h.txIn_le.trans_lt (by decide))
  have hsize := h.size
  rw [MsgTxOf.scriptSize] at hsize
  rcases h.witnesses with hnone | ⟨rfl, hany, hfits⟩
  · have hfalse : tx.hasWitness = false := hasWitness_eq_false hnone
    rw [btcEncode_of_bare (by rw [hfalse, Bool.and_false]), MsgTxOf.scan, format_readInt32LE.reads_bind]
    refine ⟨tx.version, trivial, _, rfl, ?_⟩
    refine reads_bind.mpr ⟨(0, len64 tx.txIn.length), _, _, rfl, ?_, ?_⟩
    · refine (reads_readTxInCount ..).mpr (.inl ⟨rfl, ?_, rfl⟩)
      rintro ⟨hzero, henc⟩
      apply h.some_txIn henc
      rw [hzero] at hlenIn
      exact length_eq_zero_iff.mp hlenIn.symm
    · refine reads_scan_txIn.mpr ⟨tx.txIn, ⟨hlenIn.symm, h.txIn_le, ?_, by omega⟩, _, rfl, ?_⟩
      · intro ti hti
        exact ⟨h.signatureScripts ti hti, hnone ti hti⟩
      · refine reads_scan_txOut.mpr ⟨tx.txOut, ⟨h.txOut_le, h.pkScripts, by dsimp only; omega⟩, _, rfl, ?_⟩
        rw [readTxWitnesses, if_neg (fun h => h.1 rfl)]
        refine reads_bind.mpr ⟨_, [], _, rfl, reads_pure.mpr ⟨rfl, rfl⟩, ?_⟩
        refine format_readUint32LE.reads_bind.mpr ⟨tx.lockTime, trivial, [], (append_nil _).symm, ?_⟩
        refine reads_pure.mpr ⟨rfl, ?_⟩
        rw [MsgTxOf.scriptSize, witnessSize_eq_zero hnone, Nat.zero_add, Nat.add_zero]
  · have hnone : ∀ ti ∈ tx.txIn.map TxInOf.bare, ti.witness = none := by
      intro ti hti
      obtain ⟨t, -, rfl⟩ := mem_map.mp hti
      rfl
    rw [btcEncode_of_hasWitness hany, MsgTxOf.scan, format_readInt32LE.reads_bind]
    refine ⟨tx.version, trivial, _, rfl, ?_⟩
    refine reads_bind.mpr ⟨(witnessFlag, len64 tx.txIn.length), _, _, rfl, ?_, ?_⟩
    · exact (reads_readTxInCount ..).mpr (.inr ⟨rfl, rfl, rfl⟩)
    · rw [← map_writeTxIn_bare]
      refine reads_scan_txIn.mpr ⟨tx.txIn.map TxInOf.bare, ⟨?_, ?_, ?_, ?_⟩, _, rfl, ?_⟩
      · rw [length_map, hlenIn]
      · rw [length_map]
        exact h.txIn_le
      · intro ti hti
        refine ⟨?_, hnone ti hti⟩
        obtain ⟨t, ht, rfl⟩ := mem_map.mp hti
        exact h.signatureScripts t ht
      · rw [signatureSize_bare]
        omega
      · rw [signatureSize_bare]
        refine reads_scan_txOut.mpr ⟨tx.txOut, ⟨h.txOut_le, h.pkScripts, by dsimp only; omega⟩, _, rfl, ?_⟩
        refine reads_bind.mpr ⟨(tx.txIn, tx.scriptSize), _, _, rfl, ?_, ?_⟩
        · refine (reads_readTxWitnesses rfl hnone ..).mpr ⟨⟨rfl, hany, hfits, by dsimp only; omega⟩, ?_, rfl⟩
          rw [MsgTxOf.scriptSize, Nat.zero_add]
        · exact format_readUint32LE.reads_bind.mpr
            ⟨tx.lockTime, trivial, [], (append_nil _).symm, reads_pure.mpr ⟨rfl, rfl⟩⟩

/-- A transaction, and how much of the slab it takes, is read from its encoding and from nothing else. -/
theorem reads_scan (enc : MessageEncoding) (u : Bytes) (tx : MsgTx) (used : Nat) :
    (MsgTxOf.scan valueScratch enc 0).Reads u (tx, used) ↔
      Decodable enc tx ∧ used = tx.scriptSize ∧ u = tx.btcEncode enc := by
  constructor
  · exact decodable_of_reads_scan
  · rintro ⟨h, rfl, rfl⟩
    exact reads_scan_of_decodable h

end NogoCommons.Wire
