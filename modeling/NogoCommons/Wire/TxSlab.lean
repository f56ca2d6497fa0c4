import NogoCommons.Wire.TxFormat

/-!
# Decoding a transaction through the slab

The decoder with the slab does what the decoder of values does (`sim_scan`). A script is a slice for the one where it is
a value for the other, and the slab holds the value in the slice; since the slab is only ever filled further, it does so
until the end. The scripts are then moved to a buffer that is as large as all of them, and what they are there is what
they were in the slab (`relocate_eq`).

So the decoder returns the same for every content of the slab, which comes from a pool and has been used before, and what
it accepts is the format of transactions (`format_btcDecode`).
-/

namespace NogoCommons.Wire
open Lib Reader List

/-! ## Slices and values -/

/-- So much of a whole slab has been used. -/
structure SlabUsed (a : Arena) (used : Nat) : Prop where
  used_eq : a.used = used
  used_le : used ≤ scriptSlabSize
  size : a.mem.length = scriptSlabSize

def HoldsWitness (a : Arena) (items : List Slice) (values : List Bytes) : Prop := Forall₂ a.Holds items values

structure HoldsTxIn (a : Arena) (ti : TxInOf Slice) (value : TxIn) : Prop where
  previousOutPoint : ti.previousOutPoint = value.previousOutPoint
  signatureScript : a.Holds ti.signatureScript value.signatureScript
  witness : Option.Rel (HoldsWitness a) ti.witness value.witness
  sequence : ti.sequence = value.sequence

structure HoldsTxOut (a : Arena) (out : TxOutOf Slice) (value : TxOut) : Prop where
  value_eq : out.value = value.value
  pkScript : a.Holds out.pkScript value.pkScript

section Holds
variable {a b : Arena}

theorem HoldsWitness.mono {items : List Slice} {values : List Bytes} (h : HoldsWitness a items values)
    (hk : Arena.Keeps a b) : HoldsWitness b items values := h.imp fun _ _ hitem => hitem.mono hk

variable {ti : TxInOf Slice} {value : TxIn}

theorem HoldsTxIn.mono (h : HoldsTxIn a ti value) (hk : Arena.Keeps a b) : HoldsTxIn b ti value := by
  refine ⟨h.previousOutPoint, h.signatureScript.mono hk, ?_, h.sequence⟩
  have hwitness := h.witness
  revert hwitness
  generalize ti.witness = w, value.witness = w'
  intro hwitness
  cases hwitness with
  | none => exact Option.Rel.none
  | some hitems => exact Option.Rel.some (hitems.mono hk)

theorem HoldsTxOut.mono {out : TxOutOf Slice} {value : TxOut} (h : HoldsTxOut a out value) (hk : Arena.Keeps a b) :
    HoldsTxOut b out value := ⟨h.value_eq, h.pkScript.mono hk⟩

theorem HoldsTxIn.items (h : HoldsTxIn a ti value) : HoldsWitness a ti.items value.items := by
  have hwitness := h.witness
  rw [TxInOf.items, TxInOf.items]
  revert hwitness
  generalize ti.witness = w, value.witness = w'
  intro hwitness
  cases hwitness with
  | none => exact Forall₂.nil
  | some hitems => exact hitems

theorem HoldsWitness.map_get {items : List Slice} {values : List Bytes} (h : HoldsWitness a items values) :
    items.map (·.get a.mem) = values := by
  induction h with
  | nil => rfl
  | cons hitem _ ih => rw [map_cons, hitem.2, ih]

theorem HoldsTxIn.resolve_eq (h : HoldsTxIn a ti value) : ti.resolve a.mem = value := by
  obtain ⟨op, script, witness, sequence⟩ := ti
  obtain ⟨op', script', witness', sequence'⟩ := value
  obtain ⟨rfl, ⟨-, rfl⟩, hwitness, rfl⟩ := h
  cases hwitness with
  | none => rfl
  | some hitems => rw [← hitems.map_get]; rfl

theorem HoldsTxOut.resolve_eq {out : TxOutOf Slice} {value : TxOut} (h : HoldsTxOut a out value) :
    out.resolve a.mem = value := by
  rw [TxOutOf.resolve, h.value_eq, h.pkScript.2]

end Holds

/-! ## The two decoders -/

section Simulation
variable {a : Arena} {used : Nat}

theorem sim_readScriptBuf (fieldName : String) (h : SlabUsed a used) :
    Sim (fun x y => SlabUsed x.2 y.2 ∧ Arena.Keeps a x.2 ∧ x.2.Holds x.1 y.1) (readScriptBuf slabScratch fieldName a)
      (readScriptBuf valueScratch fieldName used) := by
  have hroom : slabScratch.room a = valueScratch.room used := by
    show a.mem.length - a.used = scriptSlabSize - used
    rw [h.size, h.used_eq]
  rw [readScriptBuf, readScriptBuf, hroom]
  apply sim_after
  intro _ count _
  apply sim_refuse
  intro _
  apply sim_refuse
  intro hfits
  apply sim_after
  intro u script hscript
  obtain ⟨hlen, rfl⟩ := reads_readFull.mp hscript
  have hle : u.length ≤ scriptSlabSize - used := hlen ▸ Nat.not_lt.mp hfits
  have hused := h.used_le
  have hput : a.used + u.length ≤ a.mem.length := by
    rw [h.size, h.used_eq]
    omega
  have hkeeps := Arena.keeps_put a hput
  refine sim_pure ⟨⟨congrArg (· + u.length) h.used_eq, ?_, hkeeps.size.trans h.size⟩, hkeeps, Arena.holds_put a hput⟩
  show used + u.length ≤ scriptSlabSize
  omega

theorem sim_readTxInBuf (h : SlabUsed a used) :
    Sim (fun x y => SlabUsed x.2 y.2 ∧ Arena.Keeps a x.2 ∧ HoldsTxIn x.2 x.1 y.1) (readTxInBuf slabScratch a)
      (readTxInBuf valueScratch used) := by
  apply sim_after
  intro _ op _
  apply (sim_readScriptBuf _ h).bind
  rintro script value ⟨hslab, hkeeps, hholds⟩
  apply sim_after
  intro _ sequence _
  exact sim_pure ⟨hslab, hkeeps, rfl, hholds, Option.Rel.none, rfl⟩

theorem sim_readTxOutBuf (h : SlabUsed a used) :
    Sim (fun x y => SlabUsed x.2 y.2 ∧ Arena.Keeps a x.2 ∧ HoldsTxOut x.2 x.1 y.1) (readTxOutBuf slabScratch a)
      (readTxOutBuf valueScratch used) := by
  apply sim_after
  intro _ value _
  apply (sim_readScriptBuf _ h).bind
  rintro script value' ⟨hslab, hkeeps, hholds⟩
  exact sim_pure ⟨hslab, hkeeps, rfl, hholds⟩

theorem sim_readTxWitness (h : SlabUsed a used) :
    Sim (fun x y => SlabUsed x.2 y.2 ∧ Arena.Keeps a x.2 ∧ HoldsWitness x.2 x.1 y.1) (readTxWitness slabScratch a)
      (readTxWitness valueScratch used) := by
  apply sim_after
  intro _ witCount _
  apply sim_refuse
  intro _
  exact sim_iterate Arena.Keeps.refl Arena.Keeps.trans (fun hk h => h.mono hk) (fun _ _ => sim_readScriptBuf _) _ _ _ h

variable {ins : List (TxInOf Slice)} {values : List TxIn}

theorem forall₂_setWitnesses (hins : Forall₂ (HoldsTxIn a) ins values) {witnesses : List (List Slice)}
    {values' : List (List Bytes)} (hwitnesses : Forall₂ (HoldsWitness a) witnesses values') :
    Forall₂ (HoldsTxIn a) (setWitnesses ins witnesses) (setWitnesses values values') := by
  induction hins generalizing witnesses values' with
  | nil => exact Forall₂.nil
  | cons hti _ ih =>
    cases hwitnesses with
    | nil => exact Forall₂.nil
    | cons hwitness hrest =>
      apply Forall₂.cons
      · exact ⟨hti.previousOutPoint, hti.signatureScript, Option.Rel.some hwitness, hti.sequence⟩
      · exact ih hrest

theorem any_items_eq (hins : Forall₂ (HoldsTxIn a) ins values) :
    (ins.any fun ti => ti.items.length != 0) = values.any fun ti => ti.items.length != 0 := by
  induction hins with
  | nil => rfl
  | cons hti _ ih => rw [any_cons, any_cons, Forall₂.length_eq hti.items, ih]

theorem sim_readTxWitnesses (enc : MessageEncoding) (flag : UInt8) (hins : Forall₂ (HoldsTxIn a) ins values)
    (h : SlabUsed a used) :
    Sim (fun x y => SlabUsed x.2 y.2 ∧ Arena.Keeps a x.2 ∧ Forall₂ (HoldsTxIn x.2) x.1 y.1)
      (readTxWitnesses slabScratch enc flag ins a) (readTxWitnesses valueScratch enc flag values used) := by
  rw [readTxWitnesses, readTxWitnesses, hins.length_eq]
  split_ifs with hflag
  · apply (sim_iterate Arena.Keeps.refl Arena.Keeps.trans (fun hk h => h.mono hk) (fun _ _ => sim_readTxWitness) _ _ _
      h).bind
    rintro witnesses values' ⟨hslab, hkeeps, hwitnesses⟩
    have hset := forall₂_setWitnesses (hins.imp fun _ _ hti => hti.mono hkeeps) hwitnesses
    dsimp only
    rw [any_items_eq hset]
    apply sim_refuse
    intro _
    exact sim_pure ⟨hslab, hkeeps, hset⟩
  · exact sim_pure ⟨h, Arena.Keeps.refl a, hins⟩

/-- What the two decoders have read of a transaction. -/
structure HoldsTx (a : Arena) (tx : MsgTxOf Slice) (value : MsgTx) : Prop where
  version : tx.version = value.version
  txIn : Forall₂ (HoldsTxIn a) tx.txIn value.txIn
  txOut : Forall₂ (HoldsTxOut a) tx.txOut value.txOut
  lockTime : tx.lockTime = value.lockTime

theorem sim_scan (enc : MessageEncoding) (h : SlabUsed a used) :
    Sim (fun x y => SlabUsed x.2 y.2 ∧ HoldsTx x.2 x.1 y.1) (MsgTxOf.scan slabScratch enc a)
      (MsgTxOf.scan valueScratch enc used) := by
  apply sim_after
  intro _ version _
  apply sim_after
  intro _ flagCount _
  apply sim_refuse
  intro _
  apply (sim_iterate Arena.Keeps.refl Arena.Keeps.trans (fun hk h => h.mono hk) (fun _ _ => sim_readTxInBuf) _ _ _ h).bind
  rintro txIn txIn' ⟨hslab, -, hins⟩
  apply sim_after
  intro _ count _
  apply sim_refuse
  intro _
  apply (sim_iterate Arena.Keeps.refl Arena.Keeps.trans (fun hk h => h.mono hk) (fun _ _ => sim_readTxOutBuf) _ _ _
    hslab).bind
  rintro txOut txOut' ⟨hslab₁, hkeeps₁, houts⟩
  apply (sim_readTxWitnesses enc _ (hins.imp fun _ _ hti => hti.mono hkeeps₁) hslab₁).bind
  rintro tins tins' ⟨hslab₂, hkeeps₂, htins⟩
  apply sim_after
  intro _ lockTime _
  exact sim_pure ⟨hslab₂, rfl, htins, houts.imp fun _ _ hout => hout.mono hkeeps₂, rfl⟩

end Simulation

/-! ## Moving the scripts -/

section Relocate
variable (slab : Bytes)

theorem placed_moveScript (scripts : Arena) (script : Slice)
    (h : scripts.used + (script.get slab).length ≤ scripts.mem.length) :
    Arena.Placed (fun b s moved => b.Holds moved (s.get slab)) scripts script (script.get slab).length
      (moveScript slab scripts script) := ⟨Arena.keeps_put _ h, rfl, Arena.holds_put _ h⟩

/-- What an input takes up. -/
def TxInOf.movedSize (ti : TxInOf Slice) : Nat :=
  (ti.signatureScript.get slab).length + (ti.items.map fun item => (item.get slab).length).sum

theorem placed_moveTxIn (scripts : Arena) (ti : TxInOf Slice)
    (h : scripts.used + ti.movedSize slab ≤ scripts.mem.length) :
    Arena.Placed (fun b ti moved => HoldsTxIn b moved (ti.resolve slab)) scripts ti (ti.movedSize slab)
      (moveTxIn slab scripts ti) := by
  rw [TxInOf.movedSize] at h
  have hscript := placed_moveScript slab scripts ti.signatureScript (by omega)
  have hwitness := threadMap_placed (fun hk h => h.mono hk) (placed_moveScript slab) ti.items
    (moveScript slab scripts ti.signatureScript).2 (by rw [hscript.used_eq, hscript.keeps.size]; omega)
  refine ⟨hscript.keeps.trans hwitness.keeps, ?_, rfl, hscript.rel.mono hwitness.keeps, ?_, rfl⟩
  · show (threadMap (moveScript slab) (moveScript slab scripts ti.signatureScript).2 ti.items).2.used = _
    rw [hwitness.used_eq, hscript.used_eq, TxInOf.movedSize, Nat.add_assoc]
  · obtain ⟨op, script, witness, sequence⟩ := ti
    cases witness with
    | none => exact Option.Rel.none
    | some items => exact Option.Rel.some (forall₂_map_right_iff.mpr hwitness.rel.flip)

theorem placed_moveTxOut (scripts : Arena) (out : TxOutOf Slice)
    (h : scripts.used + (out.pkScript.get slab).length ≤ scripts.mem.length) :
    Arena.Placed (fun b out moved => HoldsTxOut b moved (out.resolve slab)) scripts out (out.pkScript.get slab).length
      (moveTxOut slab scripts out) := by
  have hscript := placed_moveScript slab scripts out.pkScript h
  exact ⟨hscript.keeps, hscript.used_eq, rfl, hscript.rel⟩

end Relocate

section Resolve
variable {a : Arena} {tx : MsgTxOf Slice} {value : MsgTx}

theorem map_eq_map_of_forall₂ {α β γ : Type} {f : α → γ} {g : β → γ} {xs : List α} {ys : List β}
    (h : Forall₂ (fun x y => g y = f x) xs ys) : ys.map g = xs.map f := by
  induction h with
  | nil => rfl
  | cons hxy _ ih => rw [map_cons, map_cons, hxy, ih]

theorem TxInOf.items_resolve (mem : Bytes) (ti : TxInOf Slice) : (ti.resolve mem).items = ti.items.map (·.get mem) := by
  obtain ⟨op, script, witness, sequence⟩ := ti
  cases witness <;> rfl

variable (h : HoldsTx a tx value)
include h

theorem HoldsTx.txIn_eq : value.txIn = tx.txIn.map (TxInOf.resolve a.mem) := by
  have hmap := map_eq_map_of_forall₂ (f := TxInOf.resolve a.mem) (g := id) (h.txIn.imp fun _ _ hti => hti.resolve_eq.symm)
  rwa [map_id] at hmap

theorem HoldsTx.txOut_eq : value.txOut = tx.txOut.map (TxOutOf.resolve a.mem) := by
  have hmap := map_eq_map_of_forall₂ (f := TxOutOf.resolve a.mem) (g := id)
    (h.txOut.imp fun _ _ hout => hout.resolve_eq.symm)
  rwa [map_id] at hmap

theorem HoldsTx.sum_movedSize :
    (tx.txIn.map (TxInOf.movedSize a.mem)).sum = signatureSize value.txIn + witnessSize value.txIn := by
  have hsplit : (tx.txIn.map (TxInOf.movedSize a.mem)).sum = (tx.txIn.map fun ti => (ti.signatureScript.get a.mem).length).sum +
      (tx.txIn.map fun ti => (ti.items.map fun item => (item.get a.mem).length).sum).sum := sum_map_add
  rw [hsplit, h.txIn_eq, signatureSize, witnessSize, map_map, map_map]
  congr 2
  apply map_congr_left
  intro ti _
  show _ = ((ti.resolve a.mem).items.map length).sum
  rw [TxInOf.items_resolve, map_map]
  rfl

theorem HoldsTx.sum_pkScript : (tx.txOut.map fun out => (out.pkScript.get a.mem).length).sum = pkSize value.txOut := by
  rw [h.txOut_eq, pkSize, map_map]
  rfl

/-- The scripts are moved to a buffer in which there is room for all of them. -/
theorem relocate_eq (hused : a.used = value.scriptSize) : relocate a tx = value := by
  have hins := threadMap_placed (fun hk h => h.mono hk) (placed_moveTxIn a.mem) tx.txIn ⟨replicate a.used 0, 0⟩ (by
    show 0 + _ ≤ (replicate a.used 0).length
    rw [length_replicate, h.sum_movedSize, hused, MsgTxOf.scriptSize]
    omega)
  have houts := threadMap_placed (fun hk h => h.mono hk) (placed_moveTxOut a.mem) tx.txOut
    (threadMap (moveTxIn a.mem) ⟨replicate a.used 0, 0⟩ tx.txIn).2 (by
    rw [hins.used_eq, hins.keeps.size, h.sum_movedSize, h.sum_pkScript]
    show 0 + _ + _ ≤ (replicate a.used 0).length
    rw [length_replicate, hused, MsgTxOf.scriptSize]
    omega)
  have htxIn := map_eq_map_of_forall₂ (hins.rel.imp fun _ _ hti => (HoldsTxIn.mono hti houts.keeps).resolve_eq)
  have htxOut := map_eq_map_of_forall₂ (houts.rel.imp fun _ _ hout => HoldsTxOut.resolve_eq hout)
  obtain ⟨version, txIn, txOut, lockTime⟩ := value
  show MsgTxOf.mk tx.version _ _ tx.lockTime = _
  rw [htxIn, htxOut, ← h.txIn_eq, ← h.txOut_eq, h.version, h.lockTime]

end Resolve

/-! ## What the decoder accepts -/

/-- The decoder of values. -/
def MsgTx.decodeValues (enc : MessageEncoding) : WireReader MsgTx := do
  let tx ← MsgTxOf.scan valueScratch enc 0
  return tx.1

section
variable (enc : MessageEncoding)

theorem format_decodeValues : Format (MsgTx.decodeValues enc) (Decodable enc) (fun tx => tx.btcEncode enc) := by
  intro u tx
  rw [MsgTx.decodeValues, reads_bind]
  constructor
  · rintro ⟨⟨tx', used⟩, v, v', rfl, hscan, hpure⟩
    obtain ⟨hdec, -, rfl⟩ := (reads_scan ..).mp hscan
    obtain ⟨rfl, rfl⟩ := reads_pure.mp hpure
    exact ⟨hdec, append_nil _⟩
  · rintro ⟨hdec, rfl⟩
    exact ⟨(tx, tx.scriptSize), _, [], (append_nil _).symm, (reads_scan ..).mpr ⟨hdec, rfl, rfl⟩,
      reads_pure.mpr ⟨rfl, rfl⟩⟩

/-- Whatever the slab has in it, and it can be used again after. -/
theorem sim_btcDecodeBuf {slab : Bytes} (hslab : slab.length = scriptSlabSize) :
    Sim (fun x tx => x.1 = tx ∧ x.2.length = scriptSlabSize) (MsgTx.btcDecodeBuf enc slab) (MsgTx.decodeValues enc) := by
  have hstart : SlabUsed ⟨slab, 0⟩ 0 := ⟨rfl, Nat.zero_le _, hslab⟩
  apply (sim_scan enc hstart).reads_right.bind
  rintro ⟨tx, sbuf⟩ ⟨value, used⟩ ⟨⟨hused, hholds⟩, u, hreads⟩
  obtain ⟨-, rfl, -⟩ := (reads_scan ..).mp hreads
  exact sim_pure ⟨relocate_eq hholds hused.used_eq, hused.size⟩

theorem btcDecode_eq (slab : ScriptSlab) : MsgTx.btcDecode enc slab = MsgTx.decodeValues enc := by
  apply Sim.eq
  apply (sim_btcDecodeBuf enc slab.length_eq).map_left
  intro x tx h
  exact h.1

theorem format_btcDecode (slab : ScriptSlab) :
    Format (MsgTx.btcDecode enc slab) (Decodable enc) (fun tx => tx.btcEncode enc) := by
  rw [btcDecode_eq]
  exact format_decodeValues enc

end

/-! ## Both ways -/

/-- A witness that is `nil` is one without items. -/
def TxInOf.orEmpty (ti : TxIn) : TxIn := { ti with witness := some ti.items }

/-- A transaction up to `nil` and empty witnesses. -/
def MsgTx.orEmpty (tx : MsgTx) : MsgTx := { tx with txIn := tx.txIn.map TxInOf.orEmpty }
def MsgTx.bare (tx : MsgTx) : MsgTx := { tx with txIn := tx.txIn.map TxInOf.bare }

/-- The transactions that can be encoded and decoded again, but for the number of witness items. -/
structure WithinLimits (enc : MessageEncoding) (tx : MsgTx) : Prop where
  some_txIn : tx.txIn ≠ []
  txIn_le : tx.txIn.length ≤ maxTxInPerMessage
  txOut_le : tx.txOut.length ≤ maxTxOutPerMessage
  signatureScripts : ∀ ti ∈ tx.txIn, ti.signatureScript.length ≤ maxWitnessItemSize
  items : ∀ ti ∈ tx.txIn, ∀ item ∈ ti.items, item.length ≤ maxWitnessItemSize
  pkScripts : ∀ out ∈ tx.txOut, out.pkScript.length ≤ maxWitnessItemSize
  size : tx.scriptSize ≤ scriptSlabSize
  bare : enc = baseEncoding → ∀ ti ∈ tx.txIn, ti.items = []

/-- What the decoder makes of an encoded transaction: either every input has a witness, or none has. -/
def MsgTx.decoded (enc : MessageEncoding) (tx : MsgTx) : MsgTx :=
  if enc == witnessEncoding && tx.hasWitness then tx.orEmpty else tx.bare

theorem hasWitness_orEmpty (tx : MsgTx) : tx.orEmpty.hasWitness = tx.hasWitness := any_map

theorem witness_bare {tins : List TxIn} : ∀ ti ∈ tins.map TxInOf.bare, ti.witness = none := by
  intro ti hti
  obtain ⟨t, -, rfl⟩ := mem_map.mp hti
  rfl

theorem hasWitness_bare (tx : MsgTx) : tx.bare.hasWitness = false := hasWitness_eq_false (@witness_bare tx.txIn)

theorem witnessSize_orEmpty (tins : List TxIn) : witnessSize (tins.map TxInOf.orEmpty) = witnessSize tins := by
  rw [witnessSize, map_map]
  rfl

theorem signatureSize_orEmpty (tins : List TxIn) : signatureSize (tins.map TxInOf.orEmpty) = signatureSize tins := by
  rw [signatureSize, map_map]
  rfl

/-- The two are encoded alike. -/
theorem btcEncode_decoded (enc : MessageEncoding) (tx : MsgTx) : (tx.decoded enc).btcEncode enc = tx.btcEncode enc := by
  rw [MsgTx.decoded]
  split_ifs with hdo
  · obtain ⟨henc, hhas⟩ := Bool.and_eq_true_iff.mp hdo
    obtain rfl := eq_of_beq henc
    rw [btcEncode_of_hasWitness hhas, btcEncode_of_hasWitness ((hasWitness_orEmpty tx).trans hhas)]
    simp only [MsgTx.orEmpty, length_map, map_map]
    rfl
  · rw [btcEncode_of_bare (Bool.eq_false_of_not_eq_true hdo),
      btcEncode_of_bare (by rw [hasWitness_bare, Bool.and_false])]
    simp only [MsgTx.bare, length_map, map_writeTxIn_bare]

variable {enc : MessageEncoding} {tx : MsgTx}

theorem decodable_decoded (h : WithinLimits enc tx)
    (hitems : ∀ ti ∈ tx.txIn, ti.items.length ≤ maxWitnessItemsPerInput) : Decodable enc (tx.decoded enc) := by
  have hsize := h.size
  rw [MsgTxOf.scriptSize] at hsize
  rw [MsgTx.decoded]
  split_ifs with hdo
  · obtain ⟨henc, hhas⟩ := Bool.and_eq_true_iff.mp hdo
    refine ⟨?_, h.txOut_le, ?_, h.pkScripts, ?_, ?_, .inr ⟨eq_of_beq henc, (hasWitness_orEmpty tx).trans hhas, ?_⟩⟩
    · show (tx.txIn.map TxInOf.orEmpty).length ≤ maxTxInPerMessage
      rw [length_map]
      exact h.txIn_le
    · intro ti hti
      obtain ⟨t, ht, rfl⟩ := mem_map.mp hti
      exact h.signatureScripts t ht
    · show signatureSize (tx.txIn.map TxInOf.orEmpty) + pkSize tx.txOut + witnessSize (tx.txIn.map TxInOf.orEmpty) ≤ _
      rwa [signatureSize_orEmpty, witnessSize_orEmpty]
    · intro _ hnil
      exact h.some_txIn (map_eq_nil_iff.mp hnil)
    · intro ti hti
      obtain ⟨t, ht, rfl⟩ := mem_map.mp hti
      exact ⟨t.items, rfl, hitems t ht, h.items t ht⟩
  · refine ⟨?_, h.txOut_le, ?_, h.pkScripts, ?_, ?_, .inl witness_bare⟩
    · show (tx.txIn.map TxInOf.bare).length ≤ maxTxInPerMessage
      rw [length_map]
      exact h.txIn_le
    · intro ti hti
      obtain ⟨t, ht, rfl⟩ := mem_map.mp hti
      exact h.signatureScripts t ht
    · show signatureSize (tx.txIn.map TxInOf.bare) + pkSize tx.txOut + witnessSize (tx.txIn.map TxInOf.bare) ≤ _
      rw [signatureSize_bare, witnessSize_eq_zero witness_bare]
      omega
    · intro _ hnil
      exact h.some_txIn (map_eq_nil_iff.mp hnil)

theorem orEmpty_decoded (henc : enc = baseEncoding ∨ enc = witnessEncoding)
    (hbare : enc = baseEncoding → ∀ ti ∈ tx.txIn, ti.items = []) : MsgTx.orEmpty (tx.decoded enc) = tx.orEmpty := by
  rw [MsgTx.decoded]
  split_ifs with hdo
  · rw [MsgTx.orEmpty]
    simp only [MsgTx.orEmpty, map_map]
    rfl
  · have hnil : ∀ ti ∈ tx.txIn, ti.items = [] := by
      intro ti hti
      rcases henc with rfl | rfl
      · exact hbare rfl ti hti
      · have hany : ¬ tx.hasWitness = true := by simpa using hdo
        have hti' := any_eq_false.mp (Bool.eq_false_of_not_eq_true hany) ti hti
        simpa using hti'
    simp only [MsgTx.orEmpty, MsgTx.bare, map_map]
    congr 1
    apply map_congr_left
    intro ti hti
    show { ti with witness := some [] } = { ti with witness := some ti.items }
    rw [hnil ti hti]

/-- What is decoded is encoded as the bytes it was decoded from, and what is encoded is decoded as what it was. -/
theorem btcDecode_btcEncode {enc : MessageEncoding} (henc : enc = baseEncoding ∨ enc = witnessEncoding)
    (slab : ScriptSlab) :
    (∀ s tx rest, (MsgTx.btcDecode enc slab).run s = .ok (tx, rest) → s = tx.btcEncode enc ++ rest) ∧
      ∀ tx, WithinLimits enc tx → (∀ ti ∈ tx.txIn, ti.items.length ≤ maxWitnessItemsPerInput) →
        ∃ tx', (MsgTx.btcDecode enc slab).run (tx.btcEncode enc) = .ok (tx', []) ∧ MsgTx.orEmpty tx' = tx.orEmpty := by
  constructor
  · intro s tx rest hrun
    obtain ⟨u, rfl, hu⟩ := run_eq_ok.mp hrun
    obtain ⟨-, rfl⟩ := (format_btcDecode enc slab u tx).mp hu
    rfl
  · intro tx h hitems
    refine ⟨tx.decoded enc, ?_, orEmpty_decoded henc h.bare⟩
    have hreads := (format_btcDecode enc slab).reads (decodable_decoded h hitems)
    have hrun := hreads.run_all
    rwa [btcEncode_decoded] at hrun

/-- One input, with so many empty items in its witness. -/
def txOfEmptyItems (n : Nat) : MsgTx where
  version := 2
  txIn := [⟨⟨FixedBytes.zero 32, 0⟩, [], some (replicate n []), 0xffffffff⟩]
  txOut := [⟨0, []⟩]
  lockTime := 0

theorem withinLimits_txOfEmptyItems (n : Nat) : WithinLimits witnessEncoding (txOfEmptyItems n) where
  some_txIn := cons_ne_nil _ _
  txIn_le := by
    show 1 ≤ maxTxInPerMessage
    decide
  txOut_le := by
    show 1 ≤ maxTxOutPerMessage
    decide
  signatureScripts := forall_mem_singleton.mpr (Nat.zero_le _)
  items := by
    intro ti hti item hitem
    obtain rfl := mem_singleton.mp hti
    obtain rfl := eq_of_mem_replicate hitem
    exact Nat.zero_le _
  pkScripts := forall_mem_singleton.mpr (Nat.zero_le _)
  size := by
    have hzero : (txOfEmptyItems n).scriptSize = 0 := by
      simp [MsgTxOf.scriptSize, signatureSize, pkSize, witnessSize, txOfEmptyItems, TxInOf.items]
    rw [hzero]
    exact Nat.zero_le _
  bare := by
    intro h
    cases h

theorem btcDecode_btcEncode_three : ∃ tx', (MsgTx.btcDecode witnessEncoding (FixedBytes.zero scriptSlabSize)).run
    ((txOfEmptyItems 3).btcEncode witnessEncoding) = .ok (tx', []) ∧ MsgTx.orEmpty tx' = (txOfEmptyItems 3).orEmpty := by
  apply (btcDecode_btcEncode (.inr rfl) (FixedBytes.zero scriptSlabSize)).2
  · exact withinLimits_txOfEmptyItems 3
  · intro ti hti
    obtain rfl := mem_singleton.mp hti
    decide

theorem Decodable.items_le (h : Decodable enc tx) : ∀ ti ∈ tx.txIn, ti.items.length ≤ maxWitnessItemsPerInput := by
  intro ti hti
  rcases h.witnesses with hnone | ⟨-, -, hfits⟩
  · rw [items_of_witness_none (hnone ti hti)]
    exact Nat.zero_le _
  · obtain ⟨items, hw, hlen, -⟩ := hfits ti hti
    rwa [TxInOf.items, hw]

theorem items_le_of_orEmpty_eq {n : Nat} (h : Decodable enc tx)
    (heq : MsgTx.orEmpty tx = (txOfEmptyItems n).orEmpty) : n ≤ maxWitnessItemsPerInput := by
  have hins : tx.txIn.map TxInOf.orEmpty = (txOfEmptyItems n).txIn.map TxInOf.orEmpty := congrArg MsgTxOf.txIn heq
  have hmem : TxInOf.orEmpty ⟨⟨FixedBytes.zero 32, 0⟩, [], some (replicate n []), 0xffffffff⟩ ∈
      tx.txIn.map TxInOf.orEmpty := by
    rw [hins]
    exact mem_singleton_self _
  obtain ⟨ti, hti, horEmpty⟩ := mem_map.mp hmem
  have hitems : ti.items = replicate n [] := congrArg TxInOf.items horEmpty
  have hle := h.items_le ti hti
  rwa [hitems, length_replicate] at hle

/-- The number of witness items is limited too. One more than that is encoded, and cannot be decoded. -/
theorem items_of_input_limited : WithinLimits witnessEncoding (txOfEmptyItems (maxWitnessItemsPerInput + 1)) ∧
    ¬ ∃ tx', (MsgTx.btcDecode witnessEncoding (FixedBytes.zero scriptSlabSize)).run
      ((txOfEmptyItems (maxWitnessItemsPerInput + 1)).btcEncode witnessEncoding) = .ok (tx', []) ∧
        MsgTx.orEmpty tx' = (txOfEmptyItems (maxWitnessItemsPerInput + 1)).orEmpty := by
  refine ⟨withinLimits_txOfEmptyItems _, ?_⟩
  rintro ⟨tx', hrun, heq⟩
  obtain ⟨u, -, hu⟩ := run_eq_ok.mp hrun
  obtain ⟨hdec, -⟩ := (format_btcDecode _ _ u tx').mp hu
  exact Nat.not_succ_le_self _ (items_le_of_orEmpty_eq hdec heq)

end NogoCommons.Wire
