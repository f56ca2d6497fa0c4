import NogoCommons.Wire.Sizes

/-!
# `nogoutil/tx.go`

A wrapped transaction keeps its hashes once they have been asked for, and may have been given the bytes it has in a block,
which are then hashed in place of an encoding of its own. The hashes are right as long as what is kept is what would have
been computed, which is `Tx.Sound`; every method keeps it.
-/

namespace NogoCommons.Nogoutil
open Lib
open Wire

def txIndexUnknown : Int := -1

structure Tx where
  msgTx : MsgTx
  txHash : Option ChainHash
  txHashWitness : Option ChainHash
  txHasWitness : Option Bool
  txIndex : Int
  rawBytes : Option Bytes
deriving DecidableEq

def newTx (msgTx : MsgTx) : Tx where
  msgTx := msgTx
  txHash := none
  txHashWitness := none
  txHasWitness := none
  txIndex := txIndexUnknown
  rawBytes := none

namespace Tx

def index (t : Tx) : Int := t.txIndex
def setIndex (t : Tx) (index : Int) : Tx := { t with txIndex := index }
def setBytes (t : Tx) (bytes : Bytes) : Tx := { t with rawBytes := some bytes }

/-- `HasWitness`, with the transaction as it is afterwards. -/
def hasWitness (t : Tx) : Bool × Tx :=
  match t.txHasWitness with
  | some hasWitness => (hasWitness, t)
  | none => (t.msgTx.hasWitness, { t with txHasWitness := some t.msgTx.hasWitness })

/-- The raw bytes of a transaction with witnesses, without them. -/
def nonWitnessBytes (msgTx : MsgTx) (rawBytes : Bytes) : Go Bytes := do
  let baseSize := msgTx.serializeSizeStripped
  let version ← slice rawBytes 0 4
  let body ← slice rawBytes (4 + 2) (4 + 2 + baseSize - 8)
  let lockTime ← slice rawBytes (rawBytes.length - 4) rawBytes.length
  return version ++ body ++ lockTime

/-- The raw bytes as they are hashed. -/
def bytesToHash (hasWitness : Bool) (msgTx : MsgTx) (rawBytes : Bytes) : Go Bytes :=
  if hasWitness then nonWitnessBytes msgTx rawBytes else .ok rawBytes

section Hashes
variable (doubleHash : Bytes → ChainHash)

/-- `Hash`, with the transaction as it is afterwards. -/
def hash (t : Tx) : Go (ChainHash × Tx) :=
  match t.txHash with
  | some hash => .ok (hash, t)
  | none =>
    match t.rawBytes with
    | none =>
      let hash := t.msgTx.txHash doubleHash
      .ok (hash, { t with txHash := some hash })
    | some rawBytes => do
      let w := t.hasWitness
      let bytes ← bytesToHash w.1 t.msgTx rawBytes
      let hash := doubleHash bytes
      return (hash, { w.2 with txHash := some hash })

/-- `WitnessHash`, with the transaction as it is afterwards. -/
def witnessHash (t : Tx) : ChainHash × Tx :=
  match t.txHashWitness with
  | some hash => (hash, t)
  | none =>
    let rawBytes := t.rawBytes.getD []
    let hash := if 0 < rawBytes.length then doubleHash rawBytes else t.msgTx.witnessHash doubleHash
    (hash, { t with txHashWitness := some hash })

/-- What is kept is what would have been computed. -/
structure Sound (t : Tx) : Prop where
  txHash : ∀ h ∈ t.txHash, h = t.msgTx.txHash doubleHash
  txHashWitness : ∀ h ∈ t.txHashWitness, h = t.msgTx.witnessHash doubleHash
  txHasWitness : ∀ w ∈ t.txHasWitness, w = t.msgTx.hasWitness
  rawBytes : ∀ raw ∈ t.rawBytes, raw = t.msgTx.serialize

variable {doubleHash} {t : Tx}

theorem sound_newTx (msgTx : MsgTx) : Sound doubleHash (newTx msgTx) where
  txHash _ h := by cases h
  txHashWitness _ h := by cases h
  txHasWitness _ h := by cases h
  rawBytes _ h := by cases h

/-- What no method changes. -/
def SameTx (t t' : Tx) : Prop := t'.msgTx = t.msgTx ∧ t'.txIndex = t.txIndex

variable (h : t.Sound doubleHash)
include h

theorem Sound.setIndex (i : Int) : (t.setIndex i).Sound doubleHash :=
  ⟨h.txHash, h.txHashWitness, h.txHasWitness, h.rawBytes⟩

theorem Sound.setBytes : (t.setBytes t.msgTx.serialize).Sound doubleHash where
  txHash := h.txHash
  txHashWitness := h.txHashWitness
  txHasWitness := h.txHasWitness
  rawBytes _ hraw := (Option.some.inj hraw).symm

theorem Sound.hasWitness :
    t.hasWitness.1 = t.msgTx.hasWitness ∧ t.hasWitness.2.Sound doubleHash ∧ SameTx t t.hasWitness.2 ∧
      t.hasWitness.2.rawBytes = t.rawBytes := by
  unfold Tx.hasWitness
  split
  · next w hw => exact ⟨h.txHasWitness w hw, h, ⟨rfl, rfl⟩, rfl⟩
  · exact ⟨rfl, ⟨h.txHash, h.txHashWitness, fun w hw => (Option.some.inj hw).symm, h.rawBytes⟩, ⟨rfl, rfl⟩, rfl⟩

omit h in
theorem nonWitnessBytes_serialize {msgTx : MsgTx} (h : msgTx.hasWitness = true) :
    nonWitnessBytes msgTx msgTx.serialize = .ok msgTx.serializeNoWitness := by
  have hbody := length_body msgTx
  have hlen := length_serialize msgTx
  rw [MsgTx.serializeSize, if_pos h] at hlen
  unfold nonWitnessBytes MsgTx.serializeSizeStripped
  rw [slice_ok (Nat.zero_le _) (by omega), ok_bind, slice_ok (by omega) (by omega), ok_bind,
    slice_ok (Nat.sub_le ..) le_rfl, ok_bind]
  refine congrArg Except.ok ((congrArg₂ _ (congrArg₂ _ ?_ ?_) ?_).trans (strip_serialize h))
  · rfl
  · rw [show 4 + 2 + msgTx.baseSize - 8 - (4 + 2) = msgTx.baseSize - 8 by omega]
  · apply List.take_of_length_le
    rw [List.length_drop]

/-- `Hash` does not panic, gives the hash of the transaction, and leaves the transaction sound. -/
theorem Sound.hash :
    ∃ t', t.hash doubleHash = .ok (t.msgTx.txHash doubleHash, t') ∧ t'.Sound doubleHash ∧ SameTx t t' := by
  unfold Tx.hash
  split
  · next hash hhash =>
    rw [h.txHash hash hhash]
    exact ⟨t, rfl, h, rfl, rfl⟩
  · split
    · exact ⟨_, rfl, ⟨fun _ hh => (Option.some.inj hh).symm, h.txHashWitness, h.txHasWitness, h.rawBytes⟩, rfl, rfl⟩
    · next raw hraw =>
      obtain ⟨hw, hsound, hsame, -⟩ := h.hasWitness
      have hbytes : bytesToHash t.hasWitness.1 t.msgTx raw = .ok t.msgTx.serializeNoWitness := by
        rw [hw, h.rawBytes raw hraw, bytesToHash]
        split_ifs with hwitness
        · exact nonWitnessBytes_serialize hwitness
        · rw [serialize_of_not_hasWitness (by simpa using hwitness)]
      dsimp only
      rw [hbytes, ok_bind]
      refine ⟨_, rfl, ⟨fun _ hh => ?_, hsound.txHashWitness, hsound.txHasWitness, hsound.rawBytes⟩, hsame⟩
      rw [hsame.1]
      exact (Option.some.inj hh).symm

theorem Sound.witnessHash :
    (t.witnessHash doubleHash).1 = t.msgTx.witnessHash doubleHash ∧ (t.witnessHash doubleHash).2.Sound doubleHash ∧
      SameTx t (t.witnessHash doubleHash).2 := by
  unfold Tx.witnessHash
  split
  · next hash hhash => exact ⟨h.txHashWitness hash hhash, h, rfl, rfl⟩
  · have hhash : (if 0 < (t.rawBytes.getD []).length then doubleHash (t.rawBytes.getD [])
        else t.msgTx.witnessHash doubleHash) = t.msgTx.witnessHash doubleHash := by
      cases hraw : t.rawBytes with
      | none => rfl
      | some raw =>
        rw [Option.getD_some, h.rawBytes raw hraw, if_pos (List.length_pos_iff.mpr (serialize_ne_nil _)), witnessHash_eq]
    exact ⟨hhash, ⟨h.txHash, fun _ hh => (Option.some.inj hh).symm.trans hhash, h.txHasWitness, h.rawBytes⟩, rfl, rfl⟩

end Hashes
end Tx
end NogoCommons.Nogoutil
