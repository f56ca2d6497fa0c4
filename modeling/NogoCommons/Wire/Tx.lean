import NogoCommons.Lib.Arena
import NogoCommons.Wire.Common

/-!
# `wire/msgtx.go` — transactions

A transaction is written with or without the witnesses of its inputs. With them, two bytes stand between the version and
the number of inputs, `00 01`. A reader that knows of witnesses takes a number of inputs of zero for the first of the two.

Decoding does not allocate a script for every input and output. Scripts are read one behind the other into a slab
(`sbuf`), and a script is a slice of it. When all is read, the scripts are copied out of the slab into a buffer of the
right size, and every script becomes a slice of that buffer (`relocate`). So the decoder is written over what it keeps
scripts in (`Scratch`), and the decoder of the source is the one that keeps slices of a slab (`slabScratch`). Why it is as
good as one that keeps the scripts themselves is the matter of `Wire.TxFormat`.

`Witness` is a slice of slices, and whether it is `nil` or empty makes a difference in one place (`PkScriptLocs`); so it is
an `Option`. All other slices are byte strings.
-/

namespace NogoCommons.Wire
open Lib Reader

/-! ## Constants -/

abbrev MessageEncoding := UInt32
def baseEncoding : MessageEncoding := 1
def witnessEncoding : MessageEncoding := 2
def minTxInPayload : Nat := 9 + hashSize
def maxTxInPerMessage : Nat := maxMessagePayload / minTxInPayload + 1
def minTxOutPayload : Nat := 9
def maxTxOutPerMessage : Nat := maxMessagePayload / minTxOutPayload + 1
def minTxPayload : Nat := 10
def maxWitnessItemsPerInput : Nat := 4000000
def maxWitnessItemSize : Nat := 4000000
def txFlagMarker : UInt8 := 0x00
def witnessFlag : UInt8 := 0x01
def scriptSlabSize : Nat := 2 ^ 22
abbrev ScriptSlab := FixedBytes scriptSlabSize

/-! ## Transactions -/

structure OutPoint where
  hash : ChainHash
  index : UInt32
deriving DecidableEq

/-- An input, over what scripts are. -/
structure TxInOf (σ : Type) where
  previousOutPoint : OutPoint
  signatureScript : σ
  witness : Option (List σ)
  sequence : UInt32
deriving DecidableEq

structure TxOutOf (σ : Type) where
  value : Int64
  pkScript : σ
deriving DecidableEq

structure MsgTxOf (σ : Type) where
  version : Int32
  txIn : List (TxInOf σ)
  txOut : List (TxOutOf σ)
  lockTime : UInt32
deriving DecidableEq

abbrev TxIn := TxInOf Bytes
abbrev TxOut := TxOutOf Bytes
abbrev MsgTx := MsgTxOf Bytes

/-- The items of a witness, none if it is `nil`. -/
def TxInOf.items {σ : Type} (ti : TxInOf σ) : List σ := ti.witness.getD []
def MsgTxOf.hasWitness {σ : Type} (tx : MsgTxOf σ) : Bool := tx.txIn.any fun ti => ti.items.length != 0

/-! ## Encoding -/

def writeOutPoint (op : OutPoint) : Bytes := [op.hash.bytes, putUint32LE op.index].flatten

def writeTxIn (ti : TxIn) : Bytes :=
  [writeOutPoint ti.previousOutPoint, writeVarBytes ti.signatureScript, putUint32LE ti.sequence].flatten

def writeTxOut (out : TxOut) : Bytes := [leBytes 8 out.value.toUInt64.toNat, writeVarBytes out.pkScript].flatten
def writeTxWitness (wit : List Bytes) : Bytes := writeList writeVarBytes wit

def MsgTx.btcEncode (tx : MsgTx) (enc : MessageEncoding) : Bytes :=
  let doWitness := enc == witnessEncoding && tx.hasWitness
  [putUint32LE tx.version.toUInt32, if doWitness then [txFlagMarker, witnessFlag] else [], writeList writeTxIn tx.txIn,
    writeList writeTxOut tx.txOut,
    if doWitness then (tx.txIn.map fun ti => writeTxWitness ti.items).flatten else [],
    putUint32LE tx.lockTime].flatten

/-! ## Decoding -/

/-- Where scripts go as they are read: how much room is left, and what is kept of a script. -/
structure Scratch (σ S : Type) where
  room : S → Nat
  keep : S → Bytes → σ × S

section Decode
variable {σ S : Type} (M : Scratch σ S)

/-- `readScriptBuf`, and the `sbuf = sbuf[len(script):]` after it. -/
def readScriptBuf (fieldName : String) (sbuf : S) : WireReader (σ × S) := do
  let count ← readVarInt
  refuse (maxWitnessItemSize < count.toNat) (.message "readScript"
    s!"{fieldName} is larger than the max allowed size [count {count}, max {maxWitnessItemSize}]")
  refuse (M.room sbuf < count.toNat) (.message "readScript"
    s!"{fieldName} exceeds remaining buffer capacity [count {count}, remaining {M.room sbuf}]")
  let script ← readFull count.toNat
  return M.keep sbuf script

def readOutPoint : WireReader OutPoint := do
  let hash ← readArray 32
  let index ← readUint32LE
  return ⟨hash, index⟩

def readTxInBuf (sbuf : S) : WireReader (TxInOf σ × S) := do
  let previousOutPoint ← readOutPoint
  let script ← readScriptBuf M "transaction input signature script" sbuf
  let sequence ← readUint32LE
  return (⟨previousOutPoint, script.1, none, sequence⟩, script.2)

def readTxOutBuf (sbuf : S) : WireReader (TxOutOf σ × S) := do
  let value ← readInt64LE
  let script ← readScriptBuf M "transaction output public key script" sbuf
  return (⟨value, script.1⟩, script.2)

/-- The witness of an input, in the loop of `btcDecode`. -/
def readTxWitness (sbuf : S) : WireReader (List σ × S) := do
  let witCount ← readVarInt
  refuse (maxWitnessItemsPerInput < witCount.toNat) (.message "MsgTx.BtcDecode"
    s!"too many witness items to fit into max message size [count {witCount}, max {maxWitnessItemsPerInput}]")
  iterate (readScriptBuf M "script witness item") witCount.toNat sbuf

/-- The number of inputs, and the flag if there is one. -/
def readTxInCount (enc : MessageEncoding) : WireReader (UInt8 × UInt64) := do
  let count ← readVarInt
  if count = 0 ∧ enc = witnessEncoding then
    let flag ← readUint8
    refuse (flag ≠ witnessFlag) (.message "MsgTx.BtcDecode"
      ("witness tx but flag byte is " ++ (if flag.toNat < 16 then "0" else "") ++ hex flag.toNat))
    let count ← readVarInt
    return (flag, count)
  else
    return (0, count)

/-- `txin.Witness = …` for each of the inputs. -/
def setWitnesses (txIn : List (TxInOf σ)) (witnesses : List (List σ)) : List (TxInOf σ) :=
  List.zipWith (fun ti witness => { ti with witness := some witness }) txIn witnesses

/-- The witnesses of the inputs, if the flag says so. -/
def readTxWitnesses (enc : MessageEncoding) (flag : UInt8) (txIn : List (TxInOf σ)) (sbuf : S) :
    WireReader (List (TxInOf σ) × S) := do
  if flag ≠ 0 ∧ enc = witnessEncoding then
    let witnesses ← iterate (readTxWitness M) txIn.length sbuf
    let txIn := setWitnesses txIn witnesses.1
    refuse (txIn.any (fun ti => ti.items.length != 0) = false) .superfluousWitnessRecord
    return (txIn, witnesses.2)
  else
    return (txIn, sbuf)

/-- `btcDecode`, up to the point where the scripts are moved. -/
def MsgTxOf.scan (enc : MessageEncoding) (sbuf : S) : WireReader (MsgTxOf σ × S) := do
  let version ← readInt32LE
  let flagCount ← readTxInCount enc
  let count := flagCount.2
  refuse (maxTxInPerMessage < count.toNat) (.message "MsgTx.BtcDecode"
    s!"too many input transactions to fit into max message size [count {count}, max {maxTxInPerMessage}]")
  let txIn ← iterate (readTxInBuf M) count.toNat sbuf
  let count ← readVarInt
  refuse (maxTxOutPerMessage < count.toNat) (.message "MsgTx.BtcDecode"
    s!"too many output transactions to fit into max message size [count {count}, max {maxTxOutPerMessage}]")
  let txOut ← iterate (readTxOutBuf M) count.toNat txIn.2
  let txIn ← readTxWitnesses M enc flagCount.1 txIn.1 txOut.2
  let lockTime ← readUint32LE
  return (⟨version, txIn.1, txOut.1, lockTime⟩, txIn.2)

end Decode

/-! ### The slab -/

/-- Scripts are slices of the slab. -/
def slabScratch : Scratch Slice Arena where
  room sbuf := sbuf.mem.length - sbuf.used
  keep := Arena.put

/-- A script is copied out of the slab and behind the scripts that have been copied. -/
def moveScript (slab : Bytes) (scripts : Arena) (script : Slice) : Slice × Arena := scripts.put (script.get slab)

def moveTxIn (slab : Bytes) (scripts : Arena) (ti : TxInOf Slice) : TxInOf Slice × Arena :=
  let script := moveScript slab scripts ti.signatureScript
  let witness := threadMap (moveScript slab) script.2 ti.items
  (⟨ti.previousOutPoint, script.1, ti.witness.map fun _ => witness.1, ti.sequence⟩, witness.2)

def moveTxOut (slab : Bytes) (scripts : Arena) (out : TxOutOf Slice) : TxOutOf Slice × Arena :=
  let script := moveScript slab scripts out.pkScript
  (⟨out.value, script.1⟩, script.2)

/-- What the slices are in the end. -/
def TxInOf.resolve (mem : Bytes) (ti : TxInOf Slice) : TxIn :=
  ⟨ti.previousOutPoint, ti.signatureScript.get mem, ti.witness.map fun items => items.map (·.get mem), ti.sequence⟩

def TxOutOf.resolve (mem : Bytes) (out : TxOutOf Slice) : TxOut := ⟨out.value, out.pkScript.get mem⟩

/-- The last part of `btcDecode`: `scripts := make([]byte, totalScriptSize)`, and the inputs and outputs in turn. As much
has been used of the slab as there is of scripts. -/
def relocate (sbuf : Arena) (tx : MsgTxOf Slice) : MsgTx :=
  let scripts : Arena := ⟨List.replicate sbuf.used 0, 0⟩
  let txIn := threadMap (moveTxIn sbuf.mem) scripts tx.txIn
  let txOut := threadMap (moveTxOut sbuf.mem) txIn.2 tx.txOut
  ⟨tx.version, txIn.1.map (TxInOf.resolve txOut.2.mem), txOut.1.map (TxOutOf.resolve txOut.2.mem), tx.lockTime⟩

/-- `btcDecode`, with a slab that may have been used before. What it leaves behind in the slab is returned too. -/
def MsgTx.btcDecodeBuf (enc : MessageEncoding) (slab : Bytes) : WireReader (MsgTx × Bytes) := do
  let tx ← MsgTxOf.scan slabScratch enc ⟨slab, 0⟩
  return (relocate tx.2 tx.1, tx.2.mem)

/-- `BtcDecode`, with a slab from the pool. -/
def MsgTx.btcDecode (enc : MessageEncoding) (slab : ScriptSlab) : WireReader MsgTx := do
  let tx ← MsgTx.btcDecodeBuf enc slab.bytes
  return tx.1

end NogoCommons.Wire
