import NogoCommons.Wire.TxSlab

/-!
# `wire/blockheader.go`, `wire/msgblock.go`, `wire/msgheaders.go`, `wire/msgmerkleblock.go`

A block is a header and a list of transactions, and one slab serves all of its transactions, one after the other. Since a
transaction does not depend on what the slab holds, the list is the same as if every transaction had been decoded alone
(`btcDecode_block_eq`), and blocks are a format because headers and transactions are (`format_btcDecode_block`).

A header has a timestamp of 32 bits on the wire and of 64 in memory. So a header that was decoded has a timestamp that
fits, and any other is encoded as one that does (`BlockHeader.truncate`).
-/

namespace NogoCommons.Wire
open Lib Reader

/-! ## Headers -/

structure BlockHeader where
  version : Int32
  prevBlock : ChainHash
  merkleRoot : ChainHash
  timestamp : Time
  bits : UInt32
  nonce : UInt32
deriving DecidableEq

def maxBlockHeaderPayload : Nat := 16 + hashSize * 2

def readBlockHeader : WireReader BlockHeader := do
  let version ← readInt32LE
  let prevBlock ← readArray 32
  let merkleRoot ← readArray 32
  let timestamp ← readTime
  let bits ← readUint32LE
  let nonce ← readUint32LE
  return ⟨version, prevBlock, merkleRoot, timestamp, bits, nonce⟩

def writeBlockHeader (bh : BlockHeader) : Bytes :=
  [putUint32LE bh.version.toUInt32, bh.prevBlock.bytes, bh.merkleRoot.bytes, writeTime bh.timestamp,
    putUint32LE bh.bits, putUint32LE bh.nonce].flatten

theorem format_readBlockHeader : Format readBlockHeader (fun bh => bh.timestamp.Fits) writeBlockHeader := by
  refine (format_readInt32LE.field BlockHeader.version fun version =>
    (format_readArray 32).field BlockHeader.prevBlock fun prevBlock =>
    (format_readArray 32).field BlockHeader.merkleRoot fun merkleRoot =>
    format_readTime.field BlockHeader.timestamp fun timestamp => format_readUint32LE.field BlockHeader.bits fun bits =>
    format_readUint32LE.field BlockHeader.nonce fun nonce => formatOf_pure ?_).format (by simp) fun _ => rfl
  rintro ⟨⟩
  simp [and_assoc]

theorem length_writeBlockHeader (bh : BlockHeader) : (writeBlockHeader bh).length = 80 := by
  simp [writeBlockHeader, writeTime]

/-- A header as it is after it has been encoded and decoded. -/
def BlockHeader.truncate (bh : BlockHeader) : BlockHeader := { bh with timestamp := Time.ofUint32 bh.timestamp.uint32 }

theorem writeBlockHeader_truncate (bh : BlockHeader) : writeBlockHeader bh.truncate = writeBlockHeader bh := by
  simp [writeBlockHeader, BlockHeader.truncate, writeTime]

/-! ## Blocks -/

structure MsgBlock where
  header : BlockHeader
  transactions : List MsgTx
deriving DecidableEq

def maxBlockPayload : Nat := 4000000
def maxTxPerBlock : Nat := maxBlockPayload / minTxPayload + 1

def MsgBlock.btcDecode (enc : MessageEncoding) (slab : ScriptSlab) : WireReader MsgBlock := do
  let header ← readBlockHeader
  let txCount ← readVarInt
  refuse (maxTxPerBlock < txCount.toNat) (.message "MsgBlock.BtcDecode"
    s!"too many transactions to fit into a block [count {txCount}, max {maxTxPerBlock}]")
  let transactions ← iterate (MsgTx.btcDecodeBuf enc) txCount.toNat slab.bytes
  return ⟨header, transactions.1⟩

def MsgBlock.btcEncode (msg : MsgBlock) (enc : MessageEncoding) : Bytes :=
  [writeBlockHeader msg.header, writeList (fun tx => MsgTx.btcEncode tx enc) msg.transactions].flatten

/-- Every transaction might as well be decoded alone. -/
theorem btcDecode_block_eq (enc : MessageEncoding) (slab : ScriptSlab) : MsgBlock.btcDecode enc slab = do
      let header ← readBlockHeader
      let txCount ← readVarInt
      refuse (maxTxPerBlock < txCount.toNat) (.message "MsgBlock.BtcDecode"
        s!"too many transactions to fit into a block [count {txCount}, max {maxTxPerBlock}]")
      let transactions ← times txCount.toNat (MsgTx.decodeValues enc)
      return ⟨header, transactions⟩ := by
  apply Sim.eq
  apply sim_after
  intro _ header _
  apply sim_after
  intro _ txCount _
  apply sim_refuse
  intro _
  apply (sim_iterate_times (I := fun s => s.length = scriptSlabSize) (fun _ => sim_btcDecodeBuf enc) txCount.toNat
    slab.bytes slab.length_eq).bind
  rintro transactions values ⟨rfl, -⟩
  exact sim_pure rfl

theorem format_btcDecode_block (enc : MessageEncoding) (slab : ScriptSlab) : Format (MsgBlock.btcDecode enc slab)
      (fun msg => msg.header.timestamp.Fits ∧ msg.transactions.length ≤ maxTxPerBlock ∧
        ∀ tx ∈ msg.transactions, Decodable enc tx)
      (fun msg => msg.btcEncode enc) := by
  intro u msg
  rw [btcDecode_block_eq, format_readBlockHeader.reads_bind]
  constructor
  · rintro ⟨header, hfits, v₀, rfl, h₀⟩
    obtain ⟨txCount, -, v₁, rfl, h₁⟩ := format_readVarInt.reads_bind.mp h₀
    obtain ⟨hmax, h₂⟩ := reads_refuse_bind.mp h₁
    obtain ⟨transactions, ⟨hlen, hall⟩, v₂, rfl, h₃⟩ := ((format_decodeValues enc).times _).reads_bind.mp h₂
    obtain ⟨rfl, rfl⟩ := reads_pure.mp h₃
    refine ⟨⟨hfits, hlen.le.trans (Nat.not_lt.mp hmax), hall⟩, ?_⟩
    simp only [MsgBlock.btcEncode, writeList, len64_of_length hlen, List.flatten_cons, List.flatten_nil,
      List.append_nil]
  · rintro ⟨⟨hfits, hmax, hall⟩, rfl⟩
    have hcount := toNat_len64 (hmax.trans_lt (by decide))
    refine ⟨msg.header, hfits, writeList (fun tx => MsgTx.btcEncode tx enc) msg.transactions, ?_, ?_⟩
    · exact congrArg (writeBlockHeader msg.header ++ ·) (List.append_nil _)
    · refine format_readVarInt.reads_bind.mpr ⟨len64 msg.transactions.length, trivial, _, rfl, ?_⟩
      refine reads_refuse_bind.mpr ⟨by omega, ?_⟩
      refine ((format_decodeValues enc).times _).reads_bind.mpr
        ⟨msg.transactions, ⟨hcount.symm, hall⟩, [], (List.append_nil _).symm, reads_pure.mpr ⟨rfl, rfl⟩⟩

/-! ## Lists of headers -/

structure MsgHeaders where
  headers : List BlockHeader
deriving DecidableEq

def maxBlockHeadersPerMsg : Nat := 2000

/-- A header and the number of its transactions, which has to be zero. -/
def readBareHeader : WireReader BlockHeader := do
  let bh ← readBlockHeader
  let txCount ← readVarInt
  refuse (0 < txCount.toNat) (.message "MsgHeaders.BtcDecode"
    s!"block headers may not contain transactions [count {txCount}]")
  return bh

def writeBareHeader (bh : BlockHeader) : Bytes := [writeBlockHeader bh, writeVarInt 0].flatten

def MsgHeaders.btcDecode : WireReader MsgHeaders := do
  let headers ← readList maxBlockHeadersPerMsg (fun count => .message "MsgHeaders.BtcDecode"
    s!"too many block headers for message [count {count}, max {maxBlockHeadersPerMsg}]") readBareHeader
  return ⟨headers⟩

def MsgHeaders.btcEncode (msg : MsgHeaders) : Except WireError Bytes := do
  let count := msg.headers.length
  failIf (maxBlockHeadersPerMsg < count) (.message "MsgHeaders.BtcEncode"
    s!"too many block headers for message [count {count}, max {maxBlockHeadersPerMsg}]")
  return writeList writeBareHeader msg.headers

theorem format_readBareHeader : Format readBareHeader (fun bh => bh.timestamp.Fits) writeBareHeader := by
  intro u bh
  rw [readBareHeader, format_readBlockHeader.reads_bind]
  constructor
  · rintro ⟨header, hfits, v₀, rfl, h₀⟩
    obtain ⟨txCount, -, v₁, rfl, h₁⟩ := format_readVarInt.reads_bind.mp h₀
    obtain ⟨hzero, h₂⟩ := reads_refuse_bind.mp h₁
    obtain ⟨rfl, rfl⟩ := reads_pure.mp h₂
    obtain rfl : txCount = 0 := UInt64.toNat_inj.mp (Nat.eq_zero_of_not_pos hzero)
    exact ⟨hfits, rfl⟩
  · rintro ⟨hfits, rfl⟩
    refine ⟨bh, hfits, _, rfl, ?_⟩
    apply (format_readVarInt.reads (a := 0) trivial).bind
    exact reads_refuse_bind.mpr ⟨by decide, reads_pure.mpr ⟨rfl, rfl⟩⟩

theorem writeBareHeader_truncate (bh : BlockHeader) : writeBareHeader bh.truncate = writeBareHeader bh := by
  simp only [writeBareHeader, writeBlockHeader_truncate]

theorem reads_bareHeader (bh : BlockHeader) : readBareHeader.Reads (writeBareHeader bh) bh.truncate := by
  rw [← writeBareHeader_truncate]
  exact format_readBareHeader.reads (Time.fits_ofUint32 _)

/-! ## Merkle blocks -/

structure MsgMerkleBlock where
  header : BlockHeader
  transactions : UInt32
  hashes : List ChainHash
  flags : Bytes
deriving DecidableEq

def maxFlagsPerMerkleBlock : Nat := maxTxPerBlock / 8

def MsgMerkleBlock.addTxHash (msg : MsgMerkleBlock) (hash : ChainHash) : Except WireError MsgMerkleBlock := do
  failIf (maxTxPerBlock < msg.hashes.length + 1) (.message "MsgMerkleBlock.AddTxHash"
    s!"too many tx hashes for message [max {maxTxPerBlock}]")
  return { msg with hashes := msg.hashes ++ [hash] }

def MsgMerkleBlock.btcDecode (pver : UInt32) : WireReader MsgMerkleBlock := do
  refuse (pver < bip0037Version) (.message "MsgMerkleBlock.BtcDecode"
    s!"merkleblock message invalid for protocol version {pver}")
  let header ← readBlockHeader
  let transactions ← readUint32LE
  let hashes ← readList maxTxPerBlock (fun count => .message "MsgMerkleBlock.BtcDecode"
    s!"too many transaction hashes for message [count {count}, max {maxTxPerBlock}]") (readArray 32)
  let flags ← readVarBytes maxFlagsPerMerkleBlock "merkle block flags size"
  return ⟨header, transactions, hashes, flags⟩

def MsgMerkleBlock.write (msg : MsgMerkleBlock) : Bytes :=
  [writeBlockHeader msg.header, putUint32LE msg.transactions, writeList FixedBytes.bytes msg.hashes,
    writeVarBytes msg.flags].flatten

def MsgMerkleBlock.btcEncode (msg : MsgMerkleBlock) (pver : UInt32) : Except WireError Bytes := do
  failIf (pver < bip0037Version) (.message "MsgMerkleBlock.BtcEncode"
    s!"merkleblock message invalid for protocol version {pver}")
  let numHashes := msg.hashes.length
  failIf (maxTxPerBlock < numHashes) (.message "MsgMerkleBlock.BtcDecode"
    s!"too many transaction hashes for message [count {numHashes}, max {maxTxPerBlock}]")
  let numFlagBytes := msg.flags.length
  failIf (maxFlagsPerMerkleBlock < numFlagBytes) (.message "MsgMerkleBlock.BtcDecode"
    s!"too many flag bytes for message [count {numFlagBytes}, max {maxFlagsPerMerkleBlock}]")
  return msg.write

theorem format_btcDecode_merkleBlock (pver : UInt32) : Format (MsgMerkleBlock.btcDecode pver)
    (fun msg => ¬ pver < bip0037Version ∧ msg.header.timestamp.Fits ∧ msg.hashes.length ≤ maxTxPerBlock ∧
      msg.flags.length ≤ maxFlagsPerMerkleBlock) MsgMerkleBlock.write := by
  refine FormatOf.format (.check (fun _ => format_readBlockHeader.field MsgMerkleBlock.header fun header =>
    format_readUint32LE.field MsgMerkleBlock.transactions fun transactions =>
    (format_readList (by decide) (format_readArray 32)).field MsgMerkleBlock.hashes fun hashes =>
    (format_readVarBytes (by decide) _).field MsgMerkleBlock.flags fun flags => formatOf_pure ?_)
      _ fun _ _ => Iff.rfl) (by simp) fun _ => rfl
  rintro ⟨⟩
  simp [and_assoc]

end NogoCommons.Wire
