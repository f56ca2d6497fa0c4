import NogoCommons.Wire.Block

/-!
# The smaller messages of `wire`

Each message has a decoder and an encoder, and for each of them the decoder reads what is written of a message within
its limits. Where the limits of the encoder are others than those of the decoder is what the theorems about `Message`
find out; here the two stand next to one another, as in the source.

Messages of one shape share a definition and take their own names and limits as arguments: the three lists of inventory
vectors, the two block locators, the two ranges of filters, and the messages without a payload.
-/

namespace NogoCommons.Wire
open Lib Reader

/-! ## Messages without a payload -/

section Empty
variable (func what : String) (since pver : UInt32)

/-- A message without a payload, for peers that know of it. -/
def decodeEmpty : WireReader Unit :=
  refuse (pver < since) (.message func s!"{what} message invalid for protocol version {pver}")

def encodeEmpty : Except WireError Bytes := do
  failIf (pver < since) (.message func s!"{what} message invalid for protocol version {pver}")
  return []

theorem reads_decodeEmpty {func what : String} {since pver : UInt32} {u : Bytes} {x : Unit} :
    (decodeEmpty func what since pver).Reads u x ↔ ¬ pver < since ∧ u = [] := reads_refuse

end Empty

def MsgVerAck.btcDecode : WireReader Unit := pure ()
def MsgVerAck.btcEncode : Except WireError Bytes := return []
def MsgGetAddr.btcDecode : WireReader Unit := pure ()
def MsgGetAddr.btcEncode : Except WireError Bytes := return []

def MsgMemPool.btcDecode (pver : UInt32) : WireReader Unit :=
  decodeEmpty "MsgMemPool.BtcDecode" "mempool" bip0035Version pver

def MsgMemPool.btcEncode (pver : UInt32) : Except WireError Bytes :=
  encodeEmpty "MsgMemPool.BtcEncode" "mempool" bip0035Version pver

def MsgFilterClear.btcDecode (pver : UInt32) : WireReader Unit :=
  decodeEmpty "MsgFilterClear.BtcDecode" "filterclear" bip0037Version pver

def MsgFilterClear.btcEncode (pver : UInt32) : Except WireError Bytes :=
  encodeEmpty "MsgFilterClear.BtcEncode" "filterclear" bip0037Version pver

def MsgSendHeaders.btcDecode (pver : UInt32) : WireReader Unit :=
  decodeEmpty "MsgSendHeaders.BtcDecode" "sendheaders" sendHeadersVersion pver

def MsgSendHeaders.btcEncode (pver : UInt32) : Except WireError Bytes :=
  encodeEmpty "MsgSendHeaders.BtcEncode" "sendheaders" sendHeadersVersion pver

def MsgSendAddrV2.btcDecode (pver : UInt32) : WireReader Unit :=
  decodeEmpty "MsgSendAddrV2.BtcDecode" "sendaddrv2" addrV2Version pver

def MsgSendAddrV2.btcEncode (pver : UInt32) : Except WireError Bytes :=
  encodeEmpty "MsgSendAddrV2.BtcEncode" "sendaddrv2" addrV2Version pver

def MsgWTxIdRelay.btcDecode (pver : UInt32) : WireReader Unit :=
  decodeEmpty "MsgWTxIdRelay.BtcDecode" "wtxidrelay" addrV2Version pver

def MsgWTxIdRelay.btcEncode (pver : UInt32) : Except WireError Bytes :=
  encodeEmpty "MsgWTxIdRelay.BtcEncode" "wtxidrelay" addrV2Version pver

/-! ## Pings -/

def MsgPing.btcDecode (pver : UInt32) : WireReader UInt64 :=
  if bip0031Version < pver then readUint64LE else return 0

def MsgPing.btcEncode (nonce : UInt64) (pver : UInt32) : Except WireError Bytes :=
  return if bip0031Version < pver then leBytes 8 nonce.toNat else []

def MsgPong.btcDecode (pver : UInt32) : WireReader UInt64 := do
  refuse (pver ≤ bip0031Version) (.message "MsgPong.BtcDecode" s!"pong message invalid for protocol version {pver}")
  readUint64LE

def MsgPong.btcEncode (nonce : UInt64) (pver : UInt32) : Except WireError Bytes := do
  failIf (pver ≤ bip0031Version) (.message "MsgPong.BtcEncode" s!"pong message invalid for protocol version {pver}")
  return leBytes 8 nonce.toNat

/-! ## Inventories -/

structure InvVect where
  type : UInt32
  hash : ChainHash
deriving DecidableEq

def maxInvPerMsg : Nat := 50000
def maxInvVectPayload : Nat := 4 + hashSize

def readInvVect : WireReader InvVect := do
  let type ← readUint32LE
  let hash ← readArray 32
  return ⟨type, hash⟩

def writeInvVect (iv : InvVect) : Bytes := [putUint32LE iv.type, iv.hash.bytes].flatten

theorem format_readInvVect : Format readInvVect (fun _ => True) writeInvVect := by
  refine (format_readUint32LE.field InvVect.type fun type => (format_readArray 32).field InvVect.hash fun hash =>
    formatOf_pure ?_).format (by simp) fun _ => rfl
  rintro ⟨⟩
  simp

/-- The list of a `MsgInv`, a `MsgGetData` or a `MsgNotFound`. -/
def decodeInvList (func : String) : WireReader (List InvVect) :=
  readList maxInvPerMsg (fun count => .message func s!"too many invvect in message [{count}]") readInvVect

def encodeInvList (func : String) (invList : List InvVect) : Except WireError Bytes := do
  let count := invList.length
  failIf (maxInvPerMsg < count) (.message func s!"too many invvect in message [{count}]")
  return writeList writeInvVect invList

theorem format_decodeInvList (func : String) : Format (decodeInvList func)
    (fun invList => invList.length ≤ maxInvPerMsg ∧ ∀ iv ∈ invList, True) (writeList writeInvVect) :=
  format_readList (by decide) format_readInvVect

def MsgInv.btcDecode : WireReader (List InvVect) := decodeInvList "MsgInv.BtcDecode"
def MsgInv.btcEncode : List InvVect → Except WireError Bytes := encodeInvList "MsgInv.BtcEncode"
def MsgGetData.btcDecode : WireReader (List InvVect) := decodeInvList "MsgGetData.BtcDecode"
def MsgGetData.btcEncode : List InvVect → Except WireError Bytes := encodeInvList "MsgGetData.BtcEncode"
def MsgNotFound.btcDecode : WireReader (List InvVect) := decodeInvList "MsgNotFound.BtcDecode"
def MsgNotFound.btcEncode : List InvVect → Except WireError Bytes := encodeInvList "MsgNotFound.BtcEncode"

/-! ## Block locators -/

/-- `MsgGetBlocks`, `MsgGetHeaders`. -/
structure BlockLocator where
  protocolVersion : UInt32
  blockLocatorHashes : List ChainHash
  hashStop : ChainHash
deriving DecidableEq

def maxBlockLocatorsPerMsg : Nat := 500

def decodeLocator (func : String) : WireReader BlockLocator := do
  let protocolVersion ← readUint32LE
  let hashes ← readList maxBlockLocatorsPerMsg (fun count => .message func
    s!"too many block locator hashes for message [count {count}, max {maxBlockLocatorsPerMsg}]") (readArray 32)
  let hashStop ← readArray 32
  return ⟨protocolVersion, hashes, hashStop⟩

def BlockLocator.write (msg : BlockLocator) : Bytes :=
  [putUint32LE msg.protocolVersion, writeList FixedBytes.bytes msg.blockLocatorHashes, msg.hashStop.bytes].flatten

def encodeLocator (func : String) (msg : BlockLocator) : Except WireError Bytes := do
  let count := msg.blockLocatorHashes.length
  failIf (maxBlockLocatorsPerMsg < count) (.message func
    s!"too many block locator hashes for message [count {count}, max {maxBlockLocatorsPerMsg}]")
  return msg.write

theorem format_decodeLocator (func : String) : Format (decodeLocator func)
    (fun msg => msg.blockLocatorHashes.length ≤ maxBlockLocatorsPerMsg) BlockLocator.write := by
  refine (format_readUint32LE.field BlockLocator.protocolVersion fun protocolVersion =>
    (format_readList (by decide) (format_readArray 32)).field BlockLocator.blockLocatorHashes fun hashes =>
    (format_readArray 32).field BlockLocator.hashStop fun hashStop => formatOf_pure ?_).format (by simp) fun _ => rfl
  rintro ⟨⟩
  simp [and_assoc]

def MsgGetBlocks.btcDecode : WireReader BlockLocator := decodeLocator "MsgGetBlocks.BtcDecode"
def MsgGetBlocks.btcEncode : BlockLocator → Except WireError Bytes := encodeLocator "MsgGetBlocks.BtcEncode"
def MsgGetHeaders.btcDecode : WireReader BlockLocator := decodeLocator "MsgGetHeaders.BtcDecode"
def MsgGetHeaders.btcEncode : BlockLocator → Except WireError Bytes := encodeLocator "MsgGetHeaders.BtcEncode"

/-! ## Bloom filters -/

def maxFilterAddDataSize : Nat := 520

def MsgFilterAdd.btcDecode (pver : UInt32) : WireReader Bytes := do
  refuse (pver < bip0037Version) (.message "MsgFilterAdd.BtcDecode"
    s!"filteradd message invalid for protocol version {pver}")
  readVarBytes maxFilterAddDataSize "filteradd data"

def MsgFilterAdd.btcEncode (data : Bytes) (pver : UInt32) : Except WireError Bytes := do
  failIf (pver < bip0037Version) (.message "MsgFilterAdd.BtcEncode"
    s!"filteradd message invalid for protocol version {pver}")
  let size := data.length
  failIf (maxFilterAddDataSize < size) (.message "MsgFilterAdd.BtcEncode"
    s!"filteradd size too large for message [size {size}, max {maxFilterAddDataSize}]")
  return writeVarBytes data

structure MsgFilterLoad where
  filter : Bytes
  hashFuncs : UInt32
  tweak : UInt32
  flags : UInt8
deriving DecidableEq

def maxFilterLoadHashFuncs : Nat := 50
def maxFilterLoadFilterSize : Nat := 36000

def MsgFilterLoad.btcDecode (pver : UInt32) : WireReader MsgFilterLoad := do
  refuse (pver < bip0037Version) (.message "MsgFilterLoad.BtcDecode"
    s!"filterload message invalid for protocol version {pver}")
  let filter ← readVarBytes maxFilterLoadFilterSize "filterload filter size"
  let hashFuncs ← readUint32LE
  let tweak ← readUint32LE
  let flags ← readUint8
  refuse (maxFilterLoadHashFuncs < hashFuncs.toNat) (.message "MsgFilterLoad.BtcDecode"
    s!"too many filter hash functions for message [count {hashFuncs}, max {maxFilterLoadHashFuncs}]")
  return ⟨filter, hashFuncs, tweak, flags⟩

def MsgFilterLoad.write (msg : MsgFilterLoad) : Bytes :=
  [writeVarBytes msg.filter, putUint32LE msg.hashFuncs, putUint32LE msg.tweak, [msg.flags]].flatten

def MsgFilterLoad.btcEncode (msg : MsgFilterLoad) (pver : UInt32) : Except WireError Bytes := do
  failIf (pver < bip0037Version) (.message "MsgFilterLoad.BtcEncode"
    s!"filterload message invalid for protocol version {pver}")
  let size := msg.filter.length
  failIf (maxFilterLoadFilterSize < size) (.message "MsgFilterLoad.BtcEncode"
    s!"filterload filter size too large for message [size {size}, max {maxFilterLoadFilterSize}]")
  let hashFuncs := msg.hashFuncs
  failIf (maxFilterLoadHashFuncs < hashFuncs.toNat) (.message "MsgFilterLoad.BtcEncode"
    s!"too many filter hash functions for message [count {hashFuncs}, max {maxFilterLoadHashFuncs}]")
  return msg.write

theorem format_btcDecode_filterLoad (pver : UInt32) : Format (MsgFilterLoad.btcDecode pver)
    (fun msg => ¬ pver < bip0037Version ∧ msg.filter.length ≤ maxFilterLoadFilterSize ∧
      ¬ maxFilterLoadHashFuncs < msg.hashFuncs.toNat) MsgFilterLoad.write := by
  refine FormatOf.format (.check (fun _ => (format_readVarBytes (by decide) _).field MsgFilterLoad.filter fun filter =>
    format_readUint32LE.field MsgFilterLoad.hashFuncs fun hashFuncs =>
    format_readUint32LE.field MsgFilterLoad.tweak fun tweak => format_readUint8.field MsgFilterLoad.flags fun flags =>
    .check (fun _ => formatOf_pure ?_) (fun msg : MsgFilterLoad => maxFilterLoadHashFuncs < msg.hashFuncs.toNat) ?_)
      _ fun _ _ => Iff.rfl) (by simp) fun _ => rfl
  · rintro ⟨⟩
    simp [and_assoc]
  · rintro msg ⟨⟨⟨-, rfl⟩, -⟩, -⟩
    rfl

/-! ## Rejections and fees -/

def cmdBlock : Bytes := ascii "block"
def cmdTx : Bytes := ascii "tx"

structure MsgReject where
  cmd : Bytes
  code : UInt8
  reason : Bytes
  hash : ChainHash
deriving DecidableEq

/-- Whether a rejection is of something that has a hash. -/
def MsgReject.namesHash (cmd : Bytes) : Bool := cmd == cmdBlock || cmd == cmdTx

def MsgReject.btcDecode (pver : UInt32) : WireReader MsgReject := do
  refuse (pver < rejectVersion) (.message "MsgReject.BtcDecode" s!"reject message invalid for protocol version {pver}")
  let cmd ← readVarString
  let code ← readUint8
  let reason ← readVarString
  if MsgReject.namesHash cmd then
    let hash ← readArray 32
    return ⟨cmd, code, reason, hash⟩
  else
    return ⟨cmd, code, reason, FixedBytes.zero 32⟩

def MsgReject.write (msg : MsgReject) : Bytes :=
  [writeVarBytes msg.cmd, [msg.code], writeVarBytes msg.reason,
    if MsgReject.namesHash msg.cmd then msg.hash.bytes else []].flatten

def MsgReject.btcEncode (msg : MsgReject) (pver : UInt32) : Except WireError Bytes := do
  failIf (pver < rejectVersion) (.message "MsgReject.BtcEncode" s!"reject message invalid for protocol version {pver}")
  return msg.write

theorem reads_btcDecode_reject {msg : MsgReject} {pver : UInt32} (hpver : ¬ pver < rejectVersion)
    (hcmd : msg.cmd.length ≤ maxMessagePayload) (hreason : msg.reason.length ≤ maxMessagePayload)
    (hzero : MsgReject.namesHash msg.cmd = false → msg.hash = FixedBytes.zero 32) :
    (MsgReject.btcDecode pver).Reads msg.write msg := by
  refine reads_refuse_bind.mpr ⟨hpver, ?_⟩
  apply (format_readVarString.reads hcmd).bind
  apply (format_readUint8.reads trivial).bind
  apply (format_readVarString.reads hreason).bind
  split_ifs with hnames
  · apply ((format_readArray 32).reads trivial).bind
    exact reads_pure.mpr ⟨rfl, rfl⟩
  · refine reads_pure.mpr ⟨rfl, ?_⟩
    rw [← hzero (Bool.eq_false_of_not_eq_true hnames)]

def MsgFeeFilter.btcDecode (pver : UInt32) : WireReader Int64 := do
  refuse (pver < feeFilterVersion) (.message "MsgFeeFilter.BtcDecode"
    s!"feefilter message invalid for protocol version {pver}")
  readInt64LE

def MsgFeeFilter.btcEncode (minFee : Int64) (pver : UInt32) : Except WireError Bytes := do
  failIf (pver < feeFilterVersion) (.message "MsgFeeFilter.BtcEncode"
    s!"feefilter message invalid for protocol version {pver}")
  return leBytes 8 minFee.toUInt64.toNat

/-! ## Committed filters -/

/-- `MsgGetCFilters`, `MsgGetCFHeaders`. -/
structure FilterRange where
  filterType : UInt8
  startHeight : UInt32
  stopHash : ChainHash
deriving DecidableEq

def decodeFilterRange : WireReader FilterRange := do
  let filterType ← readUint8
  let startHeight ← readUint32LE
  let stopHash ← readArray 32
  return ⟨filterType, startHeight, stopHash⟩

def FilterRange.write (msg : FilterRange) : Bytes :=
  [[msg.filterType], putUint32LE msg.startHeight, msg.stopHash.bytes].flatten

theorem format_decodeFilterRange : Format decodeFilterRange (fun _ => True) FilterRange.write := by
  refine (format_readUint8.field FilterRange.filterType fun filterType =>
    format_readUint32LE.field FilterRange.startHeight fun startHeight =>
    (format_readArray 32).field FilterRange.stopHash fun stopHash => formatOf_pure ?_).format (by simp) fun _ => rfl
  rintro ⟨⟩
  simp [and_assoc]

def MsgGetCFilters.btcDecode : WireReader FilterRange := decodeFilterRange
def MsgGetCFilters.btcEncode (msg : FilterRange) : Except WireError Bytes := return msg.write
def MsgGetCFHeaders.btcDecode : WireReader FilterRange := decodeFilterRange
def MsgGetCFHeaders.btcEncode (msg : FilterRange) : Except WireError Bytes := return msg.write

structure MsgGetCFCheckpt where
  filterType : UInt8
  stopHash : ChainHash
deriving DecidableEq

def MsgGetCFCheckpt.btcDecode : WireReader MsgGetCFCheckpt := do
  let filterType ← readUint8
  let stopHash ← readArray 32
  return ⟨filterType, stopHash⟩

def MsgGetCFCheckpt.write (msg : MsgGetCFCheckpt) : Bytes := [[msg.filterType], msg.stopHash.bytes].flatten
def MsgGetCFCheckpt.btcEncode (msg : MsgGetCFCheckpt) : Except WireError Bytes := return msg.write

theorem reads_btcDecode_getCFCheckpt (msg : MsgGetCFCheckpt) : MsgGetCFCheckpt.btcDecode.Reads msg.write msg := by
  apply (format_readUint8.reads trivial).bind
  apply ((format_readArray 32).reads trivial).bind
  exact reads_pure.mpr ⟨rfl, rfl⟩

structure MsgCFilter where
  filterType : UInt8
  blockHash : ChainHash
  data : Bytes
deriving DecidableEq

def maxCFilterDataSize : Nat := 256 * 1024

def MsgCFilter.btcDecode : WireReader MsgCFilter := do
  let filterType ← readUint8
  let blockHash ← readArray 32
  let data ← readVarBytes maxCFilterDataSize "cfilter data"
  return ⟨filterType, blockHash, data⟩

def MsgCFilter.write (msg : MsgCFilter) : Bytes :=
  [[msg.filterType], msg.blockHash.bytes, writeVarBytes msg.data].flatten

def MsgCFilter.btcEncode (msg : MsgCFilter) : Except WireError Bytes := do
  let size := msg.data.length
  failIf (maxCFilterDataSize < size) (.message "MsgCFilter.BtcEncode"
    s!"cfilter size too large for message [size {size}, max {maxCFilterDataSize}]")
  return msg.write

theorem reads_btcDecode_cfilter {msg : MsgCFilter} (hdata : msg.data.length ≤ maxCFilterDataSize) :
    MsgCFilter.btcDecode.Reads msg.write msg := by
  apply (format_readUint8.reads trivial).bind
  apply ((format_readArray 32).reads trivial).bind
  apply ((format_readVarBytes (by decide) _).reads hdata).bind
  exact reads_pure.mpr ⟨rfl, rfl⟩

structure MsgCFHeaders where
  filterType : UInt8
  stopHash : ChainHash
  prevFilterHeader : ChainHash
  filterHashes : List ChainHash
deriving DecidableEq

def maxCFHeadersPerMsg : Nat := 2000

def MsgCFHeaders.btcDecode : WireReader MsgCFHeaders := do
  let filterType ← readUint8
  let stopHash ← readArray 32
  let prevFilterHeader ← readArray 32
  let filterHashes ← readList maxCFHeadersPerMsg (fun count => .message "MsgCFHeaders.BtcDecode"
    s!"too many committed filter headers for message [count {count}, max {maxBlockHeadersPerMsg}]") (readArray 32)
  return ⟨filterType, stopHash, prevFilterHeader, filterHashes⟩

def MsgCFHeaders.write (msg : MsgCFHeaders) : Bytes :=
  [[msg.filterType], msg.stopHash.bytes, msg.prevFilterHeader.bytes, writeList FixedBytes.bytes msg.filterHashes].flatten

def MsgCFHeaders.btcEncode (msg : MsgCFHeaders) : Except WireError Bytes := do
  let count := msg.filterHashes.length
  failIf (maxCFHeadersPerMsg < count) (.message "MsgCFHeaders.BtcEncode"
    s!"too many committed filter headers for message [count {count}, max {maxBlockHeadersPerMsg}]")
  return msg.write

theorem reads_btcDecode_cfheaders {msg : MsgCFHeaders} (hlen : msg.filterHashes.length ≤ maxCFHeadersPerMsg) :
    MsgCFHeaders.btcDecode.Reads msg.write msg := by
  apply (format_readUint8.reads trivial).bind
  apply ((format_readArray 32).reads trivial).bind
  apply ((format_readArray 32).reads trivial).bind
  apply ((format_readList (by decide) (format_readArray 32)).reads ⟨hlen, fun _ _ => trivial⟩).bind
  exact reads_pure.mpr ⟨rfl, rfl⟩

structure MsgCFCheckpt where
  filterType : UInt8
  stopHash : ChainHash
  filterHeaders : List ChainHash
deriving DecidableEq

def maxCFHeadersLen : Nat := 100000
def maxCFCheckptPayload : Nat := 1 + 32 + 5 + maxCFHeadersLen * 32

def MsgCFCheckpt.btcDecode : WireReader MsgCFCheckpt := do
  let filterType ← readUint8
  let stopHash ← readArray 32
  let filterHeaders ← readList maxCFHeadersLen (fun _ => .insaneCFHeaderCount) (readArray 32)
  return ⟨filterType, stopHash, filterHeaders⟩

def MsgCFCheckpt.write (msg : MsgCFCheckpt) : Bytes :=
  [[msg.filterType], msg.stopHash.bytes, writeList FixedBytes.bytes msg.filterHeaders].flatten

/-- There is no limit here. -/
def MsgCFCheckpt.btcEncode (msg : MsgCFCheckpt) : Except WireError Bytes := return msg.write

theorem reads_btcDecode_cfcheckpt {msg : MsgCFCheckpt} (hlen : msg.filterHeaders.length ≤ maxCFHeadersLen) :
    MsgCFCheckpt.btcDecode.Reads msg.write msg := by
  apply (format_readUint8.reads trivial).bind
  apply ((format_readArray 32).reads trivial).bind
  apply ((format_readList (by decide) (format_readArray 32)).reads ⟨hlen, fun _ _ => trivial⟩).bind
  exact reads_pure.mpr ⟨rfl, rfl⟩

end NogoCommons.Wire
