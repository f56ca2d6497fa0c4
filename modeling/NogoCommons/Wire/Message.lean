import NogoCommons.Wire.NetAddress
import NogoCommons.Wire.PayloadLimits

/-!
# `wire/message.go` — messages and their frame

A message is written as a header and a payload: the network, the command padded to twelve bytes, the length and the first
four bytes of the double hash of the payload. Reading it back goes by the command: `makeEmptyMessage` says which decoder
is to be used, and the decoder has to use up the payload.

What is written can be read, as something that is written the same (`rereads`), if the command is one that
`makeEmptyMessage` knows. It does not know `wtxidrelay`, which has an encoder and a decoder like all others. The one
other message that is not read back as itself is a list of addresses in which an IPv6 address is really one of another
network, because entries of that kind are skipped.

The hash is a parameter, and so is what the slab of the script pool holds.
-/

namespace NogoCommons.Wire
open Lib Reader

/-! ## Commands -/

inductive MessageType where
  | version | verAck | getAddr | addr | addrV2 | getBlocks | inv | getData | notFound | block | tx | getHeaders | headers
  | ping | pong | memPool | filterAdd | filterClear | filterLoad | merkleBlock | reject | sendHeaders | feeFilter
  | getCFilters | getCFHeaders | getCFCheckpt | cfilter | cfheaders | cfcheckpt | sendAddrV2 | wtxidRelay
deriving DecidableEq, Repr

/-- `Command()`. -/
def MessageType.command : MessageType → Bytes
  | .version => ascii "version"
  | .verAck => ascii "verack"
  | .getAddr => ascii "getaddr"
  | .addr => ascii "addr"
  | .addrV2 => ascii "addrv2"
  | .getBlocks => ascii "getblocks"
  | .inv => ascii "inv"
  | .getData => ascii "getdata"
  | .notFound => ascii "notfound"
  | .block => cmdBlock
  | .tx => cmdTx
  | .getHeaders => ascii "getheaders"
  | .headers => ascii "headers"
  | .ping => ascii "ping"
  | .pong => ascii "pong"
  | .memPool => ascii "mempool"
  | .filterAdd => ascii "filteradd"
  | .filterClear => ascii "filterclear"
  | .filterLoad => ascii "filterload"
  | .merkleBlock => ascii "merkleblock"
  | .reject => ascii "reject"
  | .sendHeaders => ascii "sendheaders"
  | .feeFilter => ascii "feefilter"
  | .getCFilters => ascii "getcfilters"
  | .getCFHeaders => ascii "getcfheaders"
  | .getCFCheckpt => ascii "getcfcheckpt"
  | .cfilter => ascii "cfilter"
  | .cfheaders => ascii "cfheaders"
  | .cfcheckpt => ascii "cfcheckpt"
  | .sendAddrV2 => ascii "sendaddrv2"
  | .wtxidRelay => ascii "wtxidrelay"

/-- The cases of `makeEmptyMessage`. -/
def messageTypes : List MessageType :=
  [.version, .verAck, .sendAddrV2, .getAddr, .addr, .addrV2, .getBlocks, .block, .inv, .getData, .notFound, .tx, .ping,
    .pong, .getHeaders, .headers, .memPool, .filterAdd, .filterClear, .filterLoad, .merkleBlock, .reject, .sendHeaders,
    .feeFilter, .getCFilters, .getCFHeaders, .getCFCheckpt, .cfilter, .cfheaders, .cfcheckpt]

def makeEmptyMessage (command : Bytes) : Except WireError MessageType :=
  match messageTypes.find? fun t => t.command == command with
  | some t => .ok t
  | none => .error .unknownMessage

def MessageType.maxPayloadLength (pver : UInt32) : MessageType → Nat
  | .version => 33 + maxNetAddressPayload pver * 2 + maxVarIntPayload + maxUserAgentLen
  | .verAck | .getAddr | .memPool | .filterClear | .sendHeaders | .sendAddrV2 | .wtxidRelay => 0
  | .addr =>
    if pver < multipleAddressVersion then maxVarIntPayload + maxNetAddressPayload pver
    else maxVarIntPayload + maxAddrPerMsg * maxNetAddressPayload pver
  | .addrV2 => 3 + maxV2AddrPerMsg * maxNetAddressV2Payload
  | .getBlocks | .getHeaders => 4 + maxVarIntPayload + maxBlockLocatorsPerMsg * hashSize + hashSize
  | .inv | .getData | .notFound => maxVarIntPayload + maxInvPerMsg * maxInvVectPayload
  | .block | .tx | .merkleBlock => maxBlockPayload
  | .headers => maxVarIntPayload + (maxBlockHeaderPayload + 1) * maxBlockHeadersPerMsg
  | .ping | .pong => if bip0031Version < pver then 8 else 0
  | .filterAdd => varIntSerializeSize (len64 maxFilterAddDataSize) + maxFilterAddDataSize
  | .filterLoad => varIntSerializeSize (len64 maxFilterLoadFilterSize) + maxFilterLoadFilterSize + 9
  | .reject => if rejectVersion ≤ pver then maxProtocolMessageLength else 0
  | .feeFilter => 8
  | .getCFilters | .getCFHeaders => 1 + 4 + hashSize
  | .getCFCheckpt => 1 + hashSize
  | .cfilter => varIntSerializeSize (len64 maxCFilterDataSize) + maxCFilterDataSize + hashSize + 1
  | .cfheaders => 1 + hashSize + hashSize + maxVarIntPayload + hashSize * maxCFHeadersPerMsg
  | .cfcheckpt => maxCFCheckptPayload

/-! ## Messages -/

inductive Message where
  | version (msg : MsgVersion)
  | verAck
  | getAddr
  | addr (addrList : List NetAddress)
  | addrV2 (addrList : List NetAddressV2)
  | getBlocks (msg : BlockLocator)
  | inv (invList : List InvVect)
  | getData (invList : List InvVect)
  | notFound (invList : List InvVect)
  | block (msg : MsgBlock)
  | tx (msg : MsgTx)
  | getHeaders (msg : BlockLocator)
  | headers (msg : MsgHeaders)
  | ping (nonce : UInt64)
  | pong (nonce : UInt64)
  | memPool
  | filterAdd (data : Bytes)
  | filterClear
  | filterLoad (msg : MsgFilterLoad)
  | merkleBlock (msg : MsgMerkleBlock)
  | reject (msg : MsgReject)
  | sendHeaders
  | feeFilter (minFee : Int64)
  | getCFilters (msg : FilterRange)
  | getCFHeaders (msg : FilterRange)
  | getCFCheckpt (msg : MsgGetCFCheckpt)
  | cfilter (msg : MsgCFilter)
  | cfheaders (msg : MsgCFHeaders)
  | cfcheckpt (msg : MsgCFCheckpt)
  | sendAddrV2
  | wtxidRelay
deriving DecidableEq

def Message.type : Message → MessageType
  | .version _ => .version
  | .verAck => .verAck
  | .getAddr => .getAddr
  | .addr _ => .addr
  | .addrV2 _ => .addrV2
  | .getBlocks _ => .getBlocks
  | .inv _ => .inv
  | .getData _ => .getData
  | .notFound _ => .notFound
  | .block _ => .block
  | .tx _ => .tx
  | .getHeaders _ => .getHeaders
  | .headers _ => .headers
  | .ping _ => .ping
  | .pong _ => .pong
  | .memPool => .memPool
  | .filterAdd _ => .filterAdd
  | .filterClear => .filterClear
  | .filterLoad _ => .filterLoad
  | .merkleBlock _ => .merkleBlock
  | .reject _ => .reject
  | .sendHeaders => .sendHeaders
  | .feeFilter _ => .feeFilter
  | .getCFilters _ => .getCFilters
  | .getCFHeaders _ => .getCFHeaders
  | .getCFCheckpt _ => .getCFCheckpt
  | .cfilter _ => .cfilter
  | .cfheaders _ => .cfheaders
  | .cfcheckpt _ => .cfcheckpt
  | .sendAddrV2 => .sendAddrV2
  | .wtxidRelay => .wtxidRelay

def Message.btcEncode (pver : UInt32) (enc : MessageEncoding) : Message → Except WireError Bytes
  | .version msg => msg.btcEncode pver
  | .verAck => MsgVerAck.btcEncode
  | .getAddr => MsgGetAddr.btcEncode
  | .addr addrList => MsgAddr.btcEncode addrList pver
  | .addrV2 addrList => MsgAddrV2.btcEncode addrList
  | .getBlocks msg => MsgGetBlocks.btcEncode msg
  | .inv invList => MsgInv.btcEncode invList
  | .getData invList => MsgGetData.btcEncode invList
  | .notFound invList => MsgNotFound.btcEncode invList
  | .block msg => .ok (msg.btcEncode enc)
  | .tx msg => .ok (msg.btcEncode enc)
  | .getHeaders msg => MsgGetHeaders.btcEncode msg
  | .headers msg => msg.btcEncode
  | .ping nonce => MsgPing.btcEncode nonce pver
  | .pong nonce => MsgPong.btcEncode nonce pver
  | .memPool => MsgMemPool.btcEncode pver
  | .filterAdd data => MsgFilterAdd.btcEncode data pver
  | .filterClear => MsgFilterClear.btcEncode pver
  | .filterLoad msg => msg.btcEncode pver
  | .merkleBlock msg => msg.btcEncode pver
  | .reject msg => msg.btcEncode pver
  | .sendHeaders => MsgSendHeaders.btcEncode pver
  | .feeFilter minFee => MsgFeeFilter.btcEncode minFee pver
  | .getCFilters msg => MsgGetCFilters.btcEncode msg
  | .getCFHeaders msg => MsgGetCFHeaders.btcEncode msg
  | .getCFCheckpt msg => msg.btcEncode
  | .cfilter msg => msg.btcEncode
  | .cfheaders msg => msg.btcEncode
  | .cfcheckpt msg => msg.btcEncode
  | .sendAddrV2 => MsgSendAddrV2.btcEncode pver
  | .wtxidRelay => MsgWTxIdRelay.btcEncode pver

/-- `BtcDecode` into an empty message of the type. -/
def MessageType.btcDecode (pver : UInt32) (enc : MessageEncoding) (slab : ScriptSlab) (buf : Bytes) :
    MessageType → Except WireError (Message × Bytes)
  | .version => (fun r => (.version r.1, r.2)) <$> MsgVersion.btcDecode pver buf
  | .verAck => ((fun _ => Message.verAck) <$> MsgVerAck.btcDecode).run buf
  | .getAddr => ((fun _ => Message.getAddr) <$> MsgGetAddr.btcDecode).run buf
  | .addr => (Message.addr <$> MsgAddr.btcDecode pver).run buf
  | .addrV2 => (Message.addrV2 <$> MsgAddrV2.btcDecode).run buf
  | .getBlocks => (Message.getBlocks <$> MsgGetBlocks.btcDecode).run buf
  | .inv => (Message.inv <$> MsgInv.btcDecode).run buf
  | .getData => (Message.getData <$> MsgGetData.btcDecode).run buf
  | .notFound => (Message.notFound <$> MsgNotFound.btcDecode).run buf
  | .block => (Message.block <$> MsgBlock.btcDecode enc slab).run buf
  | .tx => (Message.tx <$> MsgTx.btcDecode enc slab).run buf
  | .getHeaders => (Message.getHeaders <$> MsgGetHeaders.btcDecode).run buf
  | .headers => (Message.headers <$> MsgHeaders.btcDecode).run buf
  | .ping => (Message.ping <$> MsgPing.btcDecode pver).run buf
  | .pong => (Message.pong <$> MsgPong.btcDecode pver).run buf
  | .memPool => ((fun _ => Message.memPool) <$> MsgMemPool.btcDecode pver).run buf
  | .filterAdd => (Message.filterAdd <$> MsgFilterAdd.btcDecode pver).run buf
  | .filterClear => ((fun _ => Message.filterClear) <$> MsgFilterClear.btcDecode pver).run buf
  | .filterLoad => (Message.filterLoad <$> MsgFilterLoad.btcDecode pver).run buf
  | .merkleBlock => (Message.merkleBlock <$> MsgMerkleBlock.btcDecode pver).run buf
  | .reject => (Message.reject <$> MsgReject.btcDecode pver).run buf
  | .sendHeaders => ((fun _ => Message.sendHeaders) <$> MsgSendHeaders.btcDecode pver).run buf
  | .feeFilter => (Message.feeFilter <$> MsgFeeFilter.btcDecode pver).run buf
  | .getCFilters => (Message.getCFilters <$> MsgGetCFilters.btcDecode).run buf
  | .getCFHeaders => (Message.getCFHeaders <$> MsgGetCFHeaders.btcDecode).run buf
  | .getCFCheckpt => (Message.getCFCheckpt <$> MsgGetCFCheckpt.btcDecode).run buf
  | .cfilter => (Message.cfilter <$> MsgCFilter.btcDecode).run buf
  | .cfheaders => (Message.cfheaders <$> MsgCFHeaders.btcDecode).run buf
  | .cfcheckpt => (Message.cfcheckpt <$> MsgCFCheckpt.btcDecode).run buf
  | .sendAddrV2 => ((fun _ => Message.sendAddrV2) <$> MsgSendAddrV2.btcDecode pver).run buf
  | .wtxidRelay => ((fun _ => Message.wtxidRelay) <$> MsgWTxIdRelay.btcDecode pver).run buf

/-- The transactions in a message. -/
def Message.txs : Message → List MsgTx
  | .tx msg => [msg]
  | .block msg => msg.transactions
  | _ => []

/-! ## The frame -/

def messageHeaderSize : Nat := 24
def commandSize : Nat := 12

/-- `BitcoinNet.String`. -/
def bitcoinNetString (net : UInt32) : String :=
  if net = 0xd9b4bef9 then "MainNet"
  else if net = 0xdab5bffa then "TestNet"
  else if net = 0x0709110b then "TestNet3"
  else if net = 0x283f161c then "TestNet4"
  else if net = 0x40cf030a then "SigNet"
  else if net = 0x12141c16 then "SimNet"
  else s!"Unknown BitcoinNet ({net})"

/-- `string(bs)`, for a message. -/
def showAscii (bs : Bytes) : String := String.ofList (bs.map fun b => Char.ofNat b.toNat)

structure MessageHeader where
  magic : UInt32
  command : Bytes
  length : UInt32
  checksum : FixedBytes 4
deriving DecidableEq

/-- `bytes.TrimRight(command, "\\x00")`. -/
def trimRight (command : Bytes) : Bytes := (command.reverse.dropWhile (· == 0)).reverse

def readMessageHeader : WireReader MessageHeader := do
  let headerBytes ← readFull messageHeaderSize
  return { magic := uint32LE (headerBytes.take 4)
           command := trimRight ((headerBytes.drop 4).take commandSize)
           length := uint32LE ((headerBytes.drop 16).take 4)
           checksum := FixedBytes.copy 4 (headerBytes.drop 20) }

def validString (s : Bytes) : Bool := ByteArray.validateUTF8 ⟨s.toArray⟩
def discardInput (r : Bytes) (n : UInt32) : Bytes := r.drop n.toNat

/-- What a call of `ReadMessageWithEncodingN` returns, and what is left of the stream. -/
structure ReadResult where
  totalBytes : Nat
  rest : Bytes
  result : Except WireError (Message × Bytes)

section Frame
variable (doubleHash : Bytes → FixedBytes 32) (slab : ScriptSlab)

/-- The first four bytes of the double hash. -/
def checksumOf (payload : Bytes) : FixedBytes 4 := FixedBytes.copy 4 (doubleHash payload).bytes

def writeMessageWithEncodingN (msg : Message) (pver btcnet : UInt32) (enc : MessageEncoding) : Except WireError Bytes := do
  let cmd := msg.type.command
  failIf (commandSize < cmd.length) (.message "WriteMessage"
    ("command [" ++ showAscii cmd ++ s!"] is too long [max {commandSize}]"))
  let payload ← msg.btcEncode pver enc
  let lenp := payload.length
  failIf (maxProtocolMessageLength < lenp) (.message "WriteMessage"
    s!"message payload is too large - encoded {lenp} bytes, but maximum message payload is {maxProtocolMessageLength} bytes")
  let mpl := msg.type.maxPayloadLength pver
  failIf (mpl < lenp) (.message "WriteMessage"
    (s!"message payload is too large - encoded {lenp} bytes, but maximum message payload size for messages of type [" ++
      showAscii cmd ++ s!"] is {mpl}."))
  return [putUint32LE btcnet, (FixedBytes.copy commandSize cmd).bytes, putUint32LE (UInt32.ofNat lenp),
    (checksumOf doubleHash payload).bytes, payload].flatten

/-- `readMessageWithEncodingNInternal`, after the checks of the header: the payload is read, and decoded. -/
def readPayload (r : Bytes) (pver : UInt32) (hdr : MessageHeader) (enc : MessageEncoding) (totalBytes : Nat)
    (t : MessageType) : ReadResult :=
  match (readFull hdr.length.toNat : WireReader Bytes).run r with
  | .error e => ⟨totalBytes + r.length, [], .error e⟩
  | .ok (payload, rest) =>
    let totalBytes := totalBytes + payload.length
    let checksum := checksumOf doubleHash payload
    if checksum ≠ hdr.checksum then
      ⟨totalBytes, rest, .error (.message "ReadMessage" ("payload checksum failed - header indicates " ++
        showBytes hdr.checksum.bytes ++ ", but actual checksum is " ++ showBytes checksum.bytes ++ "."))⟩
    else
      match t.btcDecode pver enc slab payload with
      | .error e => ⟨totalBytes, rest, .error e⟩
      | .ok (msg, left) =>
        if left = [] then ⟨totalBytes, rest, .ok (msg, payload)⟩
        else
          let extra := left.length
          ⟨totalBytes, rest, .error (.message "ReadMessage" s!"message payload has {extra} extra bytes after decode")⟩

/-- `readMessageWithEncodingNInternal`. -/
def readMessageInternal (r : Bytes) (pver : UInt32) (hdr : MessageHeader) (btcnet : UInt32) (enc : MessageEncoding)
    (totalBytes : Nat) : ReadResult :=
  let length := hdr.length
  if maxProtocolMessageLength < length.toNat then
    ⟨totalBytes, r, .error (.message "ReadMessage"
      (s!"message payload is too large - header indicates {length} bytes, but max message payload is " ++
        s!"{maxProtocolMessageLength} bytes."))⟩
  else if hdr.magic ≠ btcnet then
    ⟨totalBytes, discardInput r length, .error (.message "ReadMessage"
      ("message from other network [" ++ bitcoinNetString hdr.magic ++ "]"))⟩
  else if validString hdr.command = false then
    ⟨totalBytes, discardInput r length, .error (.message "ReadMessage" ("invalid command " ++ showBytes hdr.command))⟩
  else
    match makeEmptyMessage hdr.command with
    | .error e => ⟨totalBytes, discardInput r length, .error e⟩
    | .ok t =>
      let mpl := t.maxPayloadLength pver
      if mpl < length.toNat then
        ⟨totalBytes, discardInput r length, .error (.message "ReadMessage"
          (s!"payload exceeds max length - header indicates {length} bytes, but max payload size for messages of type [" ++
            showAscii hdr.command ++ s!"] is {mpl}."))⟩
      else readPayload doubleHash slab r pver hdr enc totalBytes t

def readMessageWithEncodingN (r : Bytes) (pver btcnet : UInt32) (enc : MessageEncoding) : ReadResult :=
  match readMessageHeader.run r with
  | .error e => ⟨r.length, [], .error e⟩
  | .ok (hdr, rest) => readMessageInternal doubleHash slab rest pver hdr btcnet enc messageHeaderSize

end Frame
end NogoCommons.Wire
