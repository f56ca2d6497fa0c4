import NogoCommons.Wire.Message

/-!
# Reading back what was written

`read_frame` says what `ReadMessageWithEncodingN` makes of a well-formed frame, with all its checks passed: it depends on
the decoder of the command alone. `rereads` says that every decoder takes what its encoder writes, as far as
`WriteMessageWithEncodingN` writes it. The limits are not the same in all places, and these are the cases in which there
is something to show:

* the encoders of transactions, blocks and `cfcheckpt` have no limits, but payloads have;
* times, IP addresses, witnesses, and fields that are not known to an old peer come back in another form, which is
  encoded the same.
-/

namespace NogoCommons.Wire
open Lib Reader List

/-! ## Decoders and encoders -/

/-- The decoder takes what the encoder writes, as something that is written the same. -/
def Rereads (pver : UInt32) (enc : MessageEncoding) (slab : ScriptSlab) (msg : Message) (payload : Bytes) : Prop :=
  ∃ msg', msg.type.btcDecode pver enc slab payload = .ok (msg', []) ∧ msg'.btcEncode pver enc = .ok payload

variable {t : MessageType} {addrList : List NetAddressV2}
section Rereads
variable {pver : UInt32} {enc : MessageEncoding} {slab : ScriptSlab} {payload : Bytes} {α : Type} {func func' : String}

theorem run_map_ok {p : WireReader α} {f : α → Message} {a : α} (h : p.Reads payload a) :
    (f <$> p).run payload = .ok (f a, []) := (reads_map.mpr ⟨a, h, rfl⟩).run_all

theorem encodeEmpty_eq_ok {what : String} {since : UInt32} :
    encodeEmpty func what since pver = .ok payload ↔ ¬ pver < since ∧ payload = [] :=
  failIf_pure_eq_ok.trans (and_congr_right fun _ => eq_comm)

/-- A message that comes back as it was. -/
theorem rereads_of_reads {p : WireReader α} {f : α → Message} {a : α}
    (htype : (f a).type.btcDecode pver enc slab payload = (f <$> p).run payload) (hread : p.Reads payload a)
    (h : (f a).btcEncode pver enc = .ok payload) : Rereads pver enc slab (f a) payload :=
  ⟨f a, htype.trans (run_map_ok hread), h⟩

theorem rereads_version {msg : MsgVersion} (h : msg.btcEncode pver = .ok payload) :
    Rereads pver enc slab (.version msg) payload := by
  obtain ⟨hagent, rfl⟩ := failIf_pure_eq_ok.mp h
  refine ⟨.version (msg.onWire pver), ?_, ?_⟩
  · show (fun r => (Message.version r.1, r.2)) <$> MsgVersion.btcDecode pver (msg.write pver) = _
    rw [btcDecode_write_version pver hagent]
    rfl
  · exact failIf_pure_eq_ok.mpr ⟨hagent, write_onWire ..⟩

/-- A list whose elements are written the same in another form. -/
theorem writeList_map {w : α → Bytes} {f : α → α} (hf : ∀ a, w (f a) = w a) (as : List α) :
    writeList w (as.map f) = writeList w as := by
  have hmap : (as.map f).map w = as.map w := by
    rw [map_map]
    exact map_congr_left fun a _ => hf a
  rw [writeList, writeList, length_map, hmap]

theorem rereads_addr {addrList : List NetAddress} (h : MsgAddr.btcEncode addrList pver = .ok payload) :
    Rereads pver enc slab (.addr addrList) payload := by
  obtain ⟨hmany, h⟩ := failIf_bind_eq_ok.mp h
  obtain ⟨hmax, rfl⟩ := failIf_pure_eq_ok.mp h
  refine ⟨.addr (addrList.map fun na => na.onWire pver true), run_map_ok ?_, ?_⟩
  · exact reads_readList (by decide) (fun na _ => reads_netAddress pver true na) (Nat.not_lt.mp hmax)
  · show MsgAddr.btcEncode _ pver = _
    rw [← length_map (fun na => NetAddress.onWire pver true na)] at hmany hmax
    exact failIf_bind_eq_ok.mpr ⟨hmany, failIf_pure_eq_ok.mpr
      ⟨hmax, writeList_map (writeNetAddress_onWire pver true) addrList⟩⟩

theorem kept_eq_truncate (h : ∀ na ∈ addrList, na.addr.disguised = false) :
    kept addrList = addrList.map NetAddressV2.truncate := by
  have hfilter : (addrList.filter fun na => !na.addr.disguised) = addrList := by
    apply filter_eq_self.mpr
    intro na hna
    rw [h na hna]
    rfl
  rw [kept, hfilter]

theorem rereads_addrV2 (hplain : ∀ na ∈ addrList, na.addr.disguised = false)
    (h : MsgAddrV2.btcEncode addrList = .ok payload) : Rereads pver enc slab (.addrV2 addrList) payload := by
  refine ⟨.addrV2 (kept addrList), run_map_ok (reads_btcDecode_addrV2 h), ?_⟩
  obtain ⟨hmax, hother, rfl⟩ := encode_addrV2_eq_ok.mp h
  rw [kept_eq_truncate hplain]
  refine encode_addrV2_eq_ok.mpr ⟨by rwa [length_map], forall_mem_map.mpr hother, (writeList_map (fun na => ?_) _).symm⟩
  simp [NetAddressV2.entry, NetAddressV2.truncate]

theorem rereads_headers {msg : MsgHeaders} (h : msg.btcEncode = .ok payload) :
    Rereads pver enc slab (.headers msg) payload := by
  obtain ⟨hmax, rfl⟩ := failIf_pure_eq_ok.mp h
  refine ⟨.headers ⟨msg.headers.map BlockHeader.truncate⟩, run_map_ok ?_, ?_⟩
  · rw [← append_nil (writeList ..)]
    exact (reads_readList (by decide) (fun h _ => reads_bareHeader h) (Nat.not_lt.mp hmax)).bind (reads_pure.mpr ⟨rfl, rfl⟩)
  · rw [← length_map BlockHeader.truncate] at hmax
    exact failIf_pure_eq_ok.mpr ⟨hmax, writeList_map writeBareHeader_truncate msg.headers⟩

theorem rereads_merkleBlock {msg : MsgMerkleBlock} (h : msg.btcEncode pver = .ok payload) :
    Rereads pver enc slab (.merkleBlock msg) payload := by
  obtain ⟨hpver, h⟩ := failIf_bind_eq_ok.mp h
  obtain ⟨hhashes, h⟩ := failIf_bind_eq_ok.mp h
  obtain ⟨hflags, rfl⟩ := failIf_pure_eq_ok.mp h
  have hwrite : MsgMerkleBlock.write { msg with header := msg.header.truncate } = msg.write := by
    simp only [MsgMerkleBlock.write, writeBlockHeader_truncate]
  refine ⟨.merkleBlock { msg with header := msg.header.truncate }, run_map_ok ?_, ?_⟩
  · rw [← hwrite]
    exact (format_btcDecode_merkleBlock pver).reads
      ⟨hpver, Time.fits_ofUint32 _, Nat.not_lt.mp hhashes, Nat.not_lt.mp hflags⟩
  · exact failIf_bind_eq_ok.mpr ⟨hpver, failIf_bind_eq_ok.mpr ⟨hhashes, failIf_pure_eq_ok.mpr ⟨hflags, hwrite⟩⟩⟩

theorem rereads_reject {msg : MsgReject} (h : msg.btcEncode pver = .ok payload)
    (hmax : payload.length ≤ maxProtocolMessageLength) : Rereads pver enc slab (.reject msg) payload := by
  obtain ⟨hpver, rfl⟩ := failIf_pure_eq_ok.mp h
  have hlen : msg.cmd.length ≤ maxMessagePayload ∧ msg.reason.length ≤ maxMessagePayload := by
    have hcmd := le_length_writeVarBytes msg.cmd
    have hreason := le_length_writeVarBytes msg.reason
    simp only [MsgReject.write, flatten_cons, length_append, maxProtocolMessageLength] at hmax
    rw [maxMessagePayload]
    omega
  have hwrite : MsgReject.write
      { msg with hash := if MsgReject.namesHash msg.cmd then msg.hash else FixedBytes.zero 32 } = msg.write := by
    simp only [MsgReject.write]
    split_ifs <;> rfl
  refine ⟨.reject { msg with hash := if MsgReject.namesHash msg.cmd then msg.hash else FixedBytes.zero 32 },
    run_map_ok ?_, ?_⟩
  · rw [← hwrite]
    refine reads_btcDecode_reject hpver hlen.1 hlen.2 fun hnames => ?_
    exact if_neg (Bool.eq_false_iff.mp hnames)
  · exact failIf_pure_eq_ok.mpr ⟨hpver, hwrite⟩

theorem rereads_ping (nonce : UInt64) (h : MsgPing.btcEncode nonce pver = .ok payload) :
    Rereads pver enc slab (.ping nonce) payload := by
  cases h
  by_cases hpver : bip0031Version < pver
  · refine ⟨.ping nonce, ?_, rfl⟩
    rw [if_pos hpver]
    refine run_map_ok ?_
    rw [MsgPing.btcDecode, if_pos hpver]
    exact format_readUint64LE.reads trivial
  · refine ⟨.ping 0, ?_, ?_⟩
    · rw [if_neg hpver]
      refine run_map_ok ?_
      rw [MsgPing.btcDecode, if_neg hpver]
      exact reads_pure.mpr ⟨rfl, rfl⟩
    · show Except.ok _ = Except.ok _
      rw [if_neg hpver, if_neg hpver]

theorem rereads_invList {f : List InvVect → Message} {invList : List InvVect}
    (htype : (f invList).type.btcDecode pver enc slab payload = (f <$> decodeInvList func).run payload)
    (henc : (f invList).btcEncode pver enc = encodeInvList func' invList)
    (h : encodeInvList func' invList = .ok payload) : Rereads pver enc slab (f invList) payload := by
  refine rereads_of_reads htype ?_ (henc.trans h)
  obtain ⟨hmax, rfl⟩ := failIf_pure_eq_ok.mp h
  exact (format_decodeInvList func).reads ⟨Nat.not_lt.mp hmax, fun _ _ => trivial⟩

theorem rereads_locator {f : BlockLocator → Message} {msg : BlockLocator}
    (htype : (f msg).type.btcDecode pver enc slab payload = (f <$> decodeLocator func).run payload)
    (henc : (f msg).btcEncode pver enc = encodeLocator func' msg) (h : encodeLocator func' msg = .ok payload) :
    Rereads pver enc slab (f msg) payload := by
  refine rereads_of_reads htype ?_ (henc.trans h)
  obtain ⟨hmax, rfl⟩ := failIf_pure_eq_ok.mp h
  exact (format_decodeLocator func).reads (Nat.not_lt.mp hmax)

theorem rereads_empty {what : String} {since : UInt32} {msg : Message}
    (htype : msg.type.btcDecode pver enc slab payload = ((fun _ => msg) <$> decodeEmpty func what since pver).run payload)
    (henc : msg.btcEncode pver enc = encodeEmpty func' what since pver)
    (h : encodeEmpty func' what since pver = .ok payload) : Rereads pver enc slab msg payload :=
  ⟨msg, htype.trans (run_map_ok (a := ()) (reads_decodeEmpty.mpr (encodeEmpty_eq_ok.mp h))), henc.trans h⟩

/-- The limit that the encoder does not have follows from the length of the payload. -/
theorem rereads_cfcheckpt {msg : MsgCFCheckpt} (h : msg.btcEncode = .ok payload)
    (hmpl : payload.length ≤ maxCFCheckptPayload) : Rereads pver enc slab (.cfcheckpt msg) payload := by
  refine rereads_of_reads rfl ?_ h
  cases h
  apply reads_btcDecode_cfcheckpt
  have hpos := varIntSerializeSize_pos (len64 msg.filterHeaders.length)
  simp only [MsgCFCheckpt.write, flatten_cons, flatten_nil, length_append, length_cons,
    length_nil, FixedBytes.bytes_length, length_writeList FixedBytes.bytes_length, maxCFCheckptPayload,
    maxCFHeadersLen] at hmpl
  rw [maxCFHeadersLen]
  omega

theorem rereads_block {msg : MsgBlock} (hin : ∀ tx ∈ msg.transactions, tx.txIn ≠ [])
    (hmax : (msg.btcEncode enc).length ≤ maxProtocolMessageLength) :
    Rereads pver enc slab (.block msg) (msg.btcEncode enc) :=
  ⟨.block (msg.onWire enc), run_map_ok (reads_btcDecode_block slab hin hmax),
    congrArg Except.ok (btcEncode_block_onWire msg enc)⟩

theorem rereads_tx {msg : MsgTx} (hin : msg.txIn ≠ []) (hmax : (msg.btcEncode enc).length ≤ maxProtocolMessageLength) :
    Rereads pver enc slab (.tx msg) (msg.btcEncode enc) := by
  refine ⟨.tx (msg.decoded enc), run_map_ok ?_, congrArg Except.ok (btcEncode_decoded enc msg)⟩
  rw [← btcEncode_decoded]
  exact (format_btcDecode enc slab).reads (decodable_of_length hin hmax)

/-- No entry is an IPv6 address that is really one of another network. -/
def Message.plain : Message → Prop
  | .addrV2 addrList => ∀ na ∈ addrList, na.addr.disguised = false
  | _ => True

/-- Every decoder takes what its encoder writes. -/
theorem rereads {msg : Message} (hin : ∀ tx ∈ msg.txs, tx.txIn ≠ []) (hplain : msg.plain)
    (h : msg.btcEncode pver enc = .ok payload) (hmax : payload.length ≤ maxProtocolMessageLength)
    (hmpl : payload.length ≤ msg.type.maxPayloadLength pver) : Rereads pver enc slab msg payload := by
  cases msg with
  | version msg => exact rereads_version h
  | verAck | getAddr =>
    cases h
    exact ⟨_, rfl, rfl⟩
  | memPool | filterClear | sendHeaders | sendAddrV2 | wtxidRelay => exact rereads_empty rfl rfl h
  | addr addrList => exact rereads_addr h
  | addrV2 addrList => exact rereads_addrV2 hplain h
  | inv invList | getData invList | notFound invList => exact rereads_invList rfl rfl h
  | block msg =>
    cases h
    exact rereads_block hin hmax
  | tx msg =>
    cases h
    exact rereads_tx (hin msg mem_cons_self) hmax
  | getBlocks msg | getHeaders msg => exact rereads_locator rfl rfl h
  | headers msg => exact rereads_headers h
  | merkleBlock msg => exact rereads_merkleBlock h
  | ping nonce => exact rereads_ping nonce h
  | pong nonce =>
    refine rereads_of_reads rfl ?_ h
    obtain ⟨hpver, rfl⟩ := failIf_pure_eq_ok.mp h
    exact reads_refuse_bind.mpr ⟨hpver, format_readUint64LE.reads trivial⟩
  | filterAdd data =>
    refine rereads_of_reads rfl ?_ h
    obtain ⟨hpver, h⟩ := failIf_bind_eq_ok.mp h
    obtain ⟨hsize, rfl⟩ := failIf_pure_eq_ok.mp h
    exact reads_refuse_bind.mpr ⟨hpver, (format_readVarBytes (by decide) _).reads (Nat.not_lt.mp hsize)⟩
  | filterLoad msg =>
    refine rereads_of_reads rfl ?_ h
    obtain ⟨hpver, h⟩ := failIf_bind_eq_ok.mp h
    obtain ⟨hsize, h⟩ := failIf_bind_eq_ok.mp h
    obtain ⟨hfuncs, rfl⟩ := failIf_pure_eq_ok.mp h
    exact (format_btcDecode_filterLoad pver).reads ⟨hpver, Nat.not_lt.mp hsize, hfuncs⟩
  | reject msg => exact rereads_reject h hmax
  | feeFilter minFee =>
    refine rereads_of_reads rfl ?_ h
    obtain ⟨hpver, rfl⟩ := failIf_pure_eq_ok.mp h
    exact reads_refuse_bind.mpr ⟨hpver, format_readInt64LE.reads trivial⟩
  | getCFilters msg | getCFHeaders msg =>
    cases h
    exact rereads_of_reads rfl (format_decodeFilterRange.reads trivial) rfl
  | getCFCheckpt msg =>
    cases h
    exact rereads_of_reads rfl (reads_btcDecode_getCFCheckpt msg) rfl
  | cfilter msg =>
    refine rereads_of_reads rfl ?_ h
    obtain ⟨hsize, rfl⟩ := failIf_pure_eq_ok.mp h
    exact reads_btcDecode_cfilter (Nat.not_lt.mp hsize)
  | cfheaders msg =>
    refine rereads_of_reads rfl ?_ h
    obtain ⟨hcount, rfl⟩ := failIf_pure_eq_ok.mp h
    exact reads_btcDecode_cfheaders (Nat.not_lt.mp hcount)
  | cfcheckpt msg => exact rereads_cfcheckpt h hmpl

end Rereads

/-! ## Commands -/

theorem command_length (t : MessageType) : t.command.length ≤ commandSize := by
  cases t <;> decide

theorem validString_command (t : MessageType) : validString t.command = true := by
  cases t <;> decide

theorem trimRight_command (t : MessageType) : trimRight (FixedBytes.copy commandSize t.command).bytes = t.command := by
  cases t <;> decide

theorem makeEmptyMessage_command (h : t ≠ .wtxidRelay) : makeEmptyMessage t.command = .ok t := by
  cases t with
  | wtxidRelay => exact absurd rfl h
  | _ => decide

theorem makeEmptyMessage_wtxidRelay : makeEmptyMessage (MessageType.command .wtxidRelay) = .error .unknownMessage := by
  decide

theorem command_of_makeEmptyMessage {command : Bytes} (h : makeEmptyMessage command = .ok t) : t.command = command := by
  unfold makeEmptyMessage at h
  split at h
  next t' hfind =>
    cases h
    have hbeq := find?_some hfind
    exact eq_of_beq hbeq
  next => cases h

/-! ## The frame -/

section Frame
variable (doubleHash : Bytes → FixedBytes 32) (slab : ScriptSlab)

/-- A header with the right length and checksum, and the payload. -/
def frame (btcnet : UInt32) (command payload : Bytes) : Bytes :=
  [putUint32LE btcnet, (FixedBytes.copy commandSize command).bytes, putUint32LE (UInt32.ofNat payload.length),
    (checksumOf doubleHash payload).bytes, payload].flatten

/-- The four fields of a header. -/
theorem reads_messageHeader {a b c d : Bytes} (ha : a.length = 4) (hb : b.length = commandSize) (hc : c.length = 4)
    (hd : d.length = 4) : readMessageHeader.Reads (a ++ (b ++ (c ++ d)))
      ⟨uint32LE a, trimRight b, uint32LE c, FixedBytes.copy 4 d⟩ := by
  have hb' : b.length = 12 := hb
  have hlen : (a ++ (b ++ (c ++ d))).length = messageHeaderSize := by
    simp only [length_append, ha, hb', hc, hd, messageHeaderSize]
  have hdrop16 : (a ++ (b ++ (c ++ d))).drop 16 = c ++ d := by
    rw [← append_assoc]
    exact drop_left' (by rw [length_append, ha, hb'])
  have hdrop20 : (a ++ (b ++ (c ++ d))).drop 20 = d := by
    rw [← append_assoc, ← append_assoc]
    exact drop_left' (by rw [length_append, length_append, ha, hb', hc])
  have hread := reads_readFull (ε := WireError).mpr ⟨hlen, rfl⟩
  rw [← append_nil (a ++ _)]
  refine hread.bind (reads_pure.mpr ⟨rfl, ?_⟩)
  rw [take_left' ha, drop_left' ha, take_left' hb, hdrop16, take_left' hc, hdrop20]

theorem readMessageHeader_frame (btcnet : UInt32) (command payload : Bytes) :
    readMessageHeader.run (frame doubleHash btcnet command payload) =
      .ok (⟨btcnet, trimRight (FixedBytes.copy commandSize command).bytes, UInt32.ofNat payload.length,
        checksumOf doubleHash payload⟩, payload) := by
  have hread := reads_messageHeader (putUint32LE_length btcnet) (FixedBytes.copy commandSize command).length_eq
    (putUint32LE_length (UInt32.ofNat payload.length)) (checksumOf doubleHash payload).length_eq payload
  rw [uint32LE_putUint32LE, uint32LE_putUint32LE, FixedBytes.copy_self] at hread
  rw [← hread, frame]
  simp only [flatten_cons, flatten_nil, append_nil, append_assoc]

variable {doubleHash slab} {pver btcnet : UInt32} {enc : MessageEncoding} {command payload : Bytes} {msg : Message}
section
variable {hdr : MessageHeader} {totalBytes : Nat} (hlen : hdr.length.toNat = payload.length)
  (hsum : hdr.checksum = checksumOf doubleHash payload)
include hlen hsum

theorem readPayload_of_decoded (hdec : t.btcDecode pver enc slab payload = .ok (msg, [])) :
    readPayload doubleHash slab payload pver hdr enc totalBytes t =
      ⟨totalBytes + payload.length, [], .ok (msg, payload)⟩ := by
  have hfull : (readFull hdr.length.toNat : WireReader Bytes).run payload = .ok (payload, []) :=
    (reads_readFull.mpr ⟨hlen.symm, rfl⟩).run_all
  rw [readPayload, hfull]
  dsimp only
  rw [if_neg (fun h => h hsum.symm), hdec]
  dsimp only
  rw [if_pos rfl]

/-- A payload with the right checksum is left to the decoder, which has to use it up. -/
theorem readPayload_frame {raw : Bytes} :
    (readPayload doubleHash slab payload pver hdr enc totalBytes t).result = .ok (msg, raw) ↔
      raw = payload ∧ t.btcDecode pver enc slab payload = .ok (msg, []) := by
  constructor
  · intro h
    rw [readPayload, (reads_readFull.mpr ⟨hlen.symm, rfl⟩).run_all] at h
    dsimp only at h
    rw [if_neg (fun h => h hsum.symm)] at h
    split at h
    · cases h
    · rename_i m left hdec
      split_ifs at h with hleft
      cases h
      exact ⟨rfl, hleft ▸ hdec⟩
  · rintro ⟨rfl, hdec⟩
    rw [readPayload_of_decoded hlen hsum hdec]

end

/-- What the frame has been checked for. -/
structure Framed (pver : UInt32) (command payload : Bytes) (t : MessageType) : Prop where
  le_max : payload.length ≤ maxProtocolMessageLength
  type_eq : makeEmptyMessage command = .ok t
  le_maxPayloadLength : payload.length ≤ t.maxPayloadLength pver

theorem length_frame (btcnet : UInt32) (command payload : Bytes) :
    (frame doubleHash btcnet command payload).length = messageHeaderSize + payload.length := by
  simp only [frame, flatten_cons, flatten_nil, length_append, length_nil, putUint32LE_length,
    FixedBytes.bytes_length, messageHeaderSize, commandSize]
  omega

theorem read_frame_of_framed (h : Framed pver (trimRight (FixedBytes.copy commandSize command).bytes) payload t) :
    readMessageWithEncodingN doubleHash slab (frame doubleHash btcnet command payload) pver btcnet enc =
      readPayload doubleHash slab payload pver ⟨btcnet, trimRight (FixedBytes.copy commandSize command).bytes,
        UInt32.ofNat payload.length, checksumOf doubleHash payload⟩ enc messageHeaderSize t := by
  have hlen : (UInt32.ofNat payload.length).toNat = payload.length :=
    UInt32.toNat_ofNat_of_lt' (h.le_max.trans_lt (by decide))
  have hvalid : ¬ validString (trimRight (FixedBytes.copy commandSize command).bytes) = false := by
    rw [← command_of_makeEmptyMessage h.type_eq, validString_command]
    decide
  rw [readMessageWithEncodingN, readMessageHeader_frame]
  dsimp only [readMessageInternal]
  rw [hlen, if_neg (Nat.not_lt.mpr h.le_max), if_neg (fun hne => hne rfl), if_neg hvalid, h.type_eq]
  dsimp only
  rw [if_neg (Nat.not_lt.mpr h.le_maxPayloadLength)]

/-- A message is read from a frame if the frame passes its checks and the decoder uses up the payload. -/
theorem read_frame_eq_ok (hlt : payload.length < 2 ^ 32) {raw : Bytes} :
    (readMessageWithEncodingN doubleHash slab (frame doubleHash btcnet command payload) pver btcnet enc).result =
        .ok (msg, raw) ↔
      raw = payload ∧ ∃ t, Framed pver (trimRight (FixedBytes.copy commandSize command).bytes) payload t ∧
        t.btcDecode pver enc slab payload = .ok (msg, []) := by
  have hlen : (UInt32.ofNat payload.length).toNat = payload.length := UInt32.toNat_ofNat_of_lt' hlt
  constructor
  · intro h
    have hrun := h
    rw [readMessageWithEncodingN, readMessageHeader_frame] at hrun
    dsimp only [readMessageInternal] at hrun
    rw [hlen] at hrun
    split_ifs at hrun with hmax _ hvalid
    split at hrun
    next => cases hrun
    next t ht =>
      split_ifs at hrun with hmpl
      have hframed : Framed pver _ payload t := ⟨Nat.not_lt.mp hmax, ht, Nat.not_lt.mp hmpl⟩
      obtain ⟨hraw, hdec⟩ := (readPayload_frame hlen rfl).mp hrun
      exact ⟨hraw, t, hframed, hdec⟩
  · rintro ⟨hraw, t, hframed, hdec⟩
    rw [read_frame_of_framed hframed]
    exact (readPayload_frame hlen rfl).mpr ⟨hraw, hdec⟩

theorem write_eq_ok {bytes : Bytes} : writeMessageWithEncodingN doubleHash msg pver btcnet enc = .ok bytes ↔
      ∃ payload, msg.btcEncode pver enc = .ok payload ∧ payload.length ≤ maxProtocolMessageLength ∧
        payload.length ≤ msg.type.maxPayloadLength pver ∧ bytes = frame doubleHash btcnet msg.type.command payload := by
  dsimp only [writeMessageWithEncodingN]
  rw [failIf_bind_eq_ok]
  constructor
  · rintro ⟨-, h⟩
    obtain ⟨payload, henc, h⟩ := bind_eq_ok.mp h
    obtain ⟨hmax, h⟩ := failIf_bind_eq_ok.mp h
    obtain ⟨hmpl, rfl⟩ := failIf_pure_eq_ok.mp h
    exact ⟨payload, henc, Nat.not_lt.mp hmax, Nat.not_lt.mp hmpl, rfl⟩
  · rintro ⟨payload, henc, hmax, hmpl, rfl⟩
    refine ⟨Nat.not_lt.mpr (command_length _), bind_eq_ok.mpr ⟨payload, henc, ?_⟩⟩
    exact failIf_bind_eq_ok.mpr ⟨Nat.not_lt.mpr hmax, failIf_pure_eq_ok.mpr ⟨Nat.not_lt.mpr hmpl, rfl⟩⟩

variable (doubleHash slab)

/-- If the message is written, it can be read back from what was written: all of it is used up, and what is read is
encoded as the payload that was written. -/
def ReadsBack (msg : Message) (pver btcnet : UInt32) (enc : MessageEncoding) : Prop :=
  ∀ bytes, writeMessageWithEncodingN doubleHash msg pver btcnet enc = .ok bytes →
    ∃ payload msg', msg.btcEncode pver enc = .ok payload ∧
      readMessageWithEncodingN doubleHash slab bytes pver btcnet enc = ⟨bytes.length, [], .ok (msg', payload)⟩ ∧
      msg'.btcEncode pver enc = .ok payload

/-- The messages that are written, and not read back: the command is not known, or an entry is skipped. -/
def Message.lost (pver : UInt32) : Message → Prop
  | .wtxidRelay => addrV2Version ≤ pver
  | .addrV2 addrList => addrList.length ≤ maxV2AddrPerMsg ∧ (∀ na ∈ addrList, na.addr ≠ .other) ∧
      ∃ na ∈ addrList, na.addr.disguised = true
  | _ => False

variable {doubleHash slab}

theorem readsBack_of_plain (hin : ∀ tx ∈ msg.txs, tx.txIn ≠ []) (hplain : msg.plain) (htype : msg.type ≠ .wtxidRelay) :
    ReadsBack doubleHash slab msg pver btcnet enc := by
  intro bytes hwrite
  obtain ⟨payload, henc, hmax, hmpl, rfl⟩ := write_eq_ok.mp hwrite
  have hrereads : Rereads pver enc slab msg payload := rereads hin hplain henc hmax hmpl
  obtain ⟨msg', hdec, henc'⟩ := hrereads
  have hlen : (UInt32.ofNat payload.length).toNat = payload.length :=
    UInt32.toNat_ofNat_of_lt' (hmax.trans_lt (by decide))
  have hframed : Framed pver (trimRight (FixedBytes.copy commandSize msg.type.command).bytes) payload msg.type := by
    rw [trimRight_command]
    exact ⟨hmax, makeEmptyMessage_command htype, hmpl⟩
  refine ⟨payload, msg', henc, ?_, henc'⟩
  rw [read_frame_of_framed hframed, readPayload_of_decoded hlen rfl hdec, length_frame]

/-! ## What is not read back -/

theorem exists_write_wtxidRelay (h : addrV2Version ≤ pver) :
    writeMessageWithEncodingN doubleHash .wtxidRelay pver btcnet enc =
      .ok (frame doubleHash btcnet (MessageType.command .wtxidRelay) []) :=
  write_eq_ok.mpr ⟨[], encodeEmpty_eq_ok.mpr ⟨UInt32.not_lt.mpr h, rfl⟩, Nat.zero_le _, Nat.zero_le _, rfl⟩

theorem not_readsBack_wtxidRelay (h : addrV2Version ≤ pver) : ¬ ReadsBack doubleHash slab .wtxidRelay pver btcnet enc := by
  intro hback
  obtain ⟨payload, msg', -, hread, -⟩ := hback _ (exists_write_wtxidRelay h)
  obtain ⟨-, t, hframed, -⟩ := (read_frame_eq_ok (by decide)).mp (congrArg ReadResult.result hread)
  have htype := hframed.type_eq
  rw [trimRight_command, makeEmptyMessage_wtxidRelay] at htype
  cases htype

/-- Two lists that are encoded the same are equally long. -/
theorem length_eq_of_encode_addrV2 {l l' : List NetAddressV2} (h : MsgAddrV2.btcEncode l = .ok payload)
    (h' : MsgAddrV2.btcEncode l' = .ok payload) : l.length = l'.length := by
  obtain ⟨hmax, -, rfl⟩ := encode_addrV2_eq_ok.mp h
  obtain ⟨hmax', -, heq⟩ := encode_addrV2_eq_ok.mp h'
  have hcount : len64 l.length = len64 l'.length :=
    ((format_readVarInt.reads trivial).unique (format_readVarInt.reads trivial) heq).1
  rw [← toNat_len64 (hmax.trans_lt (by decide)), hcount, toNat_len64 (hmax'.trans_lt (by decide))]

/-- Skipped entries are missing in what is read. -/
theorem length_kept_lt (h : ∃ na ∈ addrList, na.addr.disguised = true) : (kept addrList).length < addrList.length := by
  obtain ⟨na, hna, hdisguised⟩ := h
  rw [kept, length_map]
  apply length_filter_lt_length_iff_exists.mpr
  exact ⟨na, hna, by rw [hdisguised]; decide⟩

theorem exists_write_addrV2 (hmax : addrList.length ≤ maxV2AddrPerMsg) (hknown : ∀ na ∈ addrList, na.addr ≠ .other) :
    ∃ payload, MsgAddrV2.btcEncode addrList = .ok payload ∧
      writeMessageWithEncodingN doubleHash (.addrV2 addrList) pver btcnet enc =
        .ok (frame doubleHash btcnet (MessageType.command .addrV2) payload) := by
  have henc := encode_addrV2_eq_ok.mpr ⟨hmax, hknown, rfl⟩
  have hcount : varIntSerializeSize (len64 addrList.length) ≤ varIntSerializeSize (len64 maxV2AddrPerMsg) := by
    apply varIntSerializeSize_mono
    rwa [toNat_len64 (hmax.trans_lt (by decide)), toNat_len64 (by decide)]
  have hsize : varIntSerializeSize (len64 maxV2AddrPerMsg) = 3 := by decide
  have hentries := length_entries_le addrList
  have hlen : (writeList (fun na => na.entry.write) addrList).length ≤ 3 + maxV2AddrPerMsg * maxNetAddressV2Payload := by
    rw [writeList, length_append, length_writeVarInt]
    have hmul := Nat.mul_le_mul_right maxNetAddressV2Payload hmax
    omega
  exact ⟨_, henc, write_eq_ok.mpr ⟨_, henc, hlen.trans (by decide), hlen, rfl⟩⟩

theorem not_readsBack_addrV2 (hmax : addrList.length ≤ maxV2AddrPerMsg) (hknown : ∀ na ∈ addrList, na.addr ≠ .other)
    (hdisguised : ∃ na ∈ addrList, na.addr.disguised = true) :
    ¬ ReadsBack doubleHash slab (.addrV2 addrList) pver btcnet enc := by
  intro hback
  obtain ⟨payload, henc, hwrite⟩ := exists_write_addrV2 hmax hknown
  obtain ⟨payload', msg', henc', hread, hagain⟩ := hback _ hwrite
  cases henc.symm.trans henc'
  obtain ⟨raw, hraw, hlimit, -, -⟩ := write_eq_ok.mp hwrite
  cases henc.symm.trans hraw
  obtain ⟨-, t, hframed, hdec⟩ := (read_frame_eq_ok (hlimit.trans_lt (by decide))).mp
    (congrArg ReadResult.result hread)
  have htype := hframed.type_eq
  rw [trimRight_command, makeEmptyMessage_command MessageType.noConfusion] at htype
  cases htype
  have hkept : MessageType.btcDecode pver enc slab payload .addrV2 = .ok (.addrV2 (kept addrList), []) :=
    run_map_ok (reads_btcDecode_addrV2 henc)
  obtain rfl : Message.addrV2 (kept addrList) = msg' := (Prod.mk.inj (Except.ok.inj (hkept.symm.trans hdec))).1
  exact (length_kept_lt hdisguised).ne (length_eq_of_encode_addrV2 hagain henc)

end Frame

/-- Every message that can be written is read back, but for those that are lost. -/
theorem readsBack_iff (doubleHash : Bytes → FixedBytes 32) (slab : ScriptSlab) (pver btcnet : UInt32)
    (enc : MessageEncoding) {msg : Message} (hin : ∀ tx ∈ msg.txs, tx.txIn ≠ []) :
    ReadsBack doubleHash slab msg pver btcnet enc ↔ ¬ msg.lost pver := by
  constructor
  · intro hback hlost
    cases msg with
    | wtxidRelay => exact not_readsBack_wtxidRelay hlost hback
    | addrV2 addrList => exact not_readsBack_addrV2 hlost.1 hlost.2.1 hlost.2.2 hback
    | _ => exact hlost
  · intro hlost
    cases msg with
    | wtxidRelay =>
      -- an old peer does not even get it written
      intro bytes hwrite
      obtain ⟨payload, henc, -⟩ := write_eq_ok.mp hwrite
      exact absurd (UInt32.not_lt.mp (encodeEmpty_eq_ok.mp henc).1) hlost
    | addrV2 addrList =>
      by_cases hplain : ∀ na ∈ addrList, na.addr.disguised = false
      · exact readsBack_of_plain hin hplain MessageType.noConfusion
      · intro bytes hwrite
        obtain ⟨payload, henc, -⟩ := write_eq_ok.mp hwrite
        obtain ⟨hmax, hother, -⟩ := encode_addrV2_eq_ok.mp henc
        push Not at hplain
        obtain ⟨na, hna, hdisguised⟩ := hplain
        exact absurd ⟨hmax, hother, na, hna, Bool.eq_true_of_not_eq_false hdisguised⟩ hlost
    | _ => exact readsBack_of_plain hin trivial MessageType.noConfusion

theorem readsBack_iff_tx : (∀ tx ∈ (Message.tx (txOfEmptyItems 3)).txs, tx.txIn ≠ []) ∧
    ReadsBack (fun _ => FixedBytes.zero 32) (FixedBytes.zero scriptSlabSize) (.tx (txOfEmptyItems 3)) 70016 0xd9b4bef9
      witnessEncoding := by
  have hin : ∀ tx ∈ (Message.tx (txOfEmptyItems 3)).txs, tx.txIn ≠ [] := by
    intro tx htx
    obtain rfl := mem_singleton.mp htx
    exact cons_ne_nil _ _
  exact ⟨hin, (readsBack_iff _ _ _ _ _ hin).mpr not_false⟩

/-- `wtxidrelay` is written, and the reader has never heard of it. -/
theorem wtxidRelay_not_readsBack :
    writeMessageWithEncodingN (fun _ => FixedBytes.zero 32) .wtxidRelay 70016 0xd9b4bef9 witnessEncoding =
        .ok (frame (fun _ => FixedBytes.zero 32) 0xd9b4bef9 (MessageType.command .wtxidRelay) []) ∧
      (readMessageWithEncodingN (fun _ => FixedBytes.zero 32) (FixedBytes.zero scriptSlabSize)
        (frame (fun _ => FixedBytes.zero 32) 0xd9b4bef9 (MessageType.command .wtxidRelay) []) 70016 0xd9b4bef9
          witnessEncoding).result = .error .unknownMessage ∧
      ¬ ReadsBack (fun _ => FixedBytes.zero 32) (FixedBytes.zero scriptSlabSize) .wtxidRelay 70016 0xd9b4bef9
        witnessEncoding :=
  ⟨exists_write_wtxidRelay (by decide), by decide, not_readsBack_wtxidRelay (by decide)⟩

end NogoCommons.Wire
