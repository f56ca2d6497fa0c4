import NogoCommons.Wire.Messages

/-!
# `wire/netaddress.go`, `wire/netaddressv2.go`, `wire/msgaddr.go`, `wire/msgaddrv2.go`, `wire/msgversion.go`

An address has a timestamp only for newer peers and only in some messages, and its IP is sixteen bytes on the wire, whatever
it is in memory. So an address that was decoded is in general not the one that was encoded, but it is encoded the same
(`writeNetAddress_onWire`).

An entry of an `addrv2` message is of one of several networks. The decoder skips entries of networks it does not know or
does not care for, and also IPv6 entries which are really addresses of another network. The encoder does not ask whether
an IPv6 address is one of those; such an entry is written, and skipped when it is read (`reads_netAddressV2`).

The decoder of `version` messages asks its buffer how much is left in it, and does without the last fields of an old
peer's message. It is not a reader, but a function of the whole payload.
-/

namespace NogoCommons.Wire
open Lib Reader List

/-! ## Addresses -/

/-- An IP of no bytes is `nil`. -/
structure NetAddress where
  timestamp : Time
  services : UInt64
  ip : Bytes
  port : UInt16
deriving DecidableEq

/-- `time.Time{}`. -/
def Time.zero : Time := -62135596800
def NetAddress.zero : NetAddress := ⟨Time.zero, 0, [], 0⟩
def maxNetAddressPayload (pver : UInt32) : Nat := if netAddressTimeVersion ≤ pver then 30 else 26
def ipv4MappedPrefix : Bytes := [0, 0, 0, 0, 0, 0, 0, 0, 0, 0, 0xff, 0xff]

/-- `copy(ip[:], na.IP.To16())`. -/
def ip16 (ip : Bytes) : FixedBytes 16 :=
  FixedBytes.copy 16 (if ip.length = 4 then ipv4MappedPrefix ++ ip else if ip.length = 16 then ip else [])

theorem ip16_bytes (ip : FixedBytes 16) : ip16 ip.bytes = ip := by
  rw [ip16, ip.length_eq, if_neg (by decide), if_pos rfl, FixedBytes.copy_self]

section NetAddress
variable (pver : UInt32) (ts : Bool)

/-- The timestamp of an address, where there is one. -/
def readTimestamp : WireReader Time := if ts ∧ netAddressTimeVersion ≤ pver then readTime else pure Time.zero

def readNetAddress : WireReader NetAddress := do
  let timestamp ← readTimestamp pver ts
  let services ← readUint64LE
  let ip ← readArray 16
  let port ← readUint16BE
  return ⟨timestamp, services, ip.bytes, port⟩

def writeNetAddress (na : NetAddress) : Bytes :=
  [if ts ∧ netAddressTimeVersion ≤ pver then writeTime na.timestamp else [], leBytes 8 na.services.toNat,
    (ip16 na.ip).bytes, beBytes 2 na.port.toNat].flatten

/-- An address as it is after it has been encoded and decoded. -/
def NetAddress.onWire (na : NetAddress) : NetAddress where
  timestamp := if ts ∧ netAddressTimeVersion ≤ pver then Time.ofUint32 na.timestamp.uint32 else Time.zero
  services := na.services
  ip := (ip16 na.ip).bytes
  port := na.port

theorem writeNetAddress_onWire (na : NetAddress) :
    writeNetAddress pver ts (na.onWire pver ts) = writeNetAddress pver ts na := by
  simp only [writeNetAddress, NetAddress.onWire, ip16_bytes]
  split_ifs with hts
  · rw [writeTime, Time.uint32_ofUint32]
    rfl
  · rfl

theorem reads_netAddress (na : NetAddress) :
    (readNetAddress pver ts).Reads (writeNetAddress pver ts na) (na.onWire pver ts) := by
  have htime : (readTimestamp pver ts).Reads
      (if ts ∧ netAddressTimeVersion ≤ pver then writeTime na.timestamp else []) (na.onWire pver ts).timestamp := by
    simp only [readTimestamp, NetAddress.onWire]
    split_ifs with hts
    · have hreads := format_readTime.reads (Time.fits_ofUint32 na.timestamp.uint32)
      rwa [writeTime, Time.uint32_ofUint32] at hreads
    · exact reads_pure.mpr ⟨rfl, rfl⟩
  apply htime.bind
  apply (format_readUint64LE.reads trivial).bind
  apply ((format_readArray 16).reads trivial).bind
  apply (format_readUint16BE.reads trivial).bind
  exact reads_pure.mpr ⟨rfl, rfl⟩

end NetAddress

/-! ## `addr` -/

def maxAddrPerMsg : Nat := 1000

def MsgAddr.btcDecode (pver : UInt32) : WireReader (List NetAddress) :=
  readList maxAddrPerMsg (fun count => .message "MsgAddr.BtcDecode"
    s!"too many addresses for message [count {count}, max {maxAddrPerMsg}]") (readNetAddress pver true)

def MsgAddr.btcEncode (addrList : List NetAddress) (pver : UInt32) : Except WireError Bytes := do
  let count := addrList.length
  failIf (pver < multipleAddressVersion ∧ 1 < count) (.message "MsgAddr.BtcEncode"
    s!"too many addresses for message of protocol version {pver} [count {count}, max 1]")
  failIf (maxAddrPerMsg < count) (.message "MsgAddr.BtcEncode"
    s!"too many addresses for message [count {count}, max {maxAddrPerMsg}]")
  return writeList (writeNetAddress pver true) addrList

/-! ## Addresses of several networks -/

/-- The types of address, of which only the first four can be encoded. -/
inductive Addr where
  | ipv4 (addr : FixedBytes 4)
  | ipv6 (addr : FixedBytes 16)
  | torv2 (addr : FixedBytes 10)
  | torv3 (addr : FixedBytes 32)
  | other
deriving DecidableEq

structure NetAddressV2 where
  timestamp : Time
  services : UInt64
  addr : Addr
  port : UInt16
deriving DecidableEq

def maxAddrV2Size : Nat := 512
def maxNetAddressV2Payload : Nat := 4 + 9 + 1 + 515 + 2

/-- In `fd87:d87e:eb43::/48`. -/
def isOnionCatTor (ip : Bytes) : Bool := ip.take 6 == [0xfd, 0x87, 0xd8, 0x7e, 0xeb, 0x43]
def isIPv4Mapped (addr : Bytes) : Bool := ipv4MappedPrefix.isPrefixOf addr
def isKnownNetworkID (netID : UInt8) : Bool := 1 ≤ netID && netID ≤ 6

/-- An address of the given size and the port. -/
def readAddrPort (n : Nat) (decodedSize : UInt64) : WireReader (FixedBytes n × UInt16) := do
  refuse (decodedSize.toNat ≠ n) .invalidAddressSize
  let addr ← readArray n
  let port ← readUint16BE
  return (addr, port)

/-- What of an address depends on its network; `none` is `ErrSkippedNetworkID`. -/
def readNetworkAddr (timestamp : Time) (services : UInt64) (netID : UInt8) (decodedSize : UInt64) :
    WireReader (Option NetAddressV2) :=
  if isKnownNetworkID netID = false then do
    refuse (maxAddrV2Size < decodedSize.toNat) .invalidAddressSize
    let _ ← readFull (decodedSize.toNat + 2)
    return none
  else if netID = 1 then do
    let a ← readAddrPort 4 decodedSize
    return some ⟨timestamp, services, .ipv4 a.1, a.2⟩
  else if netID = 2 then do
    let a ← readAddrPort 16 decodedSize
    return if isOnionCatTor a.1.bytes || isIPv4Mapped a.1.bytes then none
      else some ⟨timestamp, services, .ipv6 a.1, a.2⟩
  else if netID = 3 then do
    let a ← readAddrPort 10 decodedSize
    return some ⟨timestamp, services, .torv2 a.1, a.2⟩
  else if netID = 4 then do
    let a ← readAddrPort 32 decodedSize
    return some ⟨timestamp, services, .torv3 a.1, a.2⟩
  else if netID = 5 then do
    let _ ← readAddrPort 32 decodedSize
    return none
  else do
    let _ ← readAddrPort 16 decodedSize
    return none

def readNetAddressV2 : WireReader (Option NetAddressV2) := do
  let timestamp ← readTime
  let services ← readVarInt
  let netID ← readUint8
  let decodedSize ← readVarInt
  readNetworkAddr timestamp services netID decodedSize

/-- The network and the bytes of an address. -/
def Addr.bytes : Addr → Option (UInt8 × Bytes)
  | .ipv4 addr => some (1, addr.bytes)
  | .ipv6 addr => some (2, addr.bytes)
  | .torv2 addr => some (3, addr.bytes)
  | .torv3 addr => some (4, addr.bytes)
  | .other => none

/-- An address of a known type, written. -/
def NetAddressV2.write (na : NetAddressV2) (address : UInt8 × Bytes) : Bytes :=
  [writeTime na.timestamp, writeVarInt na.services, [address.1], writeVarInt (len64 address.2.length), address.2,
    beBytes 2 na.port.toNat].flatten

def writeNetAddressV2 (na : NetAddressV2) : Except WireError Bytes :=
  match na.addr.bytes with
  | some address => .ok (na.write address)
  | none => .error (.other "unexpected address type")

/-- An IPv6 address that is really one of another network. -/
def Addr.disguised : Addr → Bool
  | .ipv6 addr => isOnionCatTor addr.bytes || isIPv4Mapped addr.bytes
  | _ => false

def NetAddressV2.truncate (na : NetAddressV2) : NetAddressV2 :=
  { na with timestamp := Time.ofUint32 na.timestamp.uint32 }

/-- An entry of a message, of whatever network. -/
structure Entry where
  timestamp : UInt32
  services : UInt64
  netID : UInt8
  address : Bytes
  port : UInt16

namespace Entry

def write (e : Entry) : Bytes :=
  [putUint32LE e.timestamp, writeVarInt e.services, [e.netID], writeVarInt (len64 e.address.length), e.address,
    beBytes 2 e.port.toNat].flatten

/-- The length of an address of a known network. -/
def knownSize (netID : UInt8) : Nat :=
  if netID = 1 then 4 else if netID = 3 then 10 else if netID = 4 ∨ netID = 5 then 32 else 16

def Sized (e : Entry) : Prop :=
  if isKnownNetworkID e.netID = false then e.address.length ≤ maxAddrV2Size else e.address.length = knownSize e.netID

/-- The address of an entry that is not skipped. -/
def netAddress (e : Entry) : Option NetAddressV2 :=
  let na addr := some ⟨Time.ofUint32 e.timestamp, e.services, addr, e.port⟩
  if e.netID = 1 then na (.ipv4 (.copy 4 e.address))
  else if e.netID = 2 then
    if isOnionCatTor e.address || isIPv4Mapped e.address then none else na (.ipv6 (.copy 16 e.address))
  else if e.netID = 3 then na (.torv2 (.copy 10 e.address))
  else if e.netID = 4 then na (.torv3 (.copy 32 e.address))
  else none

end Entry

theorem eq_of_isKnownNetworkID (netID : UInt8) : isKnownNetworkID netID = true →
    netID = 1 ∨ netID = 2 ∨ netID = 3 ∨ netID = 4 ∨ netID = 5 ∨ netID = 6 := by
  intro h
  simp only [isKnownNetworkID, Bool.and_eq_true, decide_eq_true_eq, UInt8.le_iff_toNat_le, ← UInt8.toNat_inj,
    UInt8.reduceToNat] at h ⊢
  omega

theorem reads_addrPort {n : Nat} {address : Bytes} (hlen : address.length = n) (port : UInt16) (hn : n < 2 ^ 64) :
    (readAddrPort n (len64 address.length)).Reads (address ++ (beBytes 2 port.toNat ++ [])) (.copy n address, port) := by
  have haddress : (readArray n : WireReader _).Reads address (.copy n address) :=
    (format_readArray n ..).mpr ⟨trivial, (FixedBytes.copy_bytes hlen).symm⟩
  refine reads_refuse_bind.mpr ⟨fun h => h (by rw [hlen, toNat_len64 hn]), ?_⟩
  apply haddress.bind
  apply (format_readUint16BE.reads trivial).bind
  exact reads_pure.mpr ⟨rfl, rfl⟩

theorem reads_networkAddr {e : Entry} (h : e.Sized) :
    (readNetworkAddr (Time.ofUint32 e.timestamp) e.services e.netID (len64 e.address.length)).Reads
      (e.address ++ (beBytes 2 e.port.toNat ++ [])) e.netAddress := by
  obtain ⟨timestamp, services, netID, address, port⟩ := e
  cases hknown : isKnownNetworkID netID with
  | false =>
    have hle : address.length ≤ maxAddrV2Size := by rwa [Entry.Sized, if_pos hknown] at h
    have hsize : (len64 address.length).toNat = address.length := toNat_len64 (hle.trans_lt (by decide))
    have hne : ∀ n, isKnownNetworkID n = true → netID ≠ n := by
      rintro n hn rfl
      cases hknown.symm.trans hn
    rw [readNetworkAddr, if_pos hknown, Entry.netAddress, if_neg (hne 1 rfl), if_neg (hne 2 rfl), if_neg (hne 3 rfl),
      if_neg (hne 4 rfl), ← append_nil (address ++ _)]
    refine reads_refuse_bind.mpr ⟨by rw [hsize]; exact Nat.not_lt.mpr hle, ?_⟩
    refine (reads_readFull.mpr ⟨?_, rfl⟩).bind (reads_pure.mpr ⟨rfl, rfl⟩)
    rw [hsize, append_nil, length_append, beBytes_length]
  | true =>
    have hlen : address.length = Entry.knownSize netID := by rwa [Entry.Sized, if_neg (by simp [hknown])] at h
    have hport := fun n (hn : address.length = n) => reads_addrPort hn port
    rw [← append_nil (address ++ _)]
    rcases eq_of_isKnownNetworkID netID hknown with rfl | rfl | rfl | rfl | rfl | rfl
    · exact (hport 4 hlen (by decide)).bind (reads_pure.mpr ⟨rfl, rfl⟩)
    · refine (hport 16 hlen (by decide)).bind (reads_pure.mpr ⟨rfl, ?_⟩)
      simp only [show (FixedBytes.copy 16 address).bytes = address from FixedBytes.copy_bytes hlen]
      rfl
    · exact (hport 10 hlen (by decide)).bind (reads_pure.mpr ⟨rfl, rfl⟩)
    · exact (hport 32 hlen (by decide)).bind (reads_pure.mpr ⟨rfl, rfl⟩)
    · exact (hport 32 hlen (by decide)).bind (reads_pure.mpr ⟨rfl, rfl⟩)
    · exact (hport 16 hlen (by decide)).bind (reads_pure.mpr ⟨rfl, rfl⟩)

theorem reads_entry {e : Entry} (h : e.Sized) : readNetAddressV2.Reads e.write e.netAddress := by
  have htime := format_readTime.reads (Time.fits_ofUint32 e.timestamp)
  rw [writeTime, Time.uint32_ofUint32] at htime
  apply htime.bind
  apply (format_readVarInt.reads trivial).bind
  apply (format_readUint8.reads trivial).bind
  apply (format_readVarInt.reads trivial).bind
  exact reads_networkAddr h

/-- The entry of an address; there is none for a type that cannot be encoded. -/
def NetAddressV2.entry (na : NetAddressV2) : Entry :=
  let address := na.addr.bytes.getD (0, [])
  ⟨na.timestamp.uint32, na.services, address.1, address.2, na.port⟩

variable {na : NetAddressV2}

theorem writeNetAddressV2_eq_ok {bs : Bytes} : writeNetAddressV2 na = .ok bs ↔ na.addr ≠ .other ∧ na.entry.write = bs := by
  obtain ⟨timestamp, services, addr, port⟩ := na
  cases addr with
  | ipv4 addr | ipv6 addr | torv2 addr | torv3 addr => exact ⟨fun h => ⟨nofun, Except.ok.inj h⟩, fun h => congrArg _ h.2⟩
  | other => exact iff_of_false nofun fun h => h.1 rfl

/-- What is written is read as it was, but for what is skipped. -/
theorem entry_spec (h : na.addr ≠ .other) :
    na.entry.Sized ∧ na.entry.netAddress = if na.addr.disguised then none else some na.truncate := by
  obtain ⟨timestamp, services, addr, port⟩ := na
  cases addr with
  | ipv4 addr | ipv6 addr | torv2 addr | torv3 addr =>
    refine ⟨addr.length_eq, ?_⟩
    simp [NetAddressV2.entry, Entry.netAddress, Addr.bytes, Addr.disguised, NetAddressV2.truncate]
  | other => exact absurd rfl h

/-! ## `addrv2` -/

def maxV2AddrPerMsg : Nat := 1000

/-- Entries that are skipped are left out of the list. -/
def MsgAddrV2.btcDecode : WireReader (List NetAddressV2) := do
  let addrList ← readList maxV2AddrPerMsg (fun count => .message "MsgAddrV2.BtcDecode"
    s!"too many addresses for message [count {count}, max {maxV2AddrPerMsg}]") readNetAddressV2
  return addrList.filterMap id

def MsgAddrV2.btcEncode (addrList : List NetAddressV2) : Except WireError Bytes := do
  let count := addrList.length
  failIf (maxV2AddrPerMsg < count) (.message "MsgAddrV2.BtcEncode"
    s!"too many addresses for message: got {count}, max {maxV2AddrPerMsg}")
  let entries ← addrList.mapM writeNetAddressV2
  return writeVarInt (len64 count) ++ entries.flatten

/-- The entries that are not skipped. -/
def kept (addrList : List NetAddressV2) : List NetAddressV2 :=
  (addrList.filter fun na => !na.addr.disguised).map NetAddressV2.truncate

variable {addrList : List NetAddressV2}

theorem mapM_writeNetAddressV2_eq_ok {bss : List Bytes} : addrList.mapM writeNetAddressV2 = .ok bss ↔
    (∀ na ∈ addrList, na.addr ≠ .other) ∧ addrList.map (fun na => na.entry.write) = bss := by
  induction addrList generalizing bss with
  | nil => exact ⟨fun h => ⟨nofun, Except.ok.inj h⟩, fun h => congrArg Except.ok h.2⟩
  | cons na addrList ih =>
    rw [mapM_cons, forall_mem_cons, bind_eq_ok]
    constructor
    · rintro ⟨bs, hbs, h⟩
      obtain ⟨bss', hbss, h⟩ := bind_eq_ok.mp h
      obtain ⟨hother, rfl⟩ := writeNetAddressV2_eq_ok.mp hbs
      obtain ⟨hothers, rfl⟩ := ih.mp hbss
      exact ⟨⟨hother, hothers⟩, Except.ok.inj h⟩
    · rintro ⟨⟨hother, hothers⟩, rfl⟩
      exact ⟨_, writeNetAddressV2_eq_ok.mpr ⟨hother, rfl⟩, bind_eq_ok.mpr ⟨_, ih.mpr ⟨hothers, rfl⟩, rfl⟩⟩

theorem encode_addrV2_eq_ok {payload : Bytes} :
    MsgAddrV2.btcEncode addrList = .ok payload ↔ addrList.length ≤ maxV2AddrPerMsg ∧
      (∀ na ∈ addrList, na.addr ≠ .other) ∧ payload = writeList (fun na => na.entry.write) addrList := by
  rw [MsgAddrV2.btcEncode, failIf_bind_eq_ok, Nat.not_lt, bind_eq_ok]
  refine and_congr_right fun _ => ⟨?_, ?_⟩
  · rintro ⟨bss, hbss, h⟩
    obtain ⟨hother, rfl⟩ := mapM_writeNetAddressV2_eq_ok.mp hbss
    exact ⟨hother, (Except.ok.inj h).symm⟩
  · rintro ⟨hother, rfl⟩
    exact ⟨_, mapM_writeNetAddressV2_eq_ok.mpr ⟨hother, rfl⟩, rfl⟩

/-- An entry is not longer than this. -/
theorem length_entry_le (na : NetAddressV2) : na.entry.write.length ≤ maxNetAddressV2Payload := by
  have haddress : na.entry.address.length ≤ 32 := by
    obtain ⟨timestamp, services, addr, port⟩ := na
    cases addr with
    | ipv4 addr | ipv6 addr | torv2 addr | torv3 addr => exact addr.length_eq.le.trans (by decide)
    | other => exact Nat.zero_le _
  have hservices := varIntSerializeSize_le na.entry.services
  have hsize := varIntSerializeSize_le (len64 na.entry.address.length)
  simp only [Entry.write, flatten_cons, flatten_nil, length_append, length_cons, length_nil, putUint32LE_length,
    length_writeVarInt, beBytes_length, maxVarIntPayload, maxNetAddressV2Payload] at *
  omega

theorem length_entries_le (addrList : List NetAddressV2) :
    (addrList.map fun na => na.entry.write).flatten.length ≤ addrList.length * maxNetAddressV2Payload := by
  induction addrList with
  | nil => exact Nat.zero_le _
  | cons na addrList ih =>
    have hle := length_entry_le na
    rw [map_cons, flatten_cons, length_append, length_cons, Nat.succ_mul]
    omega

/-- Entries that are read one after another, some of which are skipped. -/
theorem reads_entries {entries : List Entry} (hmax : entries.length ≤ maxV2AddrPerMsg) (h : ∀ e ∈ entries, e.Sized) :
    MsgAddrV2.btcDecode.Reads (writeList Entry.write entries) (entries.filterMap Entry.netAddress) := by
  rw [← append_nil (writeList ..)]
  refine (reads_readList (by decide) (fun e he => reads_entry (h e he)) hmax).bind (reads_pure.mpr ⟨rfl, ?_⟩)
  rw [filterMap_map]
  rfl

theorem filterMap_entries (h : ∀ na ∈ addrList, na.addr ≠ .other) :
    (addrList.map NetAddressV2.entry).filterMap Entry.netAddress = kept addrList := by
  induction addrList with
  | nil => rfl
  | cons na addrList ih =>
    obtain ⟨hna, hall⟩ := forall_mem_cons.mp h
    rw [map_cons, kept, filter_cons, filterMap_cons, (entry_spec hna).2, ih hall]
    cases na.addr.disguised with
    | true => rfl
    | false => rfl

/-- A list of addresses is read without the entries that are skipped. -/
theorem reads_btcDecode_addrV2 {payload : Bytes}
    (h : MsgAddrV2.btcEncode addrList = .ok payload) : MsgAddrV2.btcDecode.Reads payload (kept addrList) := by
  obtain ⟨hmax, hother, rfl⟩ := encode_addrV2_eq_ok.mp h
  have hsized : ∀ e ∈ addrList.map NetAddressV2.entry, e.Sized := by
    intro e he
    obtain ⟨na, hna, rfl⟩ := mem_map.mp he
    exact (entry_spec (hother na hna)).1
  have hreads := reads_entries (by rwa [length_map]) hsized
  rwa [filterMap_entries hother, writeList, length_map, map_map] at hreads

/-- An entry of an unknown network. -/
def unknownEntry : Entry := ⟨0, 0, 7, [1, 2, 3], 8333⟩

structure MsgVersion where
  protocolVersion : Int32
  services : UInt64
  timestamp : Time
  addrYou : NetAddress
  addrMe : NetAddress
  nonce : UInt64
  userAgent : Bytes
  lastBlock : Int32
  disableRelayTx : Bool
deriving DecidableEq

def maxUserAgentLen : Nat := 256
def userAgentTooLong (n : Nat) : WireError := .message "MsgVersion" s!"user agent too long [len {n}, max {maxUserAgentLen}]"
def readBool : WireReader Bool := (· != 0) <$> readUint8
def writeBool (b : Bool) : Bytes := [if b then 1 else 0]

/-- A user agent that is not too long. -/
def readUserAgent : WireReader Bytes := do
  let userAgent ← readVarString
  refuse (maxUserAgentLen < userAgent.length) (userAgentTooLong userAgent.length)
  return userAgent

/-- A field that is read only `if buf.Len() > 0`. -/
def readIfAny {α : Type} (p : WireReader α) (absent : α) (buf : Bytes) : Except WireError (α × Bytes) :=
  if buf = [] then .ok (absent, buf) else p.run buf

/-- The fields which every version has. -/
def readVersionStart (pver : UInt32) : WireReader (Int32 × UInt64 × Time × NetAddress) := do
  let protocolVersion ← readInt32LE
  let services ← readUint64LE
  let timestamp ← readInt64LE
  let addrYou ← readNetAddress pver false
  return (protocolVersion, services, timestamp, addrYou)

def MsgVersion.btcDecode (pver : UInt32) (buf : Bytes) : Except WireError (MsgVersion × Bytes) := do
  let start ← (readVersionStart pver).run buf
  let addrMe ← readIfAny (readNetAddress pver false) NetAddress.zero start.2
  let nonce ← readIfAny readUint64LE 0 addrMe.2
  let userAgent ← readIfAny readUserAgent [] nonce.2
  let lastBlock ← readIfAny readInt32LE 0 userAgent.2
  let relayTx ← readIfAny readBool true lastBlock.2
  return (⟨start.1.1, start.1.2.1, start.1.2.2.1, start.1.2.2.2, addrMe.1, nonce.1, userAgent.1, lastBlock.1, !relayTx.1⟩,
    relayTx.2)

def MsgVersion.write (msg : MsgVersion) (pver : UInt32) : Bytes :=
  [putUint32LE msg.protocolVersion.toUInt32, leBytes 8 msg.services.toNat, leBytes 8 msg.timestamp.toUInt64.toNat,
    writeNetAddress pver false msg.addrYou, writeNetAddress pver false msg.addrMe, leBytes 8 msg.nonce.toNat,
    writeVarBytes msg.userAgent, putUint32LE msg.lastBlock.toUInt32,
    if bip0037Version ≤ pver then writeBool (!msg.disableRelayTx) else []].flatten

def MsgVersion.btcEncode (msg : MsgVersion) (pver : UInt32) : Except WireError Bytes := do
  failIf (maxUserAgentLen < msg.userAgent.length) (userAgentTooLong msg.userAgent.length)
  return msg.write pver

/-- A version as it is after it has been encoded and decoded. -/
def MsgVersion.onWire (msg : MsgVersion) (pver : UInt32) : MsgVersion :=
  { msg with
    addrYou := msg.addrYou.onWire pver false
    addrMe := msg.addrMe.onWire pver false
    disableRelayTx := if bip0037Version ≤ pver then msg.disableRelayTx else false }

theorem write_onWire (msg : MsgVersion) (pver : UInt32) : (msg.onWire pver).write pver = msg.write pver := by
  simp only [MsgVersion.write, MsgVersion.onWire, writeNetAddress_onWire]
  split_ifs <;> rfl

theorem reads_bool (b : Bool) : readBool.Reads (writeBool b) b := by
  have hreads : ∀ x : UInt8, readBool.Reads [x] (x != 0) := by
    intro x
    exact reads_map.mpr ⟨x, format_readUint8.reads trivial, rfl⟩
  cases b with
  | true => exact hreads 1
  | false => exact hreads 0

theorem reads_userAgent {userAgent : Bytes} (h : ¬ maxUserAgentLen < userAgent.length) :
    readUserAgent.Reads (writeVarBytes userAgent) userAgent := by
  have hlen : userAgent.length ≤ maxMessagePayload := (Nat.not_lt.mp h).trans (by decide)
  rw [← append_nil (writeVarBytes userAgent)]
  apply (format_readVarString.reads hlen).bind
  exact reads_refuse_bind.mpr ⟨h, reads_pure.mpr ⟨rfl, rfl⟩⟩

/-- A field that is there is read. -/
theorem readIfAny_append {α : Type} {p : WireReader α} {absent a : α} {u : Bytes} (h : p.Reads u a) (hne : u ≠ [])
    (rest : Bytes) : readIfAny p absent (u ++ rest) = .ok (a, rest) := by
  rw [readIfAny, if_neg (append_ne_nil_of_left_ne_nil hne rest)]
  exact h rest

theorem reads_versionStart (msg : MsgVersion) (pver : UInt32) : (readVersionStart pver).Reads
    [putUint32LE msg.protocolVersion.toUInt32, leBytes 8 msg.services.toNat, leBytes 8 msg.timestamp.toUInt64.toNat,
      writeNetAddress pver false msg.addrYou].flatten
    (msg.protocolVersion, msg.services, msg.timestamp, msg.addrYou.onWire pver false) := by
  apply (format_readInt32LE.reads trivial).bind
  apply (format_readUint64LE.reads trivial).bind
  apply (format_readInt64LE.reads trivial).bind
  apply (reads_netAddress pver false msg.addrYou).bind
  exact reads_pure.mpr ⟨rfl, rfl⟩

theorem btcDecode_write_version {msg : MsgVersion} (pver : UInt32) (h : ¬ maxUserAgentLen < msg.userAgent.length) :
    MsgVersion.btcDecode pver (msg.write pver) = .ok (msg.onWire pver, []) := by
  have hme : writeNetAddress pver false msg.addrMe ≠ [] := by simp [writeNetAddress, leBytes, beBytes]
  have hagent : writeVarBytes msg.userAgent ≠ [] := by
    apply ne_nil_of_length_pos
    rw [length_writeVarBytes]
    have := varIntSerializeSize_pos (len64 msg.userAgent.length)
    omega
  have hrelay : readIfAny readBool true ((if bip0037Version ≤ pver then writeBool (!msg.disableRelayTx) else []) ++ []) =
      .ok (!(msg.onWire pver).disableRelayTx, []) := by
    simp only [MsgVersion.onWire]
    split_ifs with hpver
    · exact readIfAny_append (reads_bool _) (cons_ne_nil _ _) []
    · rfl
  have hbytes : msg.write pver = [putUint32LE msg.protocolVersion.toUInt32, leBytes 8 msg.services.toNat,
      leBytes 8 msg.timestamp.toUInt64.toNat, writeNetAddress pver false msg.addrYou].flatten ++
      (writeNetAddress pver false msg.addrMe ++ (leBytes 8 msg.nonce.toNat ++ (writeVarBytes msg.userAgent ++
        (putUint32LE msg.lastBlock.toUInt32 ++
          ((if bip0037Version ≤ pver then writeBool (!msg.disableRelayTx) else []) ++ []))))) := by
    simp [MsgVersion.write]
  rw [hbytes, MsgVersion.btcDecode, reads_versionStart msg pver]
  dsimp only [bind, Except.bind]
  rw [readIfAny_append (reads_netAddress pver false msg.addrMe) hme]
  dsimp only
  rw [readIfAny_append (format_readUint64LE.reads trivial) (ne_nil_of_length_eq_add_one (length_leBytes 8 _))]
  dsimp only
  rw [readIfAny_append (reads_userAgent h) hagent]
  dsimp only
  rw [readIfAny_append (format_readInt32LE.reads trivial) (ne_nil_of_length_eq_add_one (putUint32LE_length _))]
  dsimp only
  rw [hrelay]
  dsimp only [pure, Except.pure]
  rw [Bool.not_not]
  rfl

end NogoCommons.Wire
