import NogoCommons.Wire.Framing

/-!
# `ReadV2MessageN` — messages without a frame

A plaintext of the encrypted transport has a command and a payload, and nothing else: the length is that of the plaintext,
and there is no checksum. The command is one byte for most messages, and twelve bytes after a zero byte for the others.

`ReadMessageWithEncodingN` refuses a payload that the decoder does not use up, and gives the reason for it;
`ReadV2MessageN` does not ask. So the two accept the same messages but for payloads that go on after a complete message
(`agree_iff`). For all decoders but that of `version` a complete message is one that is accepted by itself, since a decoder
takes no notice of what comes after what it reads. The decoder of `version` stops early where the buffer ends, so a message
of that type is complete only if it has the last of its fields (`HasRelayFlag`).
-/

namespace NogoCommons.Wire
open Lib Reader List

/-! ## Commands of one byte -/

def v2MessageIDs : List (UInt8 × MessageType) :=
  [(1, .addr), (2, .block), (5, .feeFilter), (6, .filterAdd), (7, .filterClear), (8, .filterLoad), (9, .getBlocks),
    (11, .getData), (12, .getHeaders), (13, .headers), (14, .inv), (15, .memPool), (16, .merkleBlock), (17, .notFound),
    (18, .ping), (19, .pong), (21, .tx), (22, .getCFilters), (23, .cfilter), (24, .getCFHeaders), (25, .cfheaders),
    (26, .getCFCheckpt), (27, .cfcheckpt), (28, .addrV2)]

/-- `v2MessageIDs[id]`, which is the empty string if there is no such number. -/
def v2Command (id : UInt8) : Bytes :=
  match v2MessageIDs.lookup id with
  | some t => t.command
  | none => []

/-- The command of a plaintext, and the payload. -/
def splitPlaintext : Bytes → Except WireError (Bytes × Bytes)
  | [] => .error (.message "ReadV2MessageN" "invalid plaintext length")
  | id :: plaintext =>
    if id = 0 then
      if plaintext.length < commandSize then .error (.message "ReadV2MessageN" "invalid plaintext length")
      else .ok (trimRight (plaintext.take commandSize), plaintext.drop commandSize)
    else .ok (v2Command id, plaintext)

def readV2MessageN (slab : ScriptSlab) (plaintext : Bytes) (pver : UInt32) (enc : MessageEncoding) :
    Except WireError (Message × Bytes) := do
  let split ← splitPlaintext plaintext
  let msgCmd := split.1
  let plaintext := split.2
  let t ← makeEmptyMessage msgCmd
  let len := plaintext.length
  failIf (maxProtocolMessageLength < len) (.message "ReadV2MessageN"
    s!"message payload is too large - {len} bytes, but max message payload is {maxProtocolMessageLength} bytes")
  let mpl := t.maxPayloadLength pver
  failIf (mpl < len) (.message "ReadV2MessageN"
    (s!"payload exceeds max length - {len} bytes, but max payload size for messages of type [" ++ showAscii msgCmd ++
      s!"] is {mpl}."))
  let msg ← t.btcDecode pver enc slab plaintext
  return (msg.1, plaintext)

/-- A plaintext with a command and a payload. -/
inductive Carries (command payload : Bytes) : Bytes → Prop
  | long : Carries command payload (0 :: ((FixedBytes.copy commandSize command).bytes ++ payload))
  | short {id : UInt8} {t : MessageType} (hid : v2MessageIDs.lookup id = some t) (hcommand : command = t.command) :
    Carries command payload (id :: payload)

theorem splitPlaintext_of_carries {command payload plaintext : Bytes} (h : Carries command payload plaintext) :
    splitPlaintext plaintext = .ok (trimRight (FixedBytes.copy commandSize command).bytes, payload) := by
  cases h with
  | long =>
    have hlen := (FixedBytes.copy commandSize command).length_eq
    rw [splitPlaintext, if_pos rfl, if_neg (by rw [length_append, hlen]; omega), take_left' hlen, drop_left' hlen]
  | @short id t hid hcommand =>
    have hne : id ≠ 0 := by
      rintro rfl
      cases hid
    rw [splitPlaintext, if_neg hne, v2Command, hid, hcommand, trimRight_command]

/-- A plaintext is accepted if a frame would be, but for what the decoder leaves. -/
theorem readV2_eq_ok {slab : ScriptSlab} {command payload plaintext : Bytes} {pver : UInt32} {enc : MessageEncoding}
    (h : Carries command payload plaintext) {msg : Message} {raw : Bytes} :
    readV2MessageN slab plaintext pver enc = .ok (msg, raw) ↔
      raw = payload ∧ ∃ t, Framed pver (trimRight (FixedBytes.copy commandSize command).bytes) payload t ∧
        ∃ left, t.btcDecode pver enc slab payload = .ok (msg, left) := by
  rw [readV2MessageN, splitPlaintext_of_carries h]
  show (makeEmptyMessage _ >>= _) = _ ↔ _
  constructor
  · intro hrun
    obtain ⟨t, ht, hrun⟩ := bind_eq_ok.mp hrun
    obtain ⟨hmax, hrun⟩ := failIf_bind_eq_ok.mp hrun
    obtain ⟨hmpl, hrun⟩ := failIf_bind_eq_ok.mp hrun
    obtain ⟨r, hdec, hrun⟩ := bind_eq_ok.mp hrun
    cases hrun
    exact ⟨rfl, t, ⟨Nat.not_lt.mp hmax, ht, Nat.not_lt.mp hmpl⟩, r.2, hdec⟩
  · rintro ⟨rfl, t, hframed, left, hdec⟩
    refine bind_eq_ok.mpr ⟨t, hframed.type_eq, failIf_bind_eq_ok.mpr ⟨Nat.not_lt.mpr hframed.le_max, ?_⟩⟩
    exact failIf_bind_eq_ok.mpr ⟨Nat.not_lt.mpr hframed.le_maxPayloadLength, bind_eq_ok.mpr ⟨_, hdec, rfl⟩⟩

/-! ## Complete messages -/

/-- Every decoder but one takes no notice of what comes after what it reads. -/
theorem exists_reader {t : MessageType} (h : t ≠ .version) (pver : UInt32) (enc : MessageEncoding) (slab : ScriptSlab) :
    ∃ p : WireReader Message, ∀ buf, t.btcDecode pver enc slab buf = p.run buf := by
  cases t with
  | version => exact absurd rfl h
  | _ => exact ⟨_, fun _ => rfl⟩

/-! ### `version` -/

variable {pver : UInt32} {u : Bytes}

theorem length_of_reads_netAddress {na : NetAddress} (h : (readNetAddress pver false).Reads u na) : u.length = 26 := by
  obtain ⟨timestamp, v₀, v₁, rfl, h₀, h₁⟩ := reads_bind.mp h
  rw [readTimestamp, if_neg (fun hts => Bool.false_ne_true hts.1)] at h₀
  obtain ⟨rfl, -⟩ := reads_pure.mp h₀
  obtain ⟨services, -, v₂, rfl, h₂⟩ := format_readUint64LE.reads_bind.mp h₁
  obtain ⟨ip, -, v₃, rfl, h₃⟩ := (format_readArray 16).reads_bind.mp h₂
  obtain ⟨port, -, v₄, rfl, h₄⟩ := format_readUint16BE.reads_bind.mp h₃
  obtain ⟨rfl, -⟩ := reads_pure.mp h₄
  simp

theorem length_of_reads_versionStart {x : Int32 × UInt64 × Time × NetAddress}
    (h : (readVersionStart pver).Reads u x) : u.length = 46 := by
  obtain ⟨protocolVersion, -, v₀, rfl, h₀⟩ := format_readInt32LE.reads_bind.mp h
  obtain ⟨services, -, v₁, rfl, h₁⟩ := format_readUint64LE.reads_bind.mp h₀
  obtain ⟨timestamp, -, v₂, rfl, h₂⟩ := format_readInt64LE.reads_bind.mp h₁
  obtain ⟨addrYou, v₃, v₄, rfl, h₃, h₄⟩ := reads_bind.mp h₂
  obtain ⟨rfl, -⟩ := reads_pure.mp h₄
  simp [length_of_reads_netAddress h₃]

theorem length_of_reads_bool {b : Bool} (h : readBool.Reads u b) : u.length = 1 := by
  obtain ⟨x, hx, -⟩ := reads_map.mp h
  obtain ⟨-, rfl⟩ := (format_readUint8 u x).mp hx
  rfl

theorem reads_userAgent_iff {userAgent : Bytes} : readUserAgent.Reads u userAgent ↔
    userAgent.length ≤ maxUserAgentLen ∧ u = writeVarBytes userAgent := by
  constructor
  · intro h
    obtain ⟨ua, -, v, rfl, hv⟩ := format_readVarString.reads_bind.mp h
    obtain ⟨hlen, hpure⟩ := reads_refuse_bind.mp hv
    obtain ⟨rfl, rfl⟩ := reads_pure.mp hpure
    exact ⟨Nat.not_lt.mp hlen, append_nil _⟩
  · rintro ⟨hlen, rfl⟩
    exact reads_userAgent (Nat.not_lt.mpr hlen)

/-- A `version` payload that has the last of its fields: four bytes and the flag after the user agent, which is at
offset 80. -/
def HasRelayFlag (u : Bytes) : Prop :=
  ∃ userAgent v, userAgent.length ≤ maxUserAgentLen ∧ u.drop 80 = writeVarBytes userAgent ++ v ∧ v.length = 5

/-- All fields of a `version` message. -/
def readWholeVersion (pver : UInt32) : WireReader MsgVersion := do
  let start ← readVersionStart pver
  let addrMe ← readNetAddress pver false
  let nonce ← readUint64LE
  let userAgent ← readUserAgent
  let lastBlock ← readInt32LE
  let relayTx ← readBool
  return ⟨start.1, start.2.1, start.2.2.1, start.2.2.2, addrMe, nonce, userAgent, lastBlock, !relayTx⟩

variable {buf : Bytes} {msg : MsgVersion}

theorem readIfAny_of_ne_nil {α : Type} {p : WireReader α} {absent : α} (h : buf ≠ []) :
    readIfAny p absent buf = p.run buf := if_neg h

/-- If something is left, the field was there. -/
theorem run_of_readIfAny {α : Type} {p : WireReader α} {absent : α} {r : α × Bytes}
    (h : readIfAny p absent buf = .ok r) (hleft : r.2 ≠ []) : buf ≠ [] ∧ p.run buf = .ok r := by
  have hbuf : buf ≠ [] := by
    rintro rfl
    cases h
    exact hleft rfl
  exact ⟨hbuf, (readIfAny_of_ne_nil hbuf).symm.trans h⟩

/-- If something is left, then no field was missing. -/
theorem readWholeVersion_of_left {left : Bytes} (h : MsgVersion.btcDecode pver buf = .ok (msg, left))
    (hleft : left ≠ []) : (readWholeVersion pver).run buf = .ok (msg, left) := by
  obtain ⟨start, hstart, h₀⟩ := bind_eq_ok.mp h
  obtain ⟨addrMe, hme, h₁⟩ := bind_eq_ok.mp h₀
  obtain ⟨nonce, hnonce, h₂⟩ := bind_eq_ok.mp h₁
  obtain ⟨userAgent, hagent, h₃⟩ := bind_eq_ok.mp h₂
  obtain ⟨lastBlock, hlast, h₄⟩ := bind_eq_ok.mp h₃
  obtain ⟨relayTx, hrelay, h₅⟩ := bind_eq_ok.mp h₄
  cases h₅
  obtain ⟨hne₄, hrun₅⟩ := run_of_readIfAny hrelay hleft
  obtain ⟨hne₃, hrun₄⟩ := run_of_readIfAny hlast hne₄
  obtain ⟨hne₂, hrun₃⟩ := run_of_readIfAny hagent hne₃
  obtain ⟨hne₁, hrun₂⟩ := run_of_readIfAny hnonce hne₂
  obtain ⟨-, hrun₁⟩ := run_of_readIfAny hme hne₁
  rw [readWholeVersion, run_bind_ok hstart, run_bind_ok hrun₁, run_bind_ok hrun₂, run_bind_ok hrun₃, run_bind_ok hrun₄,
    run_bind_ok hrun₅]
  rfl

theorem complete_of_readWholeVersion (h : (readWholeVersion pver).Reads u msg) :
    (∀ rest, MsgVersion.btcDecode pver (u ++ rest) = .ok (msg, rest)) ∧ HasRelayFlag u := by
  obtain ⟨start, u₀, v₀, rfl, hstart, h₀⟩ := reads_bind.mp h
  obtain ⟨addrMe, u₁, v₁, rfl, hme, h₁⟩ := reads_bind.mp h₀
  obtain ⟨nonce, u₂, v₂, rfl, hnonce, h₂⟩ := reads_bind.mp h₁
  obtain ⟨userAgent, u₃, v₃, rfl, hagent, h₃⟩ := reads_bind.mp h₂
  obtain ⟨lastBlock, u₄, v₄, rfl, hlast, h₄⟩ := reads_bind.mp h₃
  obtain ⟨relayTx, u₅, v₅, rfl, hrelay, h₅⟩ := reads_bind.mp h₄
  obtain ⟨rfl, rfl⟩ := reads_pure.mp h₅
  have hlen₅ := length_of_reads_bool hrelay
  have hne₅ : u₅ ≠ [] := ne_nil_of_length_pos (by omega)
  constructor
  · intro rest
    simp only [append_assoc, nil_append]
    -- every field is there, since the last one is
    apply bind_eq_ok.mpr ⟨_, hstart _, ?_⟩
    apply bind_eq_ok.mpr ⟨_, (readIfAny_of_ne_nil (by simp [hne₅])).trans (hme _), ?_⟩
    apply bind_eq_ok.mpr ⟨_, (readIfAny_of_ne_nil (by simp [hne₅])).trans (hnonce _), ?_⟩
    apply bind_eq_ok.mpr ⟨_, (readIfAny_of_ne_nil (by simp [hne₅])).trans (hagent _), ?_⟩
    apply bind_eq_ok.mpr ⟨_, (readIfAny_of_ne_nil (by simp [hne₅])).trans (hlast _), ?_⟩
    apply bind_eq_ok.mpr ⟨_, (readIfAny_of_ne_nil (by simp [hne₅])).trans (hrelay _), ?_⟩
    rfl
  · obtain ⟨-, rfl⟩ := (format_readUint64LE ..).mp hnonce
    obtain ⟨-, rfl⟩ := (format_readInt32LE ..).mp hlast
    obtain ⟨hagentLen, rfl⟩ := reads_userAgent_iff.mp hagent
    refine ⟨userAgent, putUint32LE lastBlock.toUInt32 ++ u₅, hagentLen, ?_, by simp [hlen₅]⟩
    rw [← append_assoc, ← append_assoc, append_nil]
    apply drop_left'
    simp [length_of_reads_versionStart hstart, length_of_reads_netAddress hme]

/-- A payload which is accepted is complete if it has its last field. -/
theorem readWholeVersion_of_relayFlag (h : MsgVersion.btcDecode pver u = .ok (msg, [])) (hflag : HasRelayFlag u) :
    (readWholeVersion pver).Reads u msg := by
  obtain ⟨userAgent', v, hagentLen, hdrop, hv⟩ := hflag
  obtain ⟨⟨start, s₀⟩, hstart, h₀⟩ := bind_eq_ok.mp h
  obtain ⟨⟨addrMe, s₁⟩, hme, h₁⟩ := bind_eq_ok.mp h₀
  obtain ⟨⟨nonce, s₂⟩, hnonce, h₂⟩ := bind_eq_ok.mp h₁
  obtain ⟨⟨userAgent, s₃⟩, hagent, h₃⟩ := bind_eq_ok.mp h₂
  obtain ⟨⟨lastBlock, s₄⟩, hlast, h₄⟩ := bind_eq_ok.mp h₃
  obtain ⟨⟨relayTx, s₅⟩, hrelay, h₅⟩ := bind_eq_ok.mp h₄
  cases h₅
  dsimp only at hme hnonce hagent hlast hrelay
  have hlong : 80 + v.length ≤ u.length := by
    have hlen := congrArg length hdrop
    rw [length_drop, length_append] at hlen
    omega
  -- the fields before the user agent are 80 bytes, so none of them is missing
  obtain ⟨u₀, rfl, hreads₀⟩ := run_eq_ok.mp hstart
  have hlen₀ := length_of_reads_versionStart hreads₀
  rw [length_append, hlen₀] at hlong
  rw [readIfAny_of_ne_nil (ne_nil_of_length_pos (by omega))] at hme
  obtain ⟨u₁, rfl, hreads₁⟩ := run_eq_ok.mp hme
  have hlen₁ := length_of_reads_netAddress hreads₁
  rw [length_append, hlen₁] at hlong
  rw [readIfAny_of_ne_nil (ne_nil_of_length_pos (by omega))] at hnonce
  obtain ⟨u₂, rfl, hreads₂⟩ := run_eq_ok.mp hnonce
  obtain ⟨-, rfl⟩ := (format_readUint64LE ..).mp hreads₂
  rw [length_append, length_leBytes] at hlong
  rw [← append_assoc, ← append_assoc, drop_left' (by simp [hlen₀, hlen₁])] at hdrop
  -- the user agent is the one that the last five bytes come after
  rw [readIfAny_of_ne_nil (ne_nil_of_length_pos (by omega))] at hagent
  obtain ⟨u₃, rfl, hreads₃⟩ := run_eq_ok.mp hagent
  obtain ⟨rfl, rfl⟩ := hreads₃.unique (reads_userAgent_iff.mpr ⟨hagentLen, rfl⟩) hdrop
  obtain rfl := append_cancel_left hdrop
  rw [readIfAny_of_ne_nil (ne_nil_of_length_pos (by omega))] at hlast
  obtain ⟨u₄, rfl, hreads₄⟩ := run_eq_ok.mp hlast
  obtain ⟨-, rfl⟩ := (format_readInt32LE ..).mp hreads₄
  rw [length_append] at hv
  dsimp only at hv
  rw [putUint32LE_length] at hv
  rw [readIfAny_of_ne_nil (ne_nil_of_length_pos (by omega))] at hrelay
  obtain ⟨u₅, rfl, hreads₅⟩ := run_eq_ok.mp hrelay
  apply hreads₀.bind
  apply hreads₁.bind
  apply hreads₂.bind
  apply hreads₃.bind
  apply hreads₄.bind
  apply hreads₅.bind
  exact reads_pure.mpr ⟨rfl, rfl⟩

/-! ### Messages with something after them -/

/-- A payload that is a message by itself, and stays one if something comes after it. -/
def MessageType.Complete (pver : UInt32) (enc : MessageEncoding) (slab : ScriptSlab) (u : Bytes) (t : MessageType) : Prop :=
  (∃ msg, t.btcDecode pver enc slab u = .ok (msg, [])) ∧ (t = .version → HasRelayFlag u)

section Complete
variable {pver : UInt32} {enc : MessageEncoding} {slab : ScriptSlab}

theorem decode_version_eq_ok {left : Bytes} {msg : Message} :
    MessageType.version.btcDecode pver enc slab buf = .ok (msg, left) ↔
      ∃ m, MsgVersion.btcDecode pver buf = .ok (m, left) ∧ msg = .version m := by
  show (MsgVersion.btcDecode pver buf >>= fun r => pure (Message.version r.1, r.2)) = _ ↔ _
  rw [bind_eq_ok]
  constructor
  · rintro ⟨r, hr, h⟩
    cases h
    exact ⟨r.1, hr, rfl⟩
  · rintro ⟨m, h, rfl⟩
    exact ⟨_, h, rfl⟩

/-- A decoder leaves something just if what it has read is complete. -/
theorem leaves_iff {t : MessageType} {payload : Bytes} :
    (∃ msg left, t.btcDecode pver enc slab payload = .ok (msg, left) ∧ left ≠ []) ↔
      ∃ u rest, payload = u ++ rest ∧ rest ≠ [] ∧ t.Complete pver enc slab u := by
  by_cases ht : t = .version
  · subst ht
    constructor
    · rintro ⟨msg, left, hdec, hleft⟩
      obtain ⟨m, hm, -⟩ := decode_version_eq_ok.mp hdec
      obtain ⟨u, rfl, hreads⟩ := run_eq_ok.mp (readWholeVersion_of_left hm hleft)
      obtain ⟨hall, hflag⟩ := complete_of_readWholeVersion hreads
      have hu := hall []
      rw [append_nil] at hu
      exact ⟨u, left, rfl, hleft, ⟨.version m, decode_version_eq_ok.mpr ⟨m, hu, rfl⟩⟩, fun _ => hflag⟩
    · rintro ⟨u, rest, rfl, hrest, ⟨msg, hdec⟩, hflag⟩
      obtain ⟨m, hm, -⟩ := decode_version_eq_ok.mp hdec
      have hwhole := readWholeVersion_of_relayFlag hm (hflag rfl)
      exact ⟨.version m, rest, decode_version_eq_ok.mpr ⟨m, (complete_of_readWholeVersion hwhole).1 rest, rfl⟩, hrest⟩
  · obtain ⟨p, hp⟩ := exists_reader ht pver enc slab
    constructor
    · rintro ⟨msg, left, hdec, hleft⟩
      rw [hp] at hdec
      obtain ⟨u, rfl, hreads⟩ := run_eq_ok.mp hdec
      exact ⟨u, left, rfl, hleft, ⟨msg, (hp u).trans hreads.run_all⟩, fun h => absurd h ht⟩
    · rintro ⟨u, rest, rfl, hrest, ⟨msg, hdec⟩, -⟩
      rw [hp] at hdec
      obtain ⟨u', hu', hreads⟩ := run_eq_ok.mp hdec
      rw [append_nil] at hu'
      subst hu'
      exact ⟨msg, rest, (hp _).trans (hreads rest), hrest⟩

end Complete

/-! ## The two readers -/

section Agree
variable (doubleHash : Bytes → FixedBytes 32) (slab : ScriptSlab) (command payload plaintext : Bytes)
  (pver btcnet : UInt32) (enc : MessageEncoding)

/-- The plaintext and the frame give the same message, or both are refused. -/
def Agree : Prop :=
  ∀ r, readV2MessageN slab plaintext pver enc = .ok r ↔
    (readMessageWithEncodingN doubleHash slab (frame doubleHash btcnet command payload) pver btcnet enc).result = .ok r

/-- A message of a known type and a size that is allowed, with something after it. -/
def Trails : Prop :=
  ∃ t, Framed pver (trimRight (FixedBytes.copy commandSize command).bytes) payload t ∧
    ∃ u rest, payload = u ++ rest ∧ rest ≠ [] ∧ t.Complete pver enc slab u

theorem agree_iff (hcarries : Carries command payload plaintext) (hlt : payload.length < 2 ^ 32) :
    Agree doubleHash slab command payload plaintext pver btcnet enc ↔ ¬ Trails slab command payload pver enc := by
  constructor
  · rintro hagree ⟨t, hframed, htrails⟩
    obtain ⟨msg, left, hdec, hleft⟩ := leaves_iff.mpr htrails
    have hv1 := (hagree (msg, payload)).mp ((readV2_eq_ok hcarries).mpr ⟨rfl, t, hframed, left, hdec⟩)
    obtain ⟨-, t', hframed', hdec'⟩ := (read_frame_eq_ok hlt).mp hv1
    cases hframed.type_eq.symm.trans hframed'.type_eq
    exact hleft (Prod.mk.inj (Except.ok.inj (hdec.symm.trans hdec'))).2
  · rintro hclean ⟨msg, raw⟩
    rw [readV2_eq_ok hcarries, read_frame_eq_ok hlt]
    apply and_congr_right
    intro _
    apply exists_congr
    intro t
    apply and_congr_right
    intro hframed
    constructor
    · rintro ⟨left, hdec⟩
      by_cases hleft : left = []
      · rwa [hleft] at hdec
      · exact absurd ⟨t, hframed, leaves_iff.mp ⟨msg, left, hdec, hleft⟩⟩ hclean
    · intro hdec
      exact ⟨[], hdec⟩

end Agree

theorem Framed.eq_inv {pver : UInt32} {payload : Bytes} {t : MessageType}
    (h : Framed pver (trimRight (FixedBytes.copy commandSize (ascii "inv")).bytes) payload t) : .inv = t :=
  Except.ok.inj ((show makeEmptyMessage _ = .ok .inv by decide).symm.trans h.type_eq)

/-- An empty `inv` is read the same by both. -/
theorem agree_iff_inv : Carries (ascii "inv") [0] [14, 0] ∧ ([0] : Bytes).length < 2 ^ 32 ∧
    Agree (fun _ => FixedBytes.zero 32) (FixedBytes.zero scriptSlabSize) (ascii "inv") [0] [14, 0] 70016 0xd9b4bef9
      witnessEncoding := by
  have hcarries : Carries (ascii "inv") [0] [14, 0] := .short (t := .inv) (by decide) rfl
  refine ⟨hcarries, by decide, (agree_iff _ _ _ _ _ _ _ _ hcarries (by decide)).mpr ?_⟩
  rintro ⟨t, hframed, u, rest, hu, hrest, ⟨msg, hdec⟩, -⟩
  obtain rfl := hframed.eq_inv
  -- nothing is left of the payload if something comes after it
  cases u with
  | nil => cases hdec
  | cons b u =>
    obtain ⟨-, hnil⟩ := List.cons.inj hu
    exact hrest (append_eq_nil_iff.mp hnil.symm).2

/-- An empty `inv` with one more byte: the frame is refused, the plaintext is not. -/
theorem inv_trailing_not_agree : Carries (ascii "inv") [0, 0] [14, 0, 0] ∧
      readV2MessageN (FixedBytes.zero scriptSlabSize) [14, 0, 0] 70016 witnessEncoding = .ok (.inv [], [0, 0]) ∧
      ¬ Agree (fun _ => FixedBytes.zero 32) (FixedBytes.zero scriptSlabSize) (ascii "inv") [0, 0] [14, 0, 0] 70016
        0xd9b4bef9 witnessEncoding := by
  have hv2 : readV2MessageN (FixedBytes.zero scriptSlabSize) [14, 0, 0] 70016 witnessEncoding =
      .ok (.inv [], [0, 0]) := rfl
  refine ⟨.short (t := .inv) (by decide) rfl, hv2, fun hagree => ?_⟩
  obtain ⟨-, t, hframed, hdec⟩ := (read_frame_eq_ok (by decide)).mp ((hagree _).mp hv2)
  obtain rfl := hframed.eq_inv
  have hleft : MessageType.inv.btcDecode 70016 witnessEncoding (FixedBytes.zero scriptSlabSize) [0, 0] =
      .ok (.inv [], [0]) := rfl
  obtain ⟨-, hnil⟩ := Prod.mk.inj (Except.ok.inj (hleft.symm.trans hdec))
  cases hnil

end NogoCommons.Wire
