import NogoCommons.Lib.Reader

/-!
# `wire/common.go`, `wire/error.go` — numbers, strings and lists on the wire

All of the wire format is made of little-endian numbers, byte arrays, and lists with their length in front. The length is
a variable length integer: one byte, or a discriminant and two, four or eight bytes. A value has one encoding only,
because a longer one than needed is refused (`format_readVarInt`).

A decoder that reads a list compares its length with a limit before it reads the first element. The decoders have this in
common with one another and differ in the limit and in what they say when it is exceeded, so there is one definition,
`readList`, and one theorem about it, `format_readList`.

Reading and writing buffers come from free lists in the source and their contents are written before they are read, so
there is nothing of them here. Neither is there of the protocol version where a function takes it and does not look at it.
-/

namespace NogoCommons.Wire
open Lib Reader List

/-! ## Errors -/

/-- The errors of the package. -/
inductive WireError where
  | eof
  | unexpectedEOF
  /-- `MessageError`. -/
  | message (func description : String)
  | unknownMessage
  | invalidAddressSize
  | insaneCFHeaderCount
  | superfluousWitnessRecord
  | other (text : String)
deriving DecidableEq, Repr

instance readErrorWire : ReadError WireError where
  eof := .eof
  unexpectedEOF := .unexpectedEOF

abbrev WireReader := Reader WireError

/-- `%x`. -/
def hex (n : Nat) : String := String.ofList (Nat.toDigits 16 n)

/-- `%v` of bytes. -/
def showBytes (bs : Bytes) : String := "[" ++ " ".intercalate (bs.map fun b => toString b.toNat) ++ "]"

variable {α : Type} {p : WireReader α} {w : α → Bytes}

/-- A check of an encoder. -/
def failIf (c : Prop) [Decidable c] (e : WireError) : Except WireError Unit := if c then .error e else .ok ()

theorem failIf_bind_eq_ok {c : Prop} [Decidable c] {e : WireError} {f : Unit → Except WireError α} {a : α} :
    (failIf c e >>= f) = .ok a ↔ ¬ c ∧ f () = .ok a := by
  unfold failIf
  split_ifs with hc
  · exact ⟨fun h => (by cases h), fun h => absurd hc h.1⟩
  · exact ⟨fun h => ⟨hc, h⟩, And.right⟩

/-- The last check of an encoder. -/
theorem failIf_pure_eq_ok {c : Prop} [Decidable c] {e : WireError} {a b : α} :
    (failIf c e >>= fun _ => pure b) = .ok a ↔ ¬ c ∧ b = a :=
  failIf_bind_eq_ok.trans (and_congr_right fun _ => ⟨Except.ok.inj, congrArg _⟩)

/-! ## Constants -/

def maxVarIntPayload : Nat := 9
def maxMessagePayload : Nat := 1024 * 1024 * 32
def hashSize : Nat := 32

/-! Protocol versions. -/

def multipleAddressVersion : UInt32 := 209
def netAddressTimeVersion : UInt32 := 31402
def bip0031Version : UInt32 := 60000
def bip0035Version : UInt32 := 60002
def bip0037Version : UInt32 := 70001
def rejectVersion : UInt32 := 70002
def sendHeadersVersion : UInt32 := 70012
def feeFilterVersion : UInt32 := 70013
def addrV2Version : UInt32 := 70016

/-- `chainhash.Hash`. -/
abbrev ChainHash := FixedBytes 32

/-- A `time.Time`, of which only `Unix()` is looked at. -/
abbrev Time := Int64

/-- `uint32(t.Unix())`. -/
def Time.uint32 (t : Time) : UInt32 := t.toUInt64.toUInt32

/-- `time.Unix(int64(x), 0)`. -/
def Time.ofUint32 (x : UInt32) : Time := x.toUInt64.toInt64

@[simp] theorem Time.uint32_ofUint32 (x : UInt32) : (Time.ofUint32 x).uint32 = x := by
  simp [Time.uint32, Time.ofUint32]

/-- A time that is a number of seconds of 32 bits. -/
def Time.Fits (t : Time) : Prop := Time.ofUint32 t.uint32 = t

theorem Time.fits_ofUint32 (x : UInt32) : (Time.ofUint32 x).Fits := by
  rw [Time.Fits, Time.uint32_ofUint32]

/-- A timestamp of 32 bits. -/
def readTime : WireReader Time := Time.ofUint32 <$> readUint32LE
def writeTime (t : Time) : Bytes := putUint32LE t.uint32

theorem format_readTime : Format readTime Time.Fits writeTime := by
  intro u t
  rw [readTime, reads_map]
  constructor
  · rintro ⟨x, hx, rfl⟩
    obtain ⟨-, rfl⟩ := (format_readUint32LE u x).mp hx
    exact ⟨Time.fits_ofUint32 x, by rw [writeTime, Time.uint32_ofUint32]⟩
  · rintro ⟨hfits, rfl⟩
    exact ⟨t.uint32, format_readUint32LE.reads trivial, hfits⟩

/-! ## Variable length integers -/

def nonCanonicalVarInt (rv : UInt64) (discriminant : UInt8) (min : Nat) : WireError :=
  .message "ReadVarInt" ("non-canonical varint " ++ hex rv.toNat ++ " - discriminant " ++ hex discriminant.toNat ++
    " must encode a value greater than " ++ hex min)

def readVarInt : WireReader UInt64 := do
  let discriminant ← readUint8
  if discriminant = 0xff then
    let rv ← readUint64LE
    refuse (rv.toNat < 0x100000000) (nonCanonicalVarInt rv discriminant 0x100000000)
    return rv
  else if discriminant = 0xfe then
    let rv ← readUint32LE
    refuse (rv.toNat < 0x10000) (nonCanonicalVarInt rv.toUInt64 discriminant 0x10000)
    return rv.toUInt64
  else if discriminant = 0xfd then
    let rv ← readUint16LE
    refuse (rv.toNat < 0xfd) (nonCanonicalVarInt rv.toUInt64 discriminant 0xfd)
    return rv.toUInt64
  else
    return discriminant.toUInt64

def writeVarInt (val : UInt64) : Bytes :=
  if val.toNat < 0xfd then [val.toUInt8]
  else if val.toNat ≤ 0xffff then 0xfd :: leBytes 2 val.toUInt16.toNat
  else if val.toNat ≤ 0xffffffff then 0xfe :: putUint32LE val.toUInt32
  else 0xff :: leBytes 8 val.toNat

def varIntSerializeSize (val : UInt64) : Nat :=
  if val.toNat < 0xfd then 1
  else if val.toNat ≤ 0xffff then 3
  else if val.toNat ≤ 0xffffffff then 5
  else 9

theorem length_writeVarInt (val : UInt64) : (writeVarInt val).length = varIntSerializeSize val := by
  unfold writeVarInt varIntSerializeSize
  split_ifs <;> simp

theorem varIntSerializeSize_pos (val : UInt64) : 1 ≤ varIntSerializeSize val := by
  unfold varIntSerializeSize
  split_ifs <;> decide

theorem varIntSerializeSize_le (val : UInt64) : varIntSerializeSize val ≤ maxVarIntPayload := by
  unfold varIntSerializeSize maxVarIntPayload
  split_ifs <;> decide

theorem varIntSerializeSize_mono {a b : UInt64} (h : a.toNat ≤ b.toNat) :
    varIntSerializeSize a ≤ varIntSerializeSize b := by
  unfold varIntSerializeSize
  split_ifs <;> omega

/-- A number that has to be as long as it is. -/
theorem reads_canonical (hp : Format p (fun _ => True) w) {c : α → Prop} [DecidablePred c] {e : α → WireError}
    {f : α → UInt64} {u : Bytes} {val : UInt64} :
    (p >>= fun rv => refuse (c rv) (e rv) >>= fun _ => pure (f rv)).Reads u val ↔ ∃ rv, ¬ c rv ∧ u = w rv ∧ f rv = val := by
  simp only [hp.reads_bind, reads_refuse_bind, reads_pure, true_and]
  constructor
  · rintro ⟨rv, _, rfl, hc, rfl, rfl⟩
    exact ⟨rv, hc, append_nil _, rfl⟩
  · rintro ⟨rv, hc, rfl, rfl⟩
    exact ⟨rv, [], (append_nil _).symm, hc, rfl, rfl⟩

theorem format_readVarInt : Format readVarInt (fun _ => True) writeVarInt := by
  intro u val
  rw [readVarInt, format_readUint8.reads_bind]
  constructor
  · rintro ⟨d, -, v, rfl, hv⟩
    refine ⟨trivial, ?_⟩
    split_ifs at hv with h₁ h₂ h₃
    · obtain ⟨rv, hmin, rfl, rfl⟩ := (reads_canonical format_readUint64LE).mp hv
      rw [writeVarInt, if_neg (by omega), if_neg (by omega), if_neg (by omega), h₁]
      rfl
    · obtain ⟨rv, hmin, rfl, rfl⟩ := (reads_canonical format_readUint32LE).mp hv
      have hlt := rv.toNat_lt
      rw [writeVarInt, UInt32.toNat_toUInt64, if_neg (by omega), if_neg (by omega), if_pos (by omega), h₂,
        UInt32.toUInt32_toUInt64]
      rfl
    · obtain ⟨rv, hmin, rfl, rfl⟩ := (reads_canonical format_readUint16LE).mp hv
      have hlt := rv.toNat_lt
      rw [writeVarInt, UInt16.toNat_toUInt64, if_neg (by omega), if_pos (by omega), h₃, UInt16.toUInt16_toUInt64]
      rfl
    · obtain ⟨rfl, rfl⟩ := reads_pure.mp hv
      have hlt := d.toNat_lt
      have hne : ∀ k : UInt8, ¬ d = k → d.toNat ≠ k.toNat := fun k hk h => hk (UInt8.toNat_inj.mp h)
      have hff := hne 0xff h₁
      have hfe := hne 0xfe h₂
      have hfd := hne 0xfd h₃
      rw [writeVarInt, UInt8.toNat_toUInt64, if_pos, UInt8.toUInt8_toUInt64]
      · rfl
      · simp only [UInt8.toNat_ofNat, Nat.reducePow, Nat.reduceMod] at hff hfe hfd
        omega
  · rintro ⟨-, rfl⟩
    unfold writeVarInt
    split_ifs with h₁ h₂ h₃
    · refine ⟨val.toUInt8, trivial, [], rfl, ?_⟩
      have hval : val.toUInt8.toNat = val.toNat := by
        rw [UInt64.toNat_toUInt8]
        omega
      have hne : ∀ k : UInt8, 0xfd ≤ k.toNat → ¬ val.toUInt8 = k := by
        rintro k hk rfl
        omega
      rw [if_neg (hne 0xff (by decide)), if_neg (hne 0xfe (by decide)), if_neg (hne 0xfd (by decide))]
      refine reads_pure.mpr ⟨rfl, UInt64.toNat_inj.mp ?_⟩
      rw [UInt8.toNat_toUInt64, hval]
    · have hval : val.toUInt16.toNat = val.toNat := by
        rw [UInt64.toNat_toUInt16]
        omega
      refine ⟨0xfd, trivial, _, rfl, ?_⟩
      rw [if_neg (by decide), if_neg (by decide), if_pos rfl]
      refine (reads_canonical format_readUint16LE).mpr ⟨val.toUInt16, by omega, rfl, UInt64.toNat_inj.mp ?_⟩
      rw [UInt16.toNat_toUInt64, hval]
    · have hval : val.toUInt32.toNat = val.toNat := by
        rw [UInt64.toNat_toUInt32]
        omega
      refine ⟨0xfe, trivial, _, rfl, ?_⟩
      rw [if_neg (by decide), if_pos rfl]
      refine (reads_canonical format_readUint32LE).mpr ⟨val.toUInt32, by omega, rfl, UInt64.toNat_inj.mp ?_⟩
      rw [UInt32.toNat_toUInt64, hval]
    · refine ⟨0xff, trivial, _, rfl, ?_⟩
      rw [if_pos rfl]
      exact (reads_canonical format_readUint64LE).mpr ⟨val, by omega, rfl, rfl⟩

/-! ## Lists and strings -/

/-- `uint64(len(x))`. -/
def len64 (n : Nat) : UInt64 := UInt64.ofNat n
theorem toNat_len64 {n : Nat} (h : n < 2 ^ 64) : (len64 n).toNat = n := UInt64.toNat_ofNat_of_lt' h

section Lists

/-- A list with its length in front, which is compared with a limit before anything else is read. -/
def readList (limit : Nat) (tooMany : UInt64 → WireError) (p : WireReader α) : WireReader (List α) := do
  let count ← readVarInt
  refuse (limit < count.toNat) (tooMany count)
  times count.toNat p

def writeList (w : α → Bytes) (as : List α) : Bytes := writeVarInt (len64 as.length) ++ (as.map w).flatten

variable {limit : Nat}

theorem format_readList (hlimit : limit < 2 ^ 64) {tooMany : UInt64 → WireError} {ok : α → Prop} (hp : Format p ok w) :
    Format (readList limit tooMany p) (fun as => as.length ≤ limit ∧ ∀ a ∈ as, ok a) (writeList w) := by
  intro u as
  rw [readList, format_readVarInt.reads_bind]
  constructor
  · rintro ⟨count, -, v, rfl, hv⟩
    obtain ⟨hcount, htimes⟩ := reads_refuse_bind.mp hv
    obtain ⟨⟨hlen, hall⟩, rfl⟩ := (hp.times count.toNat ..).mp htimes
    refine ⟨⟨by omega, hall⟩, ?_⟩
    rw [writeList, hlen, len64, UInt64.ofNat_toNat]
  · rintro ⟨⟨hlen, hall⟩, rfl⟩
    have hcount := toNat_len64 (hlen.trans_lt hlimit)
    refine ⟨len64 as.length, trivial, (as.map w).flatten, rfl, ?_⟩
    refine reads_refuse_bind.mpr ⟨by omega, ?_⟩
    rw [hcount]
    exact (hp.times as.length ..).mpr ⟨⟨rfl, hall⟩, rfl⟩

/-- A list of which every element comes back in its own form. -/
theorem reads_readList (hlimit : limit < 2 ^ 64) {tooMany : UInt64 → WireError} {β : Type} {p : WireReader β} {f : α → β}
    {as : List α} (hp : ∀ a ∈ as, p.Reads (w a) (f a)) (hlen : as.length ≤ limit) :
    (readList limit tooMany p).Reads (writeList w as) (as.map f) := by
  have htimes : (times as.length p).Reads (as.map w).flatten (as.map f) := by
    clear hlen
    induction as with
    | nil => exact reads_pure.mpr ⟨rfl, rfl⟩
    | cons a as ih =>
      obtain ⟨ha, has⟩ := forall_mem_cons.mp hp
      apply ha.bind
      rw [← append_nil (as.map w).flatten]
      exact (ih has).bind (reads_pure.mpr ⟨rfl, rfl⟩)
  have hcount := toNat_len64 (hlen.trans_lt hlimit)
  apply (format_readVarInt.reads trivial).bind
  refine reads_refuse_bind.mpr ⟨by omega, ?_⟩
  rwa [hcount]

/-- A byte string with its length in front. -/
def readCounted (limit : Nat) (tooLong : UInt64 → WireError) : WireReader Bytes := do
  let count ← readVarInt
  refuse (limit < count.toNat) (tooLong count)
  readFull count.toNat

/-- `WriteVarBytes`, `WriteVarString`. -/
def writeVarBytes (bs : Bytes) : Bytes := writeVarInt (len64 bs.length) ++ bs

theorem format_readCounted (hlimit : limit < 2 ^ 64) {tooLong : UInt64 → WireError} :
    Format (readCounted limit tooLong) (fun bs => bs.length ≤ limit) writeVarBytes := by
  intro u bs
  rw [readCounted, format_readVarInt.reads_bind]
  constructor
  · rintro ⟨count, -, v, rfl, hv⟩
    obtain ⟨hcount, hfull⟩ := reads_refuse_bind.mp hv
    obtain ⟨hlen, rfl⟩ := reads_readFull.mp hfull
    refine ⟨by omega, ?_⟩
    rw [writeVarBytes, hlen, len64, UInt64.ofNat_toNat]
  · rintro ⟨hlen, rfl⟩
    have hcount := toNat_len64 (hlen.trans_lt hlimit)
    refine ⟨len64 bs.length, trivial, bs, rfl, ?_⟩
    refine reads_refuse_bind.mpr ⟨by omega, ?_⟩
    rw [hcount]
    exact reads_readFull.mpr ⟨rfl, rfl⟩

end Lists

def readVarBytes (maxAllowed : Nat) (fieldName : String) : WireReader Bytes :=
  readCounted maxAllowed fun count => .message "ReadVarBytes"
    s!"{fieldName} is larger than the max allowed size [count {count}, max {maxAllowed}]"

def readVarString : WireReader Bytes :=
  readCounted maxMessagePayload fun count => .message "ReadVarString"
    s!"variable length string is too long [count {count}, max {maxMessagePayload}]"

theorem format_readVarBytes {maxAllowed : Nat} (h : maxAllowed < 2 ^ 64) (fieldName : String) :
    Format (readVarBytes maxAllowed fieldName) (fun bs => bs.length ≤ maxAllowed) writeVarBytes :=
  format_readCounted h

theorem format_readVarString : Format readVarString (fun bs => bs.length ≤ maxMessagePayload) writeVarBytes :=
  format_readCounted (by decide)

theorem length_writeVarBytes (bs : Bytes) :
    (writeVarBytes bs).length = varIntSerializeSize (len64 bs.length) + bs.length := by
  rw [writeVarBytes, length_append, length_writeVarInt]

/-- A list of which every element has the same size. -/
theorem length_writeList {size : Nat} (hw : ∀ a, (w a).length = size) (as : List α) :
    (writeList w as).length = varIntSerializeSize (len64 as.length) + as.length * size := by
  have hflat : (as.map w).flatten.length = as.length * size := by
    rw [length_flatten, map_map]
    have hconst : as.map (length ∘ w) = as.map fun _ => size := map_congr_left fun a _ => hw a
    rw [hconst]
    simp
  rw [writeList, length_append, length_writeVarInt, hflat]

end NogoCommons.Wire
