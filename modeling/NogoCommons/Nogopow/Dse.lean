import NogoCommons.Nogopow.Types

/-!
# `nogopow/dse.go` — the Deterministic Simple Encoding

The format that puts a 2-byte length in front of each of the three fields `rlpEncode` leaves
open. This file is the encoder and the decoder as the source has them, and one theorem about
each: what the encoder writes (`dseEncodeHeader_eq`), and the seven ways the decoder can end
(`dseDecodeHeader_eq`). Everything in `Nogopow/DseLaws.lean` is read off those two.

The decoder keeps a position and moves it by lengths it reads from the data. It checks each
variable field against the end of the data and no fixed field after one; the two outcomes
where it leaves the data are outcomes of the equation, beside the errors.
-/

namespace NogoCommons.Nogopow
open Lib

/-! ## Sizes -/

def dseParentHashSize : Nat := 32
def dseCoinbaseSize : Nat := 32
def dseStateRootSize : Nat := 32
def dseTxHashSize : Nat := 32
def dseGasLimitSize : Nat := 8
def dseTimeSize : Nat := 8
def dseNonceSize : Nat := 32

def dseFixedOverhead : Nat :=
  dseParentHashSize + dseCoinbaseSize + dseStateRootSize + dseTxHashSize + dseGasLimitSize +
    dseTimeSize + dseNonceSize

def dseLengthPrefixSize : Nat := 2

/-- The decoder's lower bound. It counts one byte of `Number` and one of `Difficulty`. -/
def dseMinHeaderSize : Nat :=
  dseFixedOverhead + dseLengthPrefixSize + 1 + dseLengthPrefixSize + 0 + dseLengthPrefixSize + 1

@[simp] theorem dseMinHeaderSize_eq : dseMinHeaderSize = 184 := rfl

/-! ## Errors -/

/-- The fields the decoder checks against the end of the data. -/
inductive DseField where
  | number
  | extra
  | difficulty
deriving DecidableEq, Repr

inductive DseError where
  | nilHeader
  | tooShort (len : Nat)
  | exceedsBounds (field : DseField)
deriving DecidableEq, Repr

def DseField.name : DseField → String
  | .number => "number"
  | .extra => "extra"
  | .difficulty => "difficulty"

/-- The text of the error, as `fmt.Errorf` builds it. -/
def DseError.text : DseError → String
  | .nilHeader => "DSEEncodeHeader: nil header"
  | .tooShort len =>
      "DSEDecodeHeader: data too short (" ++ toString len ++ " < " ++
        toString dseMinHeaderSize ++ ")"
  | .exceedsBounds field => "DSEDecodeHeader: " ++ field.name ++ " field exceeds data bounds"

/-! ## Addresses in 32 bytes -/

/-- `PadAddressTo32`: twelve zero bytes, then the address. -/
def padAddressTo32 (addr : Address) : FixedBytes 32 := .copyAt 32 12 addr.bytes

/-- `UnpadAddressFrom32`: the last twenty bytes. The first twelve are not looked at. -/
def unpadAddressFrom32 (padded : FixedBytes 32) : Address := .copy 20 (padded.bytes.drop 12)

theorem padAddressTo32_bytes (addr : Address) : (padAddressTo32 addr).bytes = List.replicate 12 0 ++ addr.bytes :=
  FixedBytes.copyAt_bytes (by simp)

theorem unpadAddressFrom32_bytes (padded : FixedBytes 32) : (unpadAddressFrom32 padded).bytes = padded.bytes.drop 12 :=
  FixedBytes.copy_bytes (by simp)

theorem unpad_pad (addr : Address) : unpadAddressFrom32 (padAddressTo32 addr) = addr := by
  refine FixedBytes.ext ?_
  rw [unpadAddressFrom32_bytes, padAddressTo32_bytes]
  exact List.drop_left' (by simp)

/-! ## The encoder -/

/-- `DSEEncodeHeader`. Each length goes through `uint16`, and `h.Number.Bytes()` on a `nil`
pointer panics. -/
def dseEncodeHeader : Option Header → Go (Except DseError Bytes)
  | none => .ok (.error .nilHeader)
  | some h => do
    let buf := h.parentHash.bytes
    let buf := buf ++ (padAddressTo32 h.coinbase).bytes
    let buf := buf ++ h.root.bytes
    let buf := buf ++ h.txHash.bytes
    let numBytes := bigBytes (← deref h.number)
    let buf := buf ++ putUint16 numBytes.length
    let buf := buf ++ numBytes
    let buf := buf ++ putUint64 h.gasLimit
    let buf := buf ++ putUint64 h.time
    let buf := buf ++ putUint16 h.extra.length
    let buf := buf ++ h.extra
    let buf := buf ++ h.nonce.bytes
    let diffBytes := bigBytes (← deref h.difficulty)
    let buf := buf ++ putUint16 diffBytes.length
    let buf := buf ++ diffBytes
    .ok (.ok buf)

/-- The bytes of a header with both numbers present, field by field. -/
def dseBytes (h : Header) : Bytes :=
  h.parentHash.bytes ++ ((padAddressTo32 h.coinbase).bytes ++ (h.root.bytes ++ (h.txHash.bytes ++
    (putUint16 (optBytes h.number).length ++ (optBytes h.number ++ (putUint64 h.gasLimit ++ (putUint64 h.time ++
        (putUint16 h.extra.length ++ (h.extra ++ (h.nonce.bytes ++
          (putUint16 (optBytes h.difficulty).length ++ optBytes h.difficulty)))))))))))

/-- **On a header with both numbers present the encoder always succeeds** — there is no length
at which it answers an error. -/
theorem dseEncodeHeader_eq {h : Header} (hh : h.NonNeg) : dseEncodeHeader (some h) = .ok (.ok (dseBytes h)) := by
  obtain ⟨⟨n, hn⟩, ⟨d, hd⟩⟩ := hh
  simp only [dseEncodeHeader, dseBytes, hn, hd, deref_some, optBytes, bind, Except.bind, List.append_assoc]

theorem dseBytes_length (h : Header) : (dseBytes h).length =
    (optBytes h.number).length + h.extra.length + (optBytes h.difficulty).length + 182 := by
  simp only [dseBytes, List.length_append, FixedBytes.bytes_length, putUint16_length, putUint64_length]
  omega

/-! ## The decoder -/

def dseDecodeHeader (data : Bytes) : Go (Except DseError Header) := do
  if data.length < dseMinHeaderSize then
    return .error (.tooShort data.length)
  let pos := 0
  let parentHash := FixedBytes.copy 32 (← slice data pos (pos + dseParentHashSize))
  let pos := pos + dseParentHashSize
  let coinbase32 := FixedBytes.copy 32 (← slice data pos (pos + dseCoinbaseSize))
  let coinbase := unpadAddressFrom32 coinbase32
  let pos := pos + dseCoinbaseSize
  let root := FixedBytes.copy 32 (← slice data pos (pos + dseStateRootSize))
  let pos := pos + dseStateRootSize
  let txHash := FixedBytes.copy 32 (← slice data pos (pos + dseTxHashSize))
  let pos := pos + dseTxHashSize
  let numLen := beNat (← slice data pos (pos + dseLengthPrefixSize))
  let pos := pos + dseLengthPrefixSize
  if pos + numLen > data.length then
    return .error (.exceedsBounds .number)
  let number := bigSetBytes (← slice data pos (pos + numLen))
  let pos := pos + numLen
  let gasLimit := uint64 (← slice data pos (pos + dseGasLimitSize))
  let pos := pos + dseGasLimitSize
  let time := uint64 (← slice data pos (pos + dseTimeSize))
  let pos := pos + dseTimeSize
  let extraLen := beNat (← slice data pos (pos + dseLengthPrefixSize))
  let pos := pos + dseLengthPrefixSize
  if pos + extraLen > data.length then
    return .error (.exceedsBounds .extra)
  let extra ← slice data pos (pos + extraLen)
  let pos := pos + extraLen
  let nonce := FixedBytes.copy 32 (← slice data pos (pos + dseNonceSize))
  let pos := pos + dseNonceSize
  let diffLen := beNat (← slice data pos (pos + dseLengthPrefixSize))
  let pos := pos + dseLengthPrefixSize
  if pos + diffLen > data.length then
    return .error (.exceedsBounds .difficulty)
  let difficulty := bigSetBytes (← slice data pos (pos + diffLen))
  return .ok
    { parentHash, coinbase, root, txHash, number := some number, gasLimit, time, extra, nonce,
      difficulty := some difficulty }

/-! ### The layout the decoder reads

Three lengths, each at the place the lengths before it put it, and the thirteen stretches of
data they cut. `field data lo len` is `data[lo:lo+len]` where that lies within the data. -/

/-- `len` bytes of the data from position `lo`. -/
def field (data : Bytes) (lo len : Nat) : Bytes := (data.drop lo).take len

theorem slice_field (data : Bytes) (lo len : Nat) (h : lo + len ≤ data.length) :
    slice data lo (lo + len) = .ok (field data lo len) := by
  rw [slice_ok (Nat.le_add_right ..) h, Nat.add_sub_cancel_left]
  rfl

theorem field_length {data : Bytes} {lo len : Nat} (h : lo + len ≤ data.length) : (field data lo len).length = len := by
  simp only [field, List.length_take, List.length_drop]
  omega

/-- The length in front of `Number`. -/
def numLen (data : Bytes) : Nat := beNat (field data 128 2)

/-- The length in front of `Extra`. -/
def extraLen (data : Bytes) : Nat := beNat (field data (130 + numLen data + 8 + 8) 2)

/-- The length in front of `Difficulty`. -/
def diffLen (data : Bytes) : Nat :=
  beNat (field data (130 + numLen data + 8 + 8 + 2 + extraLen data + 32) 2)

/-- The header in the data, read without looking at its end. -/
def fieldsHeader (data : Bytes) : Header where
  parentHash := .copy 32 (field data 0 32)
  coinbase := unpadAddressFrom32 (.copy 32 (field data 32 32))
  root := .copy 32 (field data 64 32)
  txHash := .copy 32 (field data 96 32)
  number := some (bigSetBytes (field data 130 (numLen data)))
  gasLimit := uint64 (field data (130 + numLen data) 8)
  time := uint64 (field data (130 + numLen data + 8) 8)
  extra := field data (130 + numLen data + 8 + 8 + 2) (extraLen data)
  nonce := .copy 32 (field data (130 + numLen data + 8 + 8 + 2 + extraLen data) 32)
  difficulty := some (bigSetBytes (field data (130 + numLen data + 8 + 8 + 2 + extraLen data + 32 + 2) (diffLen data)))

/-- **The seven ends of the decoder**, in the order it reaches them. Two of them are panics:
`Number` fits but the 18 bytes after it do not, or `Extra` fits but the 34 bytes after it
do not. -/
theorem dseDecodeHeader_eq (data : Bytes) : dseDecodeHeader data =
    if data.length < 184 then .ok (.error (.tooShort data.length))
    else if data.length < 130 + numLen data then .ok (.error (.exceedsBounds .number))
    else if data.length < 148 + numLen data then .error .sliceBounds
    else if data.length < 148 + numLen data + extraLen data then
      .ok (.error (.exceedsBounds .extra))
    else if data.length < 182 + numLen data + extraLen data then .error .sliceBounds
    else if data.length < 182 + numLen data + extraLen data + diffLen data then
      .ok (.error (.exceedsBounds .difficulty))
    else .ok (.ok (fieldsHeader data)) := by
  unfold dseDecodeHeader
  simp only [dseMinHeaderSize_eq, dseParentHashSize, dseCoinbaseSize, dseStateRootSize,
    dseTxHashSize, dseGasLimitSize, dseTimeSize, dseNonceSize, dseLengthPrefixSize, Nat.zero_add,
    Nat.reduceAdd, bind, Except.bind, pure, Except.pure]
  by_cases h1 : data.length < 184
  · simp only [if_pos h1]
  -- The five reads in front of `Number` lie within the checked minimum.
  have s1 : slice data 0 32 = .ok (field data 0 32) := slice_field data 0 32 (by omega)
  have s2 : slice data 32 64 = .ok (field data 32 32) := slice_field data 32 32 (by omega)
  have s3 : slice data 64 96 = .ok (field data 64 32) := slice_field data 64 32 (by omega)
  have s4 : slice data 96 128 = .ok (field data 96 32) := slice_field data 96 32 (by omega)
  have s5 : slice data 128 130 = .ok (field data 128 2) := slice_field data 128 2 (by omega)
  simp only [if_neg h1, s1, s2, s3, s4, s5, gt_iff_lt]
  rw [show beNat (field data 128 2) = numLen data from rfl]
  by_cases h2 : data.length < 130 + numLen data
  · simp only [if_pos h2]
  simp only [if_neg h2, slice_field data _ _ (Nat.le_of_not_lt h2)]
  by_cases h3 : data.length < 148 + numLen data
  · -- One of the three reads behind `Number` leaves the data; which one does not matter.
    rw [if_pos h3]
    by_cases g1 : data.length < 130 + numLen data + 8
    · rw [slice_panic g1]
    rw [slice_field data _ _ (Nat.le_of_not_lt g1)]
    by_cases g2 : data.length < 130 + numLen data + 8 + 8
    · simp only [slice_panic g2]
    simp only [slice_field data _ _ (Nat.le_of_not_lt g2)]
    rw [slice_panic (by omega)]
  simp only [if_neg h3, slice_field data (130 + numLen data) 8 (by omega),
    slice_field data (130 + numLen data + 8) 8 (by omega),
    slice_field data (130 + numLen data + 8 + 8) 2 (by omega)]
  rw [show beNat (field data (130 + numLen data + 8 + 8) 2) = extraLen data from rfl]
  by_cases h4 : data.length < 148 + numLen data + extraLen data
  · rw [if_pos (by omega), if_pos h4]
  rw [if_neg (by omega), if_neg h4]
  simp only [slice_field data (130 + numLen data + 8 + 8 + 2) (extraLen data) (by omega)]
  by_cases h5 : data.length < 182 + numLen data + extraLen data
  · rw [if_pos h5]
    by_cases g1 : data.length < 130 + numLen data + 8 + 8 + 2 + extraLen data + 32
    · rw [slice_panic g1]
    simp only [slice_field data _ _ (Nat.le_of_not_lt g1)]
    rw [slice_panic (by omega)]
  simp only [if_neg h5, slice_field data (130 + numLen data + 8 + 8 + 2 + extraLen data) 32 (by omega),
    slice_field data (130 + numLen data + 8 + 8 + 2 + extraLen data + 32) 2 (by omega)]
  rw [show beNat (field data (130 + numLen data + 8 + 8 + 2 + extraLen data + 32) 2) = diffLen data from rfl]
  by_cases h6 : data.length < 182 + numLen data + extraLen data + diffLen data
  · rw [if_pos (by omega), if_pos h6]
  rw [if_neg (by omega), if_neg h6, slice_field data _ _ (by omega)]
  rfl

end NogoCommons.Nogopow
