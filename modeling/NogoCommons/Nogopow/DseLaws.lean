import NogoCommons.Nogopow.Dse

/-!
# What the DSE codec does and does not promise

Four questions about the pair `dseEncodeHeader`/`dseDecodeHeader`, each answered by an `iff`:

* does the decoder stay inside its input? — `dseDecodeHeader_inside_iff`;
* does a header survive encoding and decoding? — `dseRoundTrip_iff`;
* is an accepted byte string the encoding of what it decodes to? — `dseEncode_decode_iff`;
* do two headers never share an encoding? — `dseFaithful_iff`.

All four rest on one computation, `fieldsHeader_dseBytes`: on the encoding of a header whose
three open fields fit their length prefixes, the decoder's layout finds every field where the
encoder put it. The format itself is sound there. What fails, fails at its edges: a minimum
size one byte too large for an empty `Number`, lengths that wrap, fixed fields that are not
checked, and input the decoder does not look at.
-/

namespace NogoCommons.Nogopow
open Lib List

/-- Each of the three open fields is short enough for its 2-byte length. -/
structure Header.Fits (h : Header) : Prop where
  number : (optBytes h.number).length ≤ 65535
  extra : h.extra.length ≤ 65535
  difficulty : (optBytes h.difficulty).length ≤ 65535

/-! ## The layout of an encoding -/

variable {data : Bytes} {h : Header}

/-- One step along a concatenation: the field at the position, and the data behind it. -/
theorem field_step {x post : Bytes} {k m : Nat} (hd : data.drop k = x ++ post) (hx : x.length = m) :
    field data k m = x ∧ data.drop (k + m) = post := by
  subst hx
  refine ⟨?_, ?_⟩
  · rw [field, hd]
    exact take_left
  · rw [← drop_drop, hd]
    exact drop_left

/-- A length that fits its prefix is read back. -/
theorem beNat_putUint16_of_le {n : Nat} (h : n ≤ 65535) : beNat (putUint16 n) = n := by
  rw [beNat_putUint16]
  omega

/-- **The decoder's layout finds every field of an encoding.** -/
theorem fieldsHeader_dseBytes (hh : h.NonNeg) (hf : h.Fits) : numLen (dseBytes h) = (optBytes h.number).length ∧
      extraLen (dseBytes h) = h.extra.length ∧
      diffLen (dseBytes h) = (optBytes h.difficulty).length ∧
      fieldsHeader (dseBytes h) = h := by
  have d0 : (dseBytes h).drop 0 = dseBytes h := rfl
  obtain ⟨f1, d1⟩ := field_step d0 h.parentHash.length_eq
  obtain ⟨f2, d2⟩ := field_step d1 (padAddressTo32 h.coinbase).length_eq
  obtain ⟨f3, d3⟩ := field_step d2 h.root.length_eq
  obtain ⟨f4, d4⟩ := field_step d3 h.txHash.length_eq
  obtain ⟨f5, d5⟩ := field_step d4 (putUint16_length _)
  have hn : numLen (dseBytes h) = (optBytes h.number).length := by
    show beNat (field (dseBytes h) (0 + 32 + 32 + 32 + 32) 2) = _
    rw [f5, beNat_putUint16_of_le hf.number]
  obtain ⟨f6, d6⟩ := field_step d5 hn.symm
  obtain ⟨f7, d7⟩ := field_step d6 (putUint64_length _)
  obtain ⟨f8, d8⟩ := field_step d7 (putUint64_length _)
  obtain ⟨f9, d9⟩ := field_step d8 (putUint16_length _)
  have he : extraLen (dseBytes h) = h.extra.length := by
    show beNat (field (dseBytes h) (0 + 32 + 32 + 32 + 32 + 2 + numLen (dseBytes h) + 8 + 8) 2) = _
    rw [f9, beNat_putUint16_of_le hf.extra]
  obtain ⟨f10, d10⟩ := field_step d9 he.symm
  obtain ⟨f11, d11⟩ := field_step d10 h.nonce.length_eq
  obtain ⟨f12, d12⟩ := field_step d11 (putUint16_length _)
  have hd : diffLen (dseBytes h) = (optBytes h.difficulty).length := by
    show beNat (field (dseBytes h) (0 + 32 + 32 + 32 + 32 + 2 + numLen (dseBytes h) + 8 + 8 + 2 +
      extraLen (dseBytes h) + 32) 2) = _
    rw [f12, beNat_putUint16_of_le hf.difficulty]
  obtain ⟨f13, -⟩ := field_step (d12.trans (append_nil _).symm) hd.symm
  refine ⟨hn, he, hd, ?_⟩
  obtain ⟨⟨n, hnum⟩, ⟨d, hdif⟩⟩ := hh
  have hbig : ∀ m : Nat, bigSetBytes (optBytes (some (m : Int))) = (m : Int) := fun m => by
    rw [optBytes_some_nat, bigSetBytes_natBytes]
  simp only [Nat.zero_add, Nat.reduceAdd] at f1 f2 f3 f4 f6 f7 f8 f10 f11 f13
  unfold fieldsHeader
  rw [f1, f2, f3, f4, f6, f7, f8, f10, f11, f13]
  simp only [FixedBytes.copy_self, unpad_pad, uint64_putUint64]
  cases h
  simp only at hnum hdif
  subst hnum hdif
  simp only [hbig]

/-! ## Staying inside the data -/

/-- Where `Number` fits the data, the 18 bytes behind it do too; where `Extra` fits, the 34
bytes behind it do too. Where one of them does not fit, the decoder has already answered. -/
def FixedFieldsFit (data : Bytes) : Prop :=
  data.length < 184 ∨ data.length < 130 + numLen data ∨
    148 + numLen data ≤ data.length ∧
      (data.length < 148 + numLen data + extraLen data ∨ 182 + numLen data + extraLen data ≤ data.length)

/-- **The decoder stays inside its input exactly when the unchecked fixed fields do.** The two
ways out are the two panics of `dseDecodeHeader_eq`. -/
theorem dseDecodeHeader_inside_iff (data : Bytes) : (∃ r, dseDecodeHeader data = .ok r) ↔ FixedFieldsFit data := by
  rw [dseDecodeHeader_eq]
  unfold FixedFieldsFit
  split_ifs with h1 h2 h3 h4 h5 h6
  · exact ⟨fun _ => .inl h1, fun _ => ⟨_, rfl⟩⟩
  · exact ⟨fun _ => .inr (.inl h2), fun _ => ⟨_, rfl⟩⟩
  · constructor
    · rintro ⟨r, hr⟩
      cases hr
    · omega
  · exact ⟨fun _ => .inr (.inr ⟨by omega, .inl h4⟩), fun _ => ⟨_, rfl⟩⟩
  · constructor
    · rintro ⟨r, hr⟩
      cases hr
    · omega
  · exact ⟨fun _ => .inr (.inr ⟨by omega, .inr (by omega)⟩), fun _ => ⟨_, rfl⟩⟩
  · exact ⟨fun _ => .inr (.inr ⟨by omega, .inr (by omega)⟩), fun _ => ⟨_, rfl⟩⟩

/-- 184 bytes, all zero but for a `Number` of 54 bytes: it ends where the data ends. -/
def numberToTheEnd : Bytes := replicate 129 0 ++ 54 :: replicate 54 0

/-- `GasLimit` is then read from behind the data. -/
theorem dseDecodeHeader_outside : ¬ ∀ data, ∃ r, dseDecodeHeader data = .ok r := by
  intro hall
  obtain ⟨r, hr⟩ := hall numberToTheEnd
  have hpanic : dseDecodeHeader numberToTheEnd = .error .sliceBounds := by decide +kernel
  rw [hpanic] at hr
  cases hr

/-! ## The round trip -/

/-- `DSEDecodeHeader(DSEEncodeHeader(h))`. -/
def dseRoundTrip (h : Header) : Go (Except DseError Header) := do
  match ← dseEncodeHeader (some h) with
  | .error e => .ok (.error e)
  | .ok data => dseDecodeHeader data

/-- The round trip, once the lengths fit: the decoder's minimum is the only thing that can
stand in its way. -/
theorem dseRoundTrip_eq (hh : h.NonNeg) (hf : h.Fits) : dseRoundTrip h =
    if (dseBytes h).length < 184 then .ok (.error (.tooShort (dseBytes h).length))
    else .ok (.ok h) := by
  obtain ⟨hn, he, hd, hfields⟩ := fieldsHeader_dseBytes hh hf
  have hlen := dseBytes_length h
  unfold dseRoundTrip
  rw [dseEncodeHeader_eq hh]
  simp only [bind, Except.bind]
  rw [dseDecodeHeader_eq, hn, he, hd, hfields]
  by_cases hmin : (dseBytes h).length < 184
  · rw [if_pos hmin, if_pos hmin]
  · rw [if_neg hmin, if_neg hmin, if_neg (by omega), if_neg (by omega), if_neg (by omega),
      if_neg (by omega), if_neg (by omega)]

/-- **A header survives the round trip exactly when its open fields have two bytes between
them.** The minimum size asks for one byte of `Number` and one of `Difficulty`, and the
encoder writes none for a zero. -/
theorem dseRoundTrip_iff {h : Header} (hh : h.NonNeg) (hf : h.Fits) : dseRoundTrip h = .ok (.ok h) ↔
      2 ≤ (optBytes h.number).length + h.extra.length + (optBytes h.difficulty).length := by
  rw [dseRoundTrip_eq hh hf]
  have hlen := dseBytes_length h
  split_ifs with hmin
  · constructor
    · intro heq
      cases heq
    · omega
  · exact ⟨fun _ => by omega, fun _ => rfl⟩

/-- Block 1 at difficulty 1 survives. -/
theorem dseRoundTrip_block_one : dseRoundTrip { Header.zero with number := some 1, difficulty := some 1 }
      = .ok (.ok { Header.zero with number := some 1, difficulty := some 1 }) :=
  (dseRoundTrip_iff ⟨⟨1, rfl⟩, ⟨1, rfl⟩⟩ ⟨by decide, by decide, by decide⟩).mpr (by decide)

/-- The genesis header at difficulty 1: `Number` is zero and takes no byte. -/
def genesisHeader : Header := { Header.zero with number := some 0, difficulty := some 1 }

/-- The decoder refuses the encoding of a genesis header. -/
theorem dseRoundTrip_genesis : ¬ ∀ h : Header, h.NonNeg → h.Fits → dseRoundTrip h = .ok (.ok h) := by
  intro hall
  have hgen := hall genesisHeader ⟨⟨0, rfl⟩, ⟨1, rfl⟩⟩ ⟨by decide, by decide, by decide⟩
  have hshort : dseRoundTrip genesisHeader = .ok (.error (.tooShort 183)) := by decide +kernel
  rw [hshort] at hgen
  cases hgen

/-! ## Accepted byte strings

The decoder drops four things without looking at them: the twelve bytes in front of the
address, leading zeros of the two numbers, and whatever stands behind `Difficulty`. An
accepted byte string is the encoding of its header exactly when there is nothing to drop. -/

/-- Nothing of the data is ignored by the decoder. -/
structure DseCanonical (data : Bytes) : Prop where
  padding : field data 32 12 = replicate 12 0
  number : (field data 130 (numLen data)).head? ≠ some 0
  difficulty : (field data (130 + numLen data + 8 + 8 + 2 + extraLen data + 32 + 2) (diffLen data)).head? ≠ some 0
  ending : data.length = 182 + numLen data + extraLen data + diffLen data

/-- What an accepted byte string looks like: long enough, and decoded to its layout. -/
theorem dseDecodeHeader_accepts (hd : dseDecodeHeader data = .ok (.ok h)) :
    182 + numLen data + extraLen data + diffLen data ≤ data.length ∧ h = fieldsHeader data := by
  rw [dseDecodeHeader_eq] at hd
  split_ifs at hd with h1 h2 h3 h4 h5 h6
  · cases hd
  · cases hd
  · cases hd
  · cases hd
  · simp only [Except.ok.injEq] at hd
    exact ⟨by omega, hd.symm⟩

theorem fieldsHeader_nonNeg (data : Bytes) : (fieldsHeader data).NonNeg :=
  ⟨⟨_, rfl⟩, ⟨_, rfl⟩⟩

/-- A length prefix says at most 65535. -/
theorem beNat_field_two_le (data : Bytes) (lo : Nat) : beNat (field data lo 2) ≤ 65535 := by
  have hlt := beNat_lt (field data lo 2)
  have hlen : (field data lo 2).length ≤ 2 := by simp [field]
  have hpow : (256 : Nat) ^ (field data lo 2).length ≤ 256 ^ 2 :=
    Nat.pow_le_pow_right (by decide) hlen
  norm_num at hpow
  omega

/-- A number read from bytes is written back in at most as many. -/
theorem natBytes_beNat_length_le (bs : Bytes) : (natBytes (beNat bs)).length ≤ bs.length := by
  rw [natBytes_length, Nat.digits_length_le_iff (by decide)]
  exact beNat_lt bs

/-- … and in fewer where they start with a zero. -/
theorem natBytes_beNat_length_lt {bs : Bytes} (h : bs.head? = some 0) : (natBytes (beNat bs)).length < bs.length := by
  cases bs with
  | nil => simp at h
  | cons b bs =>
    simp only [head?_cons, Option.some.injEq] at h
    subst h
    have hval : beNat (0 :: bs) = beNat bs := by rw [beNat_cons]; simp
    rw [hval]
    exact Nat.lt_succ_of_le (natBytes_beNat_length_le bs)

/-- Gluing the stretches of the layout gives the data back, with what stands behind them. -/
theorem field_append_drop (data : Bytes) (lo len : Nat) : field data lo len ++ data.drop (lo + len) = data.drop lo := by
  rw [field, ← drop_drop, take_append_drop]

/-- The encoder writes twelve zeros in front of every address. -/
theorem field_dseBytes_padding (h : Header) : field (dseBytes h) 32 12 = replicate 12 0 := by
  have d0 : (dseBytes h).drop 0 = dseBytes h := rfl
  obtain ⟨-, d1⟩ := field_step d0 h.parentHash.length_eq
  rw [padAddressTo32_bytes, append_assoc] at d1
  exact (field_step d1 length_replicate).1

section
variable (hlen : 182 + numLen data + extraLen data + diffLen data ≤ data.length)
include hlen

theorem fieldsHeader_fits : (fieldsHeader data).Fits := by
  refine ⟨?_, ?_, ?_⟩
  · refine (natBytes_beNat_length_le _).trans ?_
    rw [field_length (by omega)]
    exact beNat_field_two_le data _
  · show (field data ..).length ≤ 65535
    rw [field_length (by omega)]
    exact beNat_field_two_le data _
  · refine (natBytes_beNat_length_le _).trans ?_
    rw [field_length (by omega)]
    exact beNat_field_two_le data _

/-- The encoding of what a byte string decodes to, in terms of the byte string: every field as
it stands, but for the address padding and the two numbers. -/
theorem dseBytes_fieldsHeader : dseBytes (fieldsHeader data) =
      field data 0 32 ++ ((replicate 12 0 ++ (field data 32 32).drop 12) ++ (field data 64 32 ++ (field data 96 32 ++
      (putUint16 (natBytes (beNat (field data 130 (numLen data)))).length ++
      (natBytes (beNat (field data 130 (numLen data))) ++
      (field data (130 + numLen data) 8 ++ (field data (130 + numLen data + 8) 8 ++
      (field data (130 + numLen data + 8 + 8) 2 ++ (field data (130 + numLen data + 8 + 8 + 2) (extraLen data) ++
      (field data (130 + numLen data + 8 + 8 + 2 + extraLen data) 32 ++ (putUint16 (natBytes (beNat (field data
        (130 + numLen data + 8 + 8 + 2 + extraLen data + 32 + 2) (diffLen data)))).length ++
      natBytes (beNat (field data (130 + numLen data + 8 + 8 + 2 + extraLen data + 32 + 2) (diffLen data))))))))))))))
      := by
  have hcopy : ∀ lo, lo + 32 ≤ data.length →
      (FixedBytes.copy 32 (field data lo 32)).bytes = field data lo 32 := fun lo hlo =>
    FixedBytes.copy_bytes (field_length hlo)
  have hextra : putUint16 (field data (130 + numLen data + 8 + 8 + 2) (extraLen data)).length
      = field data (130 + numLen data + 8 + 8) 2 := by
    rw [field_length (by omega)]
    exact putUint16_beNat (field_length (by omega))
  simp only [dseBytes, fieldsHeader, optBytes, bigBytes_setBytes, padAddressTo32_bytes, unpadAddressFrom32_bytes]
  rw [hcopy 0 (by omega), hcopy 32 (by omega), hcopy 64 (by omega), hcopy 96 (by omega),
    hcopy _ (by omega), hextra, putUint64_uint64 (field_length (by omega)),
    putUint64_uint64 (field_length (by omega))]

theorem dseBytes_of_canonical (hc : DseCanonical data) : dseBytes (fieldsHeader data) = data := by
  have hpad : replicate 12 0 ++ (field data 32 32).drop 12 = field data 32 32 := by
    rw [← hc.padding]
    have htake : field data 32 12 = (field data 32 32).take 12 := by simp [field, take_take]
    rw [htake, take_append_drop]
  have hnum : putUint16 (field data 130 (numLen data)).length = field data 128 2 := by
    rw [field_length (by omega)]
    exact putUint16_beNat (field_length (by omega))
  have hdif : putUint16 (field data (130 + numLen data + 8 + 8 + 2 + extraLen data + 32 + 2) (diffLen data)).length
      = field data (130 + numLen data + 8 + 8 + 2 + extraLen data + 32) 2 := by
    rw [field_length (by omega)]
    exact putUint16_beNat (field_length (by omega))
  rw [dseBytes_fieldsHeader hlen, hpad, natBytes_beNat hc.number, natBytes_beNat hc.difficulty, hnum, hdif]
  have hend : field data (130 + numLen data + 8 + 8 + 2 + extraLen data + 32 + 2) (diffLen data)
      = data.drop (130 + numLen data + 8 + 8 + 2 + extraLen data + 32 + 2) := by
    have hnil : data.drop (130 + numLen data + 8 + 8 + 2 + extraLen data + 32 + 2 + diffLen data)
        = [] := drop_eq_nil_of_le (by have := hc.ending; omega)
    rw [← field_append_drop data _ (diffLen data), hnil, append_nil]
  rw [hend]
  have g := field_append_drop data
  rw [g, g, g, g, g, g, g]
  have g1 : field data 128 2 ++ data.drop 130 = data.drop 128 := g 128 2
  have g2 : field data 96 32 ++ data.drop 128 = data.drop 96 := g 96 32
  have g3 : field data 64 32 ++ data.drop 96 = data.drop 64 := g 64 32
  have g4 : field data 32 32 ++ data.drop 64 = data.drop 32 := g 32 32
  have g5 : field data 0 32 ++ data.drop 32 = data := g 0 32
  rw [g1, g2, g3, g4, g5]

/-- An encoding is canonical: its layout is the one the encoder wrote. -/
theorem canonical_of_dseBytes (heq : dseBytes (fieldsHeader data) = data) : DseCanonical data := by
  obtain ⟨hn, he, hd, -⟩ := fieldsHeader_dseBytes (fieldsHeader_nonNeg data) (fieldsHeader_fits hlen)
  have hpad := field_dseBytes_padding (fieldsHeader data)
  have htotal := dseBytes_length (fieldsHeader data)
  rw [heq] at hn he hd hpad htotal
  refine ⟨hpad, ?_, ?_, by omega⟩
  · intro hz
    have hlt := natBytes_beNat_length_lt hz
    rw [field_length (by omega)] at hlt
    exact absurd hn (Nat.ne_of_gt hlt)
  · intro hz
    have hlt := natBytes_beNat_length_lt hz
    rw [field_length (by omega)] at hlt
    exact absurd hd (Nat.ne_of_gt hlt)

end

/-- **An accepted byte string is the encoding of its header exactly when it is canonical**, and
canonical byte strings with one header are one byte string. -/
theorem dseEncode_decode_iff {data : Bytes} {h : Header} (hd : dseDecodeHeader data = .ok (.ok h)) :
    (dseEncodeHeader (some h) = .ok (.ok data) ↔ DseCanonical data) ∧
      ∀ data', dseDecodeHeader data' = .ok (.ok h) → DseCanonical data → DseCanonical data' →
        data = data' := by
  obtain ⟨hlen, rfl⟩ := dseDecodeHeader_accepts hd
  refine ⟨?_, ?_⟩
  · rw [dseEncodeHeader_eq (fieldsHeader_nonNeg data)]
    simp only [Except.ok.injEq]
    exact ⟨canonical_of_dseBytes hlen, dseBytes_of_canonical hlen⟩
  · intro data' hd' hc hc'
    obtain ⟨hlen', heq⟩ := dseDecodeHeader_accepts hd'
    rw [← dseBytes_of_canonical hlen hc, heq, dseBytes_of_canonical hlen' hc']

/-- The encoding of block 1 at difficulty 1, followed by one more byte. -/
def trailingByte : Bytes :=
  dseBytes { Header.zero with number := some 1, difficulty := some 1 } ++ [0]

/-- The decoder accepts the trailing byte, and the encoder does not write it. -/
theorem dseDecode_trailing : ¬ ∀ data h, dseDecodeHeader data = .ok (.ok h) →
    dseEncodeHeader (some h) = .ok (.ok data) := by
  intro hall
  have henc := hall trailingByte { Header.zero with number := some 1, difficulty := some 1 }
    (by decide +kernel)
  exact absurd henc (by decide +kernel)

/-- Without that byte the data is canonical, and comes back from the encoder. -/
theorem dseEncode_decode_block_one : dseEncodeHeader (some { Header.zero with number := some 1, difficulty := some 1 })
      = .ok (.ok (dseBytes { Header.zero with number := some 1, difficulty := some 1 })) :=
  (dseEncode_decode_iff (by decide +kernel)).1.mpr
    ⟨by decide +kernel, by decide +kernel, by decide +kernel, by decide +kernel⟩

/-! ## Two headers, one encoding -/

/-- What the format promises of two headers: a field too long for its prefix is refused, and
equal encodings come from equal headers. -/
structure DseFaithful (h₁ h₂ : Header) : Prop where
  injective : ∀ data, dseEncodeHeader (some h₁) = .ok (.ok data) →
    dseEncodeHeader (some h₂) = .ok (.ok data) → h₁ = h₂
  refusesLeft : ¬ h₁.Fits → ∀ data, dseEncodeHeader (some h₁) ≠ .ok (.ok data)
  refusesRight : ¬ h₂.Fits → ∀ data, dseEncodeHeader (some h₂) ≠ .ok (.ok data)

/-- Headers that fit are read back from their encodings, so equal encodings are equal headers. -/
theorem dseBytes_injective {h₁ h₂ : Header} (hh₁ : h₁.NonNeg) (hh₂ : h₂.NonNeg) (hf₁ : h₁.Fits)
    (hf₂ : h₂.Fits) (he : dseBytes h₁ = dseBytes h₂) : h₁ = h₂ := by
  rw [← (fieldsHeader_dseBytes hh₁ hf₁).2.2.2, he, (fieldsHeader_dseBytes hh₂ hf₂).2.2.2]

/-- **The encoder keeps its promise on exactly the headers whose open fields fit.** It refuses
nothing, so a longer field is written under a length that has wrapped. -/
theorem dseFaithful_iff {h₁ h₂ : Header} (hh₁ : h₁.NonNeg) (hh₂ : h₂.NonNeg) :
    DseFaithful h₁ h₂ ↔ h₁.Fits ∧ h₂.Fits := by
  constructor
  · intro hf
    constructor
    · by_contra hlong
      exact hf.refusesLeft hlong _ (dseEncodeHeader_eq hh₁)
    · by_contra hlong
      exact hf.refusesRight hlong _ (dseEncodeHeader_eq hh₂)
  · rintro ⟨hf₁, hf₂⟩
    refine ⟨fun data he₁ he₂ => ?_, fun hlong => absurd hf₁ hlong, fun hlong => absurd hf₂ hlong⟩
    rw [dseEncodeHeader_eq hh₁] at he₁
    rw [dseEncodeHeader_eq hh₂] at he₂
    simp only [Except.ok.injEq] at he₁ he₂
    exact dseBytes_injective hh₁ hh₂ hf₁ hf₂ (he₁.trans he₂.symm)

theorem dseFaithful_genesis_block_one :
    DseFaithful genesisHeader { Header.zero with number := some 1, difficulty := some 1 } :=
  (dseFaithful_iff ⟨⟨0, rfl⟩, ⟨1, rfl⟩⟩ ⟨⟨1, rfl⟩, ⟨1, rfl⟩⟩).mpr
    ⟨⟨by decide, by decide, by decide⟩, ⟨by decide, by decide, by decide⟩⟩

/-- A power of 256 is a one followed by zero bytes. -/
theorem natBytes_pow (k : Nat) : natBytes (256 ^ k) = 1 :: replicate k 0 := by
  have hval : beNat (1 :: replicate k 0) = 256 ^ k := by
    rw [beNat_cons, beNat_replicate_zero, length_replicate]
    simp
  rw [← hval]
  exact natBytes_beNat (by simp)

/-- 65536 bytes of `Extra`, whose length wraps to zero: 34 zeros, a one, and zeros again. -/
def longExtraHeader : Header :=
  { Header.zero with
    number := some 0
    extra := replicate 34 0 ++ 1 :: replicate 65501 0
    difficulty := some 0 }

theorem longExtraHeader_extra_length : longExtraHeader.extra.length = 65536 := by
  have hlen : ∀ k, (replicate 34 (0 : UInt8) ++ 1 :: replicate k 0).length = k + 35 :=
    fun k => by simp
  exact hlen 65501

/-- No `Extra`, and 65536 bytes of `Difficulty`, whose length wraps to zero as well. -/
def longDifficultyHeader : Header :=
  { Header.zero with
    number := some 0
    difficulty := some ((256 ^ 65535 : Nat) : Int) }

/-- The bytes behind the length of `Extra`, in the two headers. -/
theorem long_tails (k : Nat) : (replicate 34 (0 : UInt8) ++ 1 :: replicate k 0) ++ (replicate 32 0 ++ replicate 2 0)
      = replicate 32 0 ++ (replicate 2 0 ++ 1 :: replicate (k + 34) 0) := by
  simp only [← append_assoc, replicate_append_replicate]
  rw [append_assoc, cons_append, replicate_append_replicate]

theorem dseBytes_long : dseBytes longExtraHeader = dseBytes longDifficultyHeader := by
  have hzero : optBytes (some 0) = [] := (optBytes_some_nat 0).trans natBytes_zero
  have hdiff : optBytes longDifficultyHeader.difficulty = 1 :: replicate 65535 0 :=
    (optBytes_some_nat _).trans (natBytes_pow 65535)
  have hwrap : putUint16 65536 = replicate 2 0 := by decide
  have hnone : putUint16 0 = replicate 2 0 := by decide
  unfold dseBytes
  rw [longExtraHeader_extra_length, hdiff, length_cons, length_replicate]
  simp only [longExtraHeader, longDifficultyHeader, hzero, length_nil, hwrap, hnone, append_nil]
  refine congrArg _ (congrArg _ (congrArg _ (congrArg _ (congrArg _ (congrArg _ (congrArg _
    (congrArg _ (congrArg _ ?_))))))))
  exact long_tails 65501

/-- **Two headers, one DSE encoding**: a length prefix that has wrapped in `Extra` is made up
for by one that has wrapped in `Difficulty`. -/
theorem dseEncode_collision : ¬ ∀ h₁ h₂ : Header, h₁.NonNeg → h₂.NonNeg → ∀ data,
    dseEncodeHeader (some h₁) = .ok (.ok data) → dseEncodeHeader (some h₂) = .ok (.ok data) →
    h₁ = h₂ := by
  intro hall
  have hh₁ : longExtraHeader.NonNeg := ⟨⟨0, rfl⟩, ⟨0, rfl⟩⟩
  have hh₂ : longDifficultyHeader.NonNeg := ⟨⟨0, rfl⟩, ⟨_, rfl⟩⟩
  have hsame := hall _ _ hh₁ hh₂ _ (dseEncodeHeader_eq hh₁)
    (by rw [dseEncodeHeader_eq hh₂, dseBytes_long])
  have hextra := longExtraHeader_extra_length
  rw [hsame] at hextra
  exact absurd (show (0 : Nat) = 65536 from hextra) (by decide)

end NogoCommons.Nogopow
