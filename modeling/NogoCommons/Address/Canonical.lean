import NogoCommons.Address.Address

/-!
# One spelling for each witness address

`decodeSegWit_eq_ok` says which strings are decoded as a version 0 or 1 and a program: those that the two are written as,
with the checksum for that version (`spelled`). An address is written with the version of its type, so it comes back as the
string it was decoded from if its type has the version of the string. That fails for one kind of string, a program of 20
bytes under version 1 (`MisreadVersion`), which is decoded as the address of another string (`canonical_iff`).
-/

namespace NogoCommons.Addresses
open Lib List
open Bech32
open Chaincfg
open Nogoec

/-! ## Strings of witness programs -/

/-- The program in groups of five bits. -/
def fiveBits (program : Bytes) : Bytes :=
  match convertBits program 8 5 true with
  | .ok data => data
  | .error _ => []

theorem convertBits_eq_fiveBits (program : Bytes) : convertBits program 8 5 true = .ok (fiveBits program) := by
  obtain ⟨data, hdata, -⟩ : ∃ data, convertBits program 8 5 true = .ok data ∧ _ :=
    exists_convertBits_pad (by decide) (by decide) program
  rw [fiveBits, hdata]

theorem digits_iff_fits {data : Bytes} : Digits data ↔ Fits 5 data :=
  forall₂_congr fun _ _ => UInt8.lt_iff_toNat_lt

theorem digits_fiveBits (program : Bytes) : Digits (fiveBits program) :=
  digits_iff_fits.mpr (convertBits_five_eight.mp (convertBits_eq_fiveBits program)).1

theorem length_fiveBits_le (program : Bytes) : 5 * (fiveBits program).length < 8 * program.length + 5 := by
  obtain ⟨-, r, hr, hbits⟩ := (convertBits_pad (by decide) (by decide)).mp (convertBits_eq_fiveBits program)
  have hlen := congrArg length hbits
  simp only [length_append, length_bitsOf, length_replicate] at hlen
  omega

/-- The checksum for a witness version. -/
def versionFor (witnessVersion : UInt8) : Version := if witnessVersion = 0 then .version0 else .versionM

/-- How a version and a program are written. -/
def spelled (hrp : Bytes) (witnessVersion : UInt8) (program : Bytes) : Bytes :=
  written hrp (witnessVersion :: fiveBits program) (versionFor witnessVersion)

/-- A program of a length that is allowed. -/
structure ProgramFits (witnessVersion : UInt8) (program : Bytes) : Prop where
  two_le : 2 ≤ program.length
  le_forty : program.length ≤ 40
  version0 : witnessVersion = 0 → program.length = 20 ∨ program.length = 32

variable {s hrp program : Bytes} {v : UInt8}

theorem digits_combined (hv : v = 0 ∨ v = 1) (program : Bytes) : Digits (v :: fiveBits program) := by
  have hlt : v < 32 := by rcases hv with rfl | rfl <;> decide
  exact forall_mem_cons.mpr ⟨hlt, digits_fiveBits program⟩

theorem decodeSegWit_eq_ok (hv : v = 0 ∨ v = 1) : decodeSegWitAddress s = .ok (v, program) ↔
      s.length ≤ 90 ∧ OneCase s ∧ ProgramFits v program ∧ ∃ hrp, hrp ≠ [] ∧ toLower s = spelled hrp v program := by
  rw [decodeSegWitAddress]
  constructor
  · intro h
    cases hdec : decodeGeneric s with
    | error e =>
      rw [hdec] at h
      cases h
    | ok r =>
      obtain ⟨hrp, data, version⟩ := r
      rw [hdec] at h
      obtain ⟨hlen, hone, hhrp, hdigits, hlower⟩ := decodeGeneric_eq_ok.mp hdec
      cases data with
      | nil => cases h
      | cons v' data =>
        dsimp only at h
        cases hconv : convertBits data 5 8 false with
        | error e =>
          rw [hconv] at h
          dsimp only at h
          split_ifs at h
        | ok regrouped =>
          rw [hconv] at h
          dsimp only at h
          split_ifs at h with hbig hrange hzero hchk hchkM
          obtain ⟨rfl, rfl⟩ := Prod.mk.inj (Except.ok.inj h)
          -- the program gives the digits back
          have hfive : fiveBits regrouped = data := by
            have hback := convertBits_five_eight.mpr
              ⟨digits_iff_fits.mp (forall_mem_cons.mp hdigits).2, hconv⟩
            exact Except.ok.inj ((convertBits_eq_fiveBits regrouped).symm.trans hback)
          have hversion : version = versionFor v' := by
            rcases hv with rfl | rfl
            · exact not_not.mp fun hne => hchk ⟨rfl, hne⟩
            · exact not_not.mp fun hne => hchkM ⟨rfl, hne⟩
          refine ⟨hlen, hone, ⟨by omega, by omega, ?_⟩, hrp, hhrp, by rw [spelled, hfive, ← hversion, hlower]⟩
          intro h0
          by_contra hnot
          exact hzero ⟨h0, not_or.mp hnot⟩
  · rintro ⟨hlen, hone, hfits, hrp, hhrp, hlower⟩
    have hdec := decodeGeneric_eq_ok.mpr ⟨hlen, hone, hhrp, digits_combined hv program, hlower⟩
    have hconv := (convertBits_five_eight.mp (convertBits_eq_fiveBits program)).2
    have htwo := hfits.two_le
    have hforty := hfits.le_forty
    have hsmall : ¬ 16 < v := by rcases hv with rfl | rfl <;> decide
    rw [hdec]
    dsimp only
    rw [if_neg hsmall, hconv]
    dsimp only
    rw [if_neg (by omega), if_neg, if_neg, if_neg]
    · rintro ⟨rfl, hne⟩
      exact hne rfl
    · rintro ⟨rfl, hne⟩
      exact hne rfl
    · rintro ⟨h0, h20, h32⟩
      rcases hfits.version0 h0 with h | h
      · exact h20 h
      · exact h32 h

/-- A prefix in lower case, of the length that prefixes have. -/
structure PlainHrp (hrp : Bytes) : Prop where
  ne_nil : hrp ≠ []
  plain : ∀ c ∈ hrp, Plain c
  short : hrp.length ≤ 10

theorem spelled_plain (hhrp : PlainHrp hrp) (hv : v = 0 ∨ v = 1) : ∀ c ∈ spelled hrp v program, Plain c :=
  written_plain hhrp.plain (digits_combined hv program)

theorem length_spelled_le (hhrp : PlainHrp hrp) (hfits : ProgramFits v program) :
    (spelled hrp v program).length ≤ 90 := by
  have hfive := length_fiveBits_le program
  have hforty := hfits.le_forty
  have hshort := hhrp.short
  rw [spelled, length_written, length_cons]
  omega

theorem decodeSegWit_spelled (hhrp : PlainHrp hrp) (hv : v = 0 ∨ v = 1) (hfits : ProgramFits v program) :
    decodeSegWitAddress (spelled hrp v program) = .ok (v, program) :=
  have hplain := spelled_plain hhrp hv
  (decodeSegWit_eq_ok hv).mpr ⟨length_spelled_le hhrp hfits, oneCase_of_plain hplain, hfits, hrp, hhrp.ne_nil,
    toLower_of_plain hplain⟩

/-- The check at the end of `encodeSegWitAddress` never fails. -/
theorem encodeSegWit_eq (hhrp : PlainHrp hrp) (hv : v = 0 ∨ v = 1) (hfits : ProgramFits v program) :
    encodeSegWitAddress hrp v program = .ok (spelled hrp v program) := by
  have hlower := toLower_of_plain hhrp.plain
  have hwrite : encodeGeneric hrp (v :: fiveBits program) (versionFor v) = .ok (spelled hrp v program) :=
    (encodeGeneric_eq (digits_combined hv program)).trans (by rw [hlower]; rfl)
  rw [encodeSegWitAddress, convertBits_eq_fiveBits]
  dsimp only
  have hcheck : checkedSegWit v program (spelled hrp v program) = .ok (spelled hrp v program) := by
    rw [checkedSegWit, decodeSegWit_spelled hhrp hv hfits]
    dsimp only
    rw [if_neg (by simp)]
  rcases hv with rfl | rfl
  · have hencode : encode hrp (0 :: fiveBits program) = .ok (spelled hrp 0 program) := hwrite
    rwa [if_pos rfl, hencode]
  · have hencode : encodeM hrp (1 :: fiveBits program) = .ok (spelled hrp 1 program) := hwrite
    rwa [if_neg (by decide), if_pos rfl, hencode]

theorem spelled_injective {program' : Bytes} {v' : UInt8} (hv : v < 32) (hv' : v' < 32)
    (h : spelled hrp v program = spelled hrp v' program') : v = v' := by
  have htail := (List.cons.inj (append_cancel_left h)).2
  have hchar : charOf v = charOf v' := (List.cons.inj htail).1
  have hidx := congrArg charset.idxOf? hchar
  rw [idxOf_charOf hv, idxOf_charOf hv'] at hidx
  exact UInt8.toNat_inj.mp (Option.some.inj hidx)

/-! ## Strings of witness addresses -/

section
variable {pkg : Secp256k1} {hashes : Hashes} {net : Params} {a : Address pkg}

theorem known_plain : ∀ hrp ∈ knownBech32Prefixes, PlainHrp hrp := by
  intro hrp hhrp
  have hall : ∀ hrp ∈ knownBech32Prefixes, hrp ≠ [] ∧ (∀ c ∈ hrp, Plain c) ∧ hrp.length ≤ 10 := by
    decide +kernel
  exact ⟨(hall hrp hhrp).1, (hall hrp hhrp).2.1, (hall hrp hhrp).2.2⟩

theorem known_length : ∀ hrp ∈ knownBech32Prefixes, hrp.length = 2 := by decide
theorem known_isLower : ∀ hrp ∈ knownBech32Prefixes, ∃ c ∈ hrp, isLower c = true := by decide

theorem isBech32SegwitPrefix_iff {hrpOne : Bytes} : isBech32SegwitPrefix hrpOne = true ↔
    hrpOne.dropLast ∈ knownBech32Prefixes := contains_iff_mem

theorem dropLast_take_succ {i : Nat} (h : i < s.length) : (s.take (i + 1)).dropLast = s.take i := by
  rw [dropLast_eq_take, length_take_of_le h, take_take]
  exact congrArg (fun n => s.take n) (Nat.min_eq_left (Nat.le_succ i))

theorem decodeHash_not_witness (h : decodeHash pkg hashes s net = .ok a) : a.type.isWitness = false := by
  rw [decodeHash] at h
  cases hdec : Base58.checkDecode hashes.sha256 s with
  | error e =>
    rw [hdec] at h
    cases e <;> cases h
  | ok r =>
    rw [hdec] at h
    dsimp only [newAddressPubKeyHash, newAddressScriptHashFromHash] at h
    split_ifs at h <;> (obtain rfl := Except.ok.inj h; rfl)

theorem decodeOther_not_witness (h : decodeOther pkg hashes s net = .ok a) : a.type.isWitness = false := by
  rw [decodeOther] at h
  split_ifs at h with hlen
  · cases hhex : hexDecode s with
    | error e =>
      rw [hhex] at h
      cases h
    | ok key =>
      rw [hhex] at h
      dsimp only [newAddressPubKey] at h
      cases hkey : pkg.parsePubKey key with
      | error e =>
        rw [hkey] at h
        cases h
      | ok pubKey =>
        rw [hkey] at h
        cases h
        rfl
  · exact decodeHash_not_witness h

/-- A string of a known prefix is decoded as its version and program. -/
theorem decodeAddress_spelled (hhrp : hrp ∈ knownBech32Prefixes) (hv : v = 0 ∨ v = 1) (hfits : ProgramFits v program)
    (net : Params) : decodeAddress pkg hashes (spelled hrp v program) net = witnessAddress pkg hrp v program := by
  have hone : lastIndexByte (spelled hrp v program) separator = some hrp.length :=
    lastIndexByte_written (digits_combined hv program)
  have htake : ((spelled hrp v program).take (hrp.length + 1)).dropLast = hrp := by
    rw [dropLast_take_succ (by rw [spelled, length_written]; omega)]
    exact take_left
  have hlen := known_length hrp hhrp
  rw [decodeAddress, hone]
  dsimp only
  rw [if_pos ⟨by omega, isBech32SegwitPrefix_iff.mpr (by rw [htake]; exact hhrp)⟩, htake, decodeWitness,
    decodeSegWit_spelled (known_plain hrp hhrp) hv hfits]

/-- There is no witness address but for such a string. -/
theorem spelled_of_decodeAddress (h : decodeAddress pkg hashes s net = .ok a) (hwitness : a.type.isWitness = true) :
    ∃ hrp ∈ knownBech32Prefixes, ∃ v program, (v = 0 ∨ v = 1) ∧ ProgramFits v program ∧ s = spelled hrp v program ∧
      witnessAddress pkg hrp v program = .ok a := by
  have hother : decodeOther pkg hashes s net ≠ .ok a := by
    intro hdec
    rw [decodeOther_not_witness hdec] at hwitness
    cases hwitness
  rw [decodeAddress] at h
  cases hone : lastIndexByte s separator with
  | none =>
    rw [hone] at h
    exact absurd h hother
  | some i =>
    rw [hone] at h
    dsimp only at h
    split_ifs at h with hknown
    · obtain ⟨-, hprefix⟩ := hknown
      obtain ⟨rest, hs, hlt, -⟩ := lastIndexByte_eq_some.mp hone
      have htake := dropLast_take_succ hlt
      have hmem := isBech32SegwitPrefix_iff.mp hprefix
      rw [htake] at hmem h
      rw [decodeWitness] at h
      cases hdec : decodeSegWitAddress s with
      | error e =>
        rw [hdec] at h
        cases h
      | ok r =>
        obtain ⟨v, program⟩ := r
        rw [hdec] at h
        dsimp only at h
        have hv : v = 0 ∨ v = 1 := by
          by_contra hnot
          rw [witnessAddress, if_pos (not_or.mp hnot)] at h
          cases h
        obtain ⟨-, hcase, hfits, hrp, -, hlower⟩ := (decodeSegWit_eq_ok hv).mp hdec
        -- the prefix is in lower case, so all of the string is
        have hself : toLower s = s := by
          obtain ⟨c, hc, hclower⟩ := known_isLower _ hmem
          rcases hcase.2 with hupper | hnone
          · exact toLower_eq_self hupper
          · rw [hnone c (mem_of_mem_take hc)] at hclower
            cases hclower
        rw [hself] at hlower
        have hhrp : s.take i = hrp := by
          rw [hlower, spelled, lastIndexByte_written (digits_combined hv program)] at hone
          cases hone
          rw [hlower]
          exact take_left
        rw [hhrp] at hmem h
        exact ⟨hrp, hmem, v, program, hv, hfits, hlower, h⟩
    · exact absurd h hother

variable (hashes) in
/-- An address is written with the version of its type. -/
theorem encodeAddress_of_witnessAddress (hhrp : PlainHrp hrp) (hv : v = 0 ∨ v = 1)
    (hfits : ProgramFits v program) (h : witnessAddress pkg hrp v program = .ok a) :
    a.type.isWitness = true ∧ a.encodeAddress hashes = spelled hrp (if program.length = 20 then 0 else v) program := by
  have hlower := toLower_of_plain hhrp.plain
  rw [witnessAddress, if_neg (by rcases hv with rfl | rfl <;> decide)] at h
  dsimp only [newAddressPayToAnchor, newAddressWitnessPubKeyHash, newAddressWitnessScriptHash, newAddressTaproot] at h
  rw [hlower] at h
  split_ifs at h with h2 hanchor h20 _ h32 hv1
  · cases h
    obtain ⟨rfl, rfl⟩ := hanchor
    refine ⟨rfl, ?_⟩
    show orEmpty (encodeSegWitAddress hrp 1 payToAnchorWitnessProgram) = _
    rw [payToAnchorWitnessProgram, encodeSegWit_eq hhrp hv hfits]
    rfl
  · cases h
    refine ⟨rfl, ?_⟩
    have hfits0 : ProgramFits 0 program := ⟨hfits.two_le, hfits.le_forty, fun _ => .inl h20⟩
    show orEmpty (encodeSegWitAddress hrp 0 program) = _
    rw [encodeSegWit_eq hhrp (.inl rfl) hfits0, if_pos h20]
    rfl
  · cases h
    subst hv1
    refine ⟨rfl, ?_⟩
    show orEmpty (encodeSegWitAddress hrp 1 program) = _
    rw [encodeSegWit_eq hhrp hv hfits, if_neg h20]
    rfl
  · cases h
    obtain rfl : v = 0 := hv.resolve_right hv1
    refine ⟨rfl, ?_⟩
    show orEmpty (encodeSegWitAddress hrp 0 program) = _
    rw [encodeSegWit_eq hhrp hv hfits, if_neg h20]
    rfl

/-! ## The version that is lost -/

variable (pkg hashes)

/-- A witness address is encoded as the string it was decoded from. -/
def Canonical (s : Bytes) (net : Params) : Prop :=
  ∀ a, decodeAddress pkg hashes s net = .ok a → a.type.isWitness = true → a.encodeAddress hashes = toLower s

/-- A program of 20 bytes under version 1, with a known prefix. -/
def MisreadVersion (s : Bytes) : Prop :=
  ∃ hrp ∈ knownBech32Prefixes, ∃ program : Bytes, program.length = 20 ∧ s = spelled hrp 1 program

variable {pkg hashes}

theorem canonical_of_not_misread (h : ¬ MisreadVersion s) (net : Params) : Canonical pkg hashes s net := by
  intro a hdec hwitness
  obtain ⟨hrp, hhrp, v, program, hv, hfits, rfl, haddr⟩ := spelled_of_decodeAddress hdec hwitness
  have hplain := known_plain hrp hhrp
  rw [(encodeAddress_of_witnessAddress hashes hplain hv hfits haddr).2, toLower_of_plain (spelled_plain hplain hv)]
  split_ifs with h20
  · rcases hv with rfl | rfl
    · rfl
    · exact absurd ⟨hrp, hhrp, program, h20, rfl⟩ h
  · rfl

variable (pkg hashes) in
/-- The address that a program of 20 bytes becomes, whatever the version. -/
theorem decodeAddress_twenty (hhrp : hrp ∈ knownBech32Prefixes) (hv : v = 0 ∨ v = 1) (h20 : program.length = 20)
    (net : Params) :
    decodeAddress pkg hashes (spelled hrp v program) net = .ok (.witnessPubKeyHash ⟨hrp, 0, program⟩) ∧
      (Address.witnessPubKeyHash ⟨hrp, 0, program⟩ : Address pkg).encodeAddress hashes = spelled hrp 0 program := by
  have hplain := known_plain hrp hhrp
  have hfits : ProgramFits v program := ⟨by omega, by omega, fun _ => .inl h20⟩
  have haddr : witnessAddress pkg hrp v program = .ok (.witnessPubKeyHash ⟨hrp, 0, program⟩) := by
    rw [witnessAddress, if_neg (by rcases hv with rfl | rfl <;> decide), if_neg (by omega), if_pos h20,
      newAddressWitnessPubKeyHash, if_neg (not_not.mpr h20), toLower_of_plain hplain.plain]
  refine ⟨(decodeAddress_spelled hhrp hv hfits net).trans haddr, ?_⟩
  rw [(encodeAddress_of_witnessAddress hashes hplain hv hfits haddr).2, if_pos h20]

theorem not_canonical_of_misread (h : MisreadVersion s) (net : Params) : ¬ Canonical pkg hashes s net := by
  intro hcan
  obtain ⟨hrp, hhrp, program, h20, rfl⟩ := h
  obtain ⟨hdec, hencode⟩ := decodeAddress_twenty pkg hashes hhrp (.inr rfl) h20 net
  have heq := hcan _ hdec rfl
  rw [hencode, toLower_of_plain (spelled_plain (known_plain hrp hhrp) (.inr rfl))] at heq
  exact absurd (spelled_injective (by decide) (by decide) heq) (by decide)

/-- A witness address is one string, unless the version is misread. -/
theorem canonical_iff_not_misread : (∀ s net, Canonical pkg hashes s net ↔ ¬ MisreadVersion s) ∧
      ∀ s s' net net' a, decodeAddress pkg hashes s net = .ok a → decodeAddress pkg hashes s' net' = .ok a →
        a.type.isWitness = true → ¬ MisreadVersion s → ¬ MisreadVersion s' → toLower s = toLower s' := by
  constructor
  · intro s net
    exact ⟨fun hcan hmis => not_canonical_of_misread hmis net hcan, fun h => canonical_of_not_misread h net⟩
  · intro s s' net net' a hdec hdec' hwitness hs hs'
    rw [← canonical_of_not_misread hs net a hdec hwitness, canonical_of_not_misread hs' net' a hdec' hwitness]

end

theorem canonical_iff_not_misread_zero :
    Canonical discreteLogs ⟨fun _ => FixedBytes.zero 32, fun _ => FixedBytes.zero 20⟩
      (ascii "nc1qqqqqqqqqqqqqqqqqqqqqqqqqqqqqqqqqz4pnrn") mainNetParams := by
  apply (canonical_iff_not_misread.1 ..).mpr
  rintro ⟨hrp, hhrp, program, -, heq⟩
  -- the character after the separator is that of version 0
  have htake := congrArg (take 4) heq
  rcases mem_cons.mp hhrp with rfl | hhrp
  · cases htake
  · obtain rfl := mem_singleton.mp hhrp
    cases htake

/-- A string under version 1 is decoded as the address of a string under version 0. -/
theorem version_one_misread :
    let hashes : Hashes := ⟨fun _ => FixedBytes.zero 32, fun _ => FixedBytes.zero 20⟩
    let s := ascii "nc1pqqqqqqqqqqqqqqqqqqqqqqqqqqqqqqqquhx5t6"
    let s' := ascii "nc1qqqqqqqqqqqqqqqqqqqqqqqqqqqqqqqqqz4pnrn"
    let a : Address discreteLogs := .witnessPubKeyHash ⟨ascii "nc", 0, replicate 20 0⟩
    decodeAddress discreteLogs hashes s mainNetParams = .ok a ∧ decodeAddress discreteLogs hashes s' mainNetParams = .ok a ∧
      a.encodeAddress hashes = s' ∧ ¬ Canonical discreteLogs hashes s mainNetParams := by
  intro hashes s s' a
  have hs : s = spelled (ascii "nc") 1 (replicate 20 0) := by decide +kernel
  have hs' : s' = spelled (ascii "nc") 0 (replicate 20 0) := by decide +kernel
  have hknown : ascii "nc" ∈ knownBech32Prefixes := by decide
  obtain ⟨hdec, hencode⟩ := decodeAddress_twenty discreteLogs hashes hknown (.inr rfl)
    (length_replicate (n := 20) (a := 0)) mainNetParams
  obtain ⟨hdec', -⟩ := decodeAddress_twenty discreteLogs hashes hknown (.inl rfl)
    (length_replicate (n := 20) (a := 0)) mainNetParams
  rw [hs, hs']
  exact ⟨hdec, hdec', hencode, not_canonical_of_misread ⟨_, hknown, _, length_replicate, rfl⟩ _⟩

end NogoCommons.Addresses
