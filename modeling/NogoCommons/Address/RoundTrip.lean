import NogoCommons.Address.Canonical

/-!
# Addresses of the networks

An address in base 58 has the version byte of its network in front, which decides what its first two characters can be; they
are never one of the known prefixes, so such a string is not taken for a witness address, and comes back
(`decodeAddress_base58`). A witness address comes back if the prefix of its network is known, and in upper case it never
does, because the table has prefixes in lower case only (`roundTrips_iff`).
-/

namespace NogoCommons.Addresses
open Lib List
open Bech32
open Chaincfg
open Nogoec
variable {pkg : Secp256k1} {hashes : Hashes}

/-! ## Addresses in base 58 -/

/-- A string that does not start with a known prefix. -/
def NoKnownPrefix (s : Bytes) : Prop := s.take 2 ∉ knownBech32Prefixes

theorem decodeAddress_eq_decodeHash {s : Bytes} (hstart : NoKnownPrefix s) (hlen : s.length < 66) (net : Params) :
    decodeAddress pkg hashes s net = decodeHash pkg hashes s net := by
  have hother : decodeOther pkg hashes s net = decodeHash pkg hashes s net := if_neg (by omega)
  rw [decodeAddress]
  cases hone : lastIndexByte s separator with
  | none => exact hother
  | some i =>
    obtain ⟨rest, -, hlt, -⟩ := lastIndexByte_eq_some.mp hone
    dsimp only
    rw [if_neg, hother]
    rintro ⟨-, hknown⟩
    have hmem := isBech32SegwitPrefix_iff.mp hknown
    rw [dropLast_take_succ hlt] at hmem
    have htwo := known_length _ hmem
    rw [length_take_of_le hlt.le] at htwo
    rw [htwo] at hmem
    exact hstart hmem

/-- The number that two characters stand for. -/
def codeOf (s : Bytes) : Nat := horner 58 (s.map fun c => (Base58.b58 c).toNat)
theorem codeOf_known : ∀ hrp ∈ knownBech32Prefixes, 2645 ≤ codeOf hrp := by decide

theorem codeOf_places {c : Nat} (h : c < 58 ^ 2) : codeOf ((places 58 2 c).map Base58.alphabetAt) = c := by
  have hback : ((places 58 2 c).map Base58.alphabetAt).map (fun c => (Base58.b58 c).toNat) = places 58 2 c := by
    rw [map_map]
    refine (map_congr_left fun d hd => ?_).trans (map_id _)
    exact (Base58.b58_alphabetAt d (places_lt (by decide) 2 c d hd)).1
  rw [codeOf, hback, horner_places, Nat.mod_eq_of_lt h]

variable {id : UInt8}

/-- The first two digits are below those of the prefixes, if the version byte is. -/
theorem noKnownPrefix_of_version {rest : Bytes} {m : Nat} (hrest : rest.length = 24) (hid : id ≠ 0)
    (hlow : 58 * 58 ^ m ≤ id.toNat * 256 ^ 24) (hhigh : (id.toNat + 1) * 256 ^ 24 ≤ 2645 * 58 ^ m) :
    NoKnownPrefix (Base58.encode (id :: rest)) := by
  have hnum := beNat_cons id rest
  have hrestLt := beNat_lt rest
  rw [hrest] at hnum hrestLt
  have hpos : 0 < 58 ^ m := Nat.pow_pos (by decide)
  have hle : 58 ≤ beNat (id :: rest) / 58 ^ m := (Nat.le_div_iff_mul_le hpos).mpr (by omega)
  have hlt : beNat (id :: rest) / 58 ^ m < 2645 := (Nat.div_lt_iff_lt_mul hpos).mpr (by omega)
  have htwo : beNat (id :: rest) / 58 ^ m < 58 ^ 2 := hlt.trans (by decide)
  have hzeros : ((id :: rest).takeWhile (· == 0)).length = 0 := by
    rw [takeWhile_cons, beq_false_of_ne hid]
    rfl
  intro hmem
  rw [Base58.encode_eq, hzeros, replicate_zero, nil_append, ← map_take, take_numeral (by decide) hle htwo] at hmem
  have hcode := codeOf_known _ hmem
  rw [codeOf_places htwo] at hcode
  omega

/-- The bytes that stand before the hashes. -/
def versionBytes : List UInt8 := [0x00, 0x05, 0x6f, 0xc4]

theorem noKnownPrefix_encode {rest : Bytes} (hid : id ∈ versionBytes) (hrest : rest.length = 24) :
    NoKnownPrefix (Base58.encode (id :: rest)) := by
  have hcases : id = 0 ∨ id = 5 ∨ id = 0x6f ∨ id = 0xc4 := by simpa [versionBytes] using hid
  rcases hcases with rfl | rfl | rfl | rfl
  · -- a leading zero is the first character
    intro hmem
    rw [Base58.encode_eq] at hmem
    have hall : ∀ hrp ∈ knownBech32Prefixes, hrp.head? ≠ some Base58.alphabetIdx0 := by decide
    exact hall _ hmem rfl
  · exact noKnownPrefix_of_version (m := 32) hrest (by decide) (by decide) (by decide)
  · exact noKnownPrefix_of_version (m := 32) hrest (by decide) (by decide) (by decide)
  · exact noKnownPrefix_of_version (m := 33) hrest (by decide) (by decide) (by decide)

theorem length_encode_lt {b : Bytes} (h : b.length = 25) : (Base58.encode b).length < 66 := by
  have hzeros : (b.takeWhile (· == 0)).length ≤ 25 := h ▸ (takeWhile_sublist _).length_le
  have hdigits : (Nat.digits 58 (beNat b)).length ≤ 35 := by
    rw [Nat.digits_length_le_iff (by decide)]
    have hlt := beNat_lt b
    rw [h] at hlt
    exact hlt.trans (by norm_num)
  rw [Base58.encode_eq, length_map, length_append, length_replicate, numeral, length_reverse]
  omega

/-- A hash with one of the version bytes is decoded as what it was. -/
theorem decodeAddress_base58 {hash : FixedBytes 20} (hid : id ∈ versionBytes) (net : Params) :
    decodeAddress pkg hashes (encodeAddress hashes hash id) net =
      if id == net.pubKeyHashAddrID && id == net.scriptHashAddrID then .error .addressCollision
      else if id == net.pubKeyHashAddrID then .ok (.pubKeyHash hash id)
      else if id == net.scriptHashAddrID then .ok (.scriptHash hash id)
      else .error .unknownAddressType := by
  have hrest : (hash.bytes ++ (Base58.checksum hashes.sha256 (id :: hash.bytes)).bytes).length = 24 := by simp
  have hstart : NoKnownPrefix (encodeAddress hashes hash id) := noKnownPrefix_encode hid hrest
  have hlen : (encodeAddress hashes hash id).length < 66 := length_encode_lt (congrArg Nat.succ hrest)
  rw [decodeAddress_eq_decodeHash hstart hlen, decodeHash, encodeAddress, Base58.checkDecode_checkEncode]
  dsimp only [newAddressPubKeyHash, newAddressScriptHashFromHash]
  rw [if_pos hash.length_eq, if_neg (not_not.mpr hash.length_eq), if_neg (not_not.mpr hash.length_eq),
    FixedBytes.copy_self]

/-! ## Addresses of a network -/

variable (pkg hashes) in
/-- The addresses that the constructors of the package give for a network. -/
inductive Built (net : Params) : Address pkg → Prop
  | pubKeyHash {pkHash : Bytes} {a : Address pkg}
    (h : newAddressPubKeyHash pkg pkHash net.pubKeyHashAddrID = .ok a) : Built net a
  | scriptHash {serializedScript : Bytes} {a : Address pkg}
    (h : newAddressScriptHashFromHash pkg (hash160 hashes serializedScript).bytes net.scriptHashAddrID = .ok a) :
    Built net a
  | scriptHashFromHash {scriptHash : Bytes} {a : Address pkg}
    (h : newAddressScriptHashFromHash pkg scriptHash net.scriptHashAddrID = .ok a) : Built net a
  | witnessPubKeyHash {witnessProg : Bytes} {a : Address pkg}
    (h : newAddressWitnessPubKeyHash pkg net.bech32HRPSegwit witnessProg = .ok a) : Built net a
  | witnessScriptHash {witnessProg : Bytes} {a : Address pkg}
    (h : newAddressWitnessScriptHash pkg net.bech32HRPSegwit witnessProg = .ok a) : Built net a
  | taproot {witnessProg : Bytes} {a : Address pkg}
    (h : newAddressTaproot pkg net.bech32HRPSegwit witnessProg = .ok a) : Built net a
  | payToAnchor : Built net (newAddressPayToAnchor pkg net.bech32HRPSegwit)

variable {net : Params}

/-- A hash with a version byte of the network, or a program that the decoder takes for what it is. -/
theorem Built.cases {a : Address pkg} (h : Built pkg hashes net a) :
    (∃ hash, a = .pubKeyHash hash net.pubKeyHashAddrID) ∨ (∃ hash, a = .scriptHash hash net.scriptHashAddrID) ∨
      ∃ v program, (v = 0 ∨ v = 1) ∧ ProgramFits v program ∧ (v = 1 → program.length ≠ 20) ∧
        witnessAddress pkg net.bech32HRPSegwit v program = .ok a := by
  cases h with
  | @pubKeyHash pkHash _ h =>
    rw [newAddressPubKeyHash] at h
    split_ifs at h
    exact .inl ⟨_, (Except.ok.inj h).symm⟩
  | @scriptHash script _ h =>
    rw [newAddressScriptHashFromHash] at h
    split_ifs at h
    exact .inr (.inl ⟨_, (Except.ok.inj h).symm⟩)
  | @scriptHashFromHash scriptHash _ h =>
    rw [newAddressScriptHashFromHash] at h
    split_ifs at h
    exact .inr (.inl ⟨_, (Except.ok.inj h).symm⟩)
  | @witnessPubKeyHash program _ h =>
    have hlen : program.length = 20 := by
      by_contra hne
      rw [newAddressWitnessPubKeyHash, if_pos hne] at h
      cases h
    refine .inr (.inr ⟨0, program, .inl rfl, ⟨by omega, by omega, fun _ => .inl hlen⟩, fun h0 => absurd h0 (by decide), ?_⟩)
    rw [witnessAddress, if_neg (by decide), if_neg (by omega), if_pos hlen, h]
  | @witnessScriptHash program _ h =>
    have hlen : program.length = 32 := by
      by_contra hne
      rw [newAddressWitnessScriptHash, if_pos hne] at h
      cases h
    refine .inr (.inr ⟨0, program, .inl rfl, ⟨by omega, by omega, fun _ => .inr hlen⟩, fun h0 => absurd h0 (by decide), ?_⟩)
    rw [witnessAddress, if_neg (by decide), if_neg (by omega), if_neg (by omega), if_pos hlen, if_neg (by decide), h]
  | @taproot program _ h =>
    have hlen : program.length = 32 := by
      by_contra hne
      rw [newAddressTaproot, if_pos hne] at h
      cases h
    refine .inr (.inr ⟨1, program, .inr rfl, ⟨by omega, by omega, fun h1 => absurd h1 (by decide)⟩, fun _ => by omega, ?_⟩)
    rw [witnessAddress, if_neg (by decide), if_neg (by omega), if_neg (by omega), if_pos hlen, if_pos rfl, h]
  | payToAnchor =>
    exact .inr (.inr ⟨1, payToAnchorWitnessProgram, .inr rfl,
      ⟨by decide, by decide, fun h1 => absurd h1 (by decide)⟩, fun _ => by decide, rfl⟩)

variable (pkg hashes)

/-- A string is decoded as an address of the same type with the same contents, for the network. -/
def DecodesTo (s : Bytes) (net : Params) (a : Address pkg) : Prop :=
  ∃ b, decodeAddress pkg hashes s net = .ok b ∧ b.type = a.type ∧ b.scriptAddress = a.scriptAddress ∧
    b.isForNet net = true

/-- The string of an address is decoded as the address, and that of a witness address also in upper case. -/
def RoundTrips (net : Params) (a : Address pkg) : Prop :=
  DecodesTo pkg hashes (a.encodeAddress hashes) net a ∧
    (a.type.isWitness = true → DecodesTo pkg hashes (toUpper (a.encodeAddress hashes)) net a)

variable {pkg hashes}

theorem networks_versions : ∀ net ∈ networks, net.pubKeyHashAddrID ∈ versionBytes ∧ net.scriptHashAddrID ∈ versionBytes ∧
    (net.pubKeyHashAddrID == net.scriptHashAddrID) = false := by decide

theorem networks_plain : ∀ net ∈ networks, PlainHrp net.bech32HRPSegwit := by
  intro net hnet
  have hall : ∀ net ∈ networks, net.bech32HRPSegwit ≠ [] ∧ (∀ c ∈ net.bech32HRPSegwit, Plain c) ∧
      net.bech32HRPSegwit.length ≤ 10 := by decide +kernel
  exact ⟨(hall net hnet).1, (hall net hnet).2.1, (hall net hnet).2.2⟩

theorem decodesTo_pubKeyHash (hnet : net ∈ networks) (hash : FixedBytes 20) :
    DecodesTo pkg hashes (encodeAddress hashes hash net.pubKeyHashAddrID) net (.pubKeyHash hash net.pubKeyHashAddrID) := by
  obtain ⟨hpkh, -, hne⟩ := networks_versions net hnet
  refine ⟨_, ?_, rfl, rfl, beq_self_eq_true net.pubKeyHashAddrID⟩
  rw [decodeAddress_base58 hpkh, beq_self_eq_true, hne]
  rfl

theorem decodesTo_scriptHash (hnet : net ∈ networks) (hash : FixedBytes 20) :
    DecodesTo pkg hashes (encodeAddress hashes hash net.scriptHashAddrID) net (.scriptHash hash net.scriptHashAddrID) := by
  obtain ⟨-, hsh, hne⟩ := networks_versions net hnet
  refine ⟨_, ?_, rfl, rfl, beq_self_eq_true net.scriptHashAddrID⟩
  rw [decodeAddress_base58 hsh, beq_self_eq_true, Bool.beq_comm, hne]
  rfl

section Witness
variable {v : UInt8} {program : Bytes} {a : Address pkg}

theorem isForNet_of_witnessAddress (hhrp : PlainHrp net.bech32HRPSegwit)
    (h : witnessAddress pkg net.bech32HRPSegwit v program = .ok a) : a.isForNet net = true := by
  have hlower := toLower_of_plain hhrp.plain
  rw [witnessAddress] at h
  dsimp only [newAddressPayToAnchor, newAddressWitnessPubKeyHash, newAddressWitnessScriptHash, newAddressTaproot] at h
  rw [hlower] at h
  split_ifs at h <;> (obtain rfl := Except.ok.inj h; exact beq_self_eq_true net.bech32HRPSegwit)

/-- A witness address comes back just if its prefix is known. -/
theorem decodesTo_spelled (hhrp : PlainHrp net.bech32HRPSegwit) (hv : v = 0 ∨ v = 1) (hfits : ProgramFits v program)
    (h : witnessAddress pkg net.bech32HRPSegwit v program = .ok a) (hwitness : a.type.isWitness = true) :
    DecodesTo pkg hashes (spelled net.bech32HRPSegwit v program) net a ↔ net.bech32HRPSegwit ∈ knownBech32Prefixes := by
  constructor
  · rintro ⟨b, hdec, htype, -⟩
    obtain ⟨hrp, hknown, v', program', hv', -, heq, -⟩ := spelled_of_decodeAddress hdec (by rw [htype]; exact hwitness)
    have hone : lastIndexByte (spelled net.bech32HRPSegwit v program) separator = some net.bech32HRPSegwit.length :=
      lastIndexByte_written (digits_combined hv program)
    have hone' : lastIndexByte (spelled hrp v' program') separator = some hrp.length :=
      lastIndexByte_written (digits_combined hv' program')
    rw [heq, hone'] at hone
    have hsame : net.bech32HRPSegwit = hrp := (append_inj heq (Option.some.inj hone).symm).1
    rwa [hsame]
  · intro hknown
    exact ⟨a, (decodeAddress_spelled hknown hv hfits net).trans h, rfl, rfl, isForNet_of_witnessAddress hhrp h⟩

/-- Nothing in upper case is a witness address. -/
theorem not_decodesTo_toUpper {s : Bytes} (hwitness : a.type.isWitness = true) :
    ¬ DecodesTo pkg hashes (toUpper s) net a := by
  rintro ⟨b, hdec, htype, -⟩
  obtain ⟨hrp, hknown, v, program, -, -, heq, -⟩ := spelled_of_decodeAddress hdec (by rw [htype]; exact hwitness)
  obtain ⟨c, hc, hlower⟩ := known_isLower hrp hknown
  have hmem : c ∈ toUpper s := by
    rw [heq]
    exact mem_append_left _ hc
  obtain ⟨d, -, rfl⟩ := mem_map.mp hmem
  rw [isLower_upperByte] at hlower
  cases hlower

end Witness

/-- An address comes back, in both spellings if it has two, just if it is not a witness address; one in lower case comes back
also if it is a witness address of a known prefix. -/
theorem roundTrips_iff {net : Params} (hnet : net ∈ networks) {a : Address pkg} (h : Built pkg hashes net a) :
    (RoundTrips pkg hashes net a ↔ a.type.isWitness = false) ∧
      (DecodesTo pkg hashes (a.encodeAddress hashes) net a ↔
        a.type.isWitness = false ∨ net.bech32HRPSegwit ∈ knownBech32Prefixes) := by
  rcases h.cases with ⟨hash, rfl⟩ | ⟨hash, rfl⟩ | ⟨v, program, hv, hfits, h20, haddr⟩
  · have hdec : DecodesTo pkg hashes (encodeAddress hashes hash net.pubKeyHashAddrID) net
        (.pubKeyHash hash net.pubKeyHashAddrID) := decodesTo_pubKeyHash hnet hash
    exact ⟨⟨fun _ => rfl, fun _ => ⟨hdec, fun hw => by cases hw⟩⟩, ⟨fun _ => .inl rfl, fun _ => hdec⟩⟩
  · have hdec : DecodesTo pkg hashes (encodeAddress hashes hash net.scriptHashAddrID) net
        (.scriptHash hash net.scriptHashAddrID) := decodesTo_scriptHash hnet hash
    exact ⟨⟨fun _ => rfl, fun _ => ⟨hdec, fun hw => by cases hw⟩⟩, ⟨fun _ => .inl rfl, fun _ => hdec⟩⟩
  · have hhrp := networks_plain net hnet
    obtain ⟨hwitness, hencode⟩ := encodeAddress_of_witnessAddress hashes hhrp hv hfits haddr
    have hversion : (if program.length = 20 then 0 else v) = v := by
      split_ifs with hlen
      · exact (hv.resolve_right fun h1 => h20 h1 hlen).symm
      · rfl
    rw [hversion] at hencode
    constructor
    · constructor
      · intro hround
        exact absurd (hround.2 hwitness) (not_decodesTo_toUpper hwitness)
      · intro hnot
        rw [hwitness] at hnot
        cases hnot
    · rw [hencode, decodesTo_spelled hhrp hv hfits haddr hwitness, hwitness]
      exact ⟨.inr, fun h => h.resolve_left Bool.true_eq_false.mp⟩

theorem roundTrips_iff_pubKeyHash :
    let hashes : Hashes := ⟨fun _ => FixedBytes.zero 32, fun _ => FixedBytes.zero 20⟩
    let a : Address discreteLogs := .pubKeyHash (FixedBytes.copy 20 (replicate 20 0)) 0x6f
    Built discreteLogs hashes testNet3Params a ∧ RoundTrips discreteLogs hashes testNet3Params a := by
  intro hashes a
  have hbuilt : Built discreteLogs hashes testNet3Params a := Built.pubKeyHash (show newAddressPubKeyHash discreteLogs (replicate 20 0) 0x6f = .ok a from rfl)
  exact ⟨hbuilt, (roundTrips_iff (by decide) hbuilt).1.mpr rfl⟩

/-- A witness address of the regression test network is not decoded at all, and one of the main network not in upper
case. -/
theorem witness_not_roundTrips :
    let hashes : Hashes := ⟨fun _ => FixedBytes.zero 32, fun _ => FixedBytes.zero 20⟩
    let a : Params → Address discreteLogs := fun net => .witnessPubKeyHash ⟨net.bech32HRPSegwit, 0, replicate 20 0⟩
    (∀ net ∈ networks, Built discreteLogs hashes net (a net)) ∧
      ¬ DecodesTo discreteLogs hashes ((a regressionNetParams).encodeAddress hashes) regressionNetParams
        (a regressionNetParams) ∧
      DecodesTo discreteLogs hashes ((a mainNetParams).encodeAddress hashes) mainNetParams (a mainNetParams) ∧
      ¬ DecodesTo discreteLogs hashes (toUpper ((a mainNetParams).encodeAddress hashes)) mainNetParams
        (a mainNetParams) := by
  intro hashes a
  have hfits : ProgramFits 0 (replicate 20 0) := ⟨by decide, by decide, fun _ => .inl rfl⟩
  have haddr : ∀ net ∈ networks, newAddressWitnessPubKeyHash discreteLogs net.bech32HRPSegwit (replicate 20 0) =
      .ok (a net) := by
    intro net hnet
    rw [newAddressWitnessPubKeyHash, if_neg (by decide), toLower_of_plain (networks_plain net hnet).plain]
  have hdecodes : ∀ net ∈ networks, DecodesTo discreteLogs hashes ((a net).encodeAddress hashes) net (a net) ↔
      net.bech32HRPSegwit ∈ knownBech32Prefixes := by
    intro net hnet
    have hplain := networks_plain net hnet
    have hwitness : witnessAddress discreteLogs net.bech32HRPSegwit 0 (replicate 20 0) = .ok (a net) := haddr net hnet
    rw [(encodeAddress_of_witnessAddress hashes hplain (.inl rfl) hfits hwitness).2]
    exact decodesTo_spelled hplain (.inl rfl) hfits hwitness rfl
  refine ⟨fun net hnet => .witnessPubKeyHash (haddr net hnet), ?_, ?_, not_decodesTo_toUpper rfl⟩
  · rw [hdecodes _ (by decide)]
    decide
  · rw [hdecodes _ (by decide)]
    decide

end NogoCommons.Addresses
