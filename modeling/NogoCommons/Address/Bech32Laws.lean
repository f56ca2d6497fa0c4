import NogoCommons.Address.Bech32
import Mathlib.Data.List.Iterate
import Mathlib.Data.Nat.Bitwise

/-!
# `address/bech32` — what the checksum does

The checksum is linear, so that one wrong digit adds what is left of the difference after the digits behind it. That is
never nothing, and never what would turn one version into the other (`absorb_error_not_mem`).

The error for a wrong checksum shows the right ones. Both are written into one builder, and so the second holds the first
as well.
-/

namespace NogoCommons.Bech32
open Lib List
variable {hrp : Bytes} {version : Version}

/-! ## One wrong digit -/

theorem bech32VerifyChecksum_eq (hrp ds : Bytes) : bech32VerifyChecksum hrp ds =
    constsToVersion (absorb (bech32Polymod hrp [] (some [])) (ds.map UInt8.toNat)) := by
  conv_rhs => rw [← take_append_drop (ds.length - 6) ds, map_append, absorb, foldl_append]
  rfl

theorem absorb_replace {c u v : Nat} (hu : u < 32) (hv : v < 32) (vs : List Nat) :
    absorb c (v :: vs) = absorb c (u :: vs) ^^^ absorb (u ^^^ v) (replicate vs.length 0) := by
  have he : u ^^^ v < 32 := Nat.xor_lt_two_pow (n := 5) hu hv
  have hround := round_xor c 0 u (u ^^^ v)
  rw [Nat.xor_zero, ← Nat.xor_assoc, Nat.xor_self, Nat.zero_xor, round_of_lt (Nat.two_pow_pos 25) he, Nat.zero_mul,
    Nat.zero_add] at hround
  show absorb (round c v) vs = absorb (round c u) vs ^^^ _
  rw [hround, absorb_xor]

theorem absorb_zeros (c k : Nat) : absorb c (replicate k 0) = (round · 0)^[k] c := by
  induction k generalizing c with
  | zero => rfl
  | succ k ih => exact ih (round c 0)

/-- A digit that is wrong leaves something, and not the difference of the two versions. -/
theorem absorb_error_not_mem {e k : Nat} (he : e < 32) (hne : e ≠ 0) (hk : k < 89) :
    absorb e (replicate k 0) ∉ [0, Version.version0.const ^^^ Version.versionM.const] := by
  have hall : ∀ e < 32, e ≠ 0 → ∀ c ∈ iterate (round · 0) e 89,
      c ∉ [0, Version.version0.const ^^^ Version.versionM.const] := by
    decide +kernel
  exact hall e he hne _ (mem_iterate.mpr ⟨k, hk, absorb_zeros e k⟩)

theorem verify_replace {us ws : Bytes} {u d : UInt8} (hver : bech32VerifyChecksum hrp (us ++ u :: ws) = some version)
    (hu : u < 32) (hd : d < 32) (hne : u ≠ d) (hlen : ws.length < 89) :
    bech32VerifyChecksum hrp (us ++ d :: ws) = none := by
  rw [bech32VerifyChecksum_eq, constsToVersion_eq_some, map_append, map_cons, absorb, foldl_append] at hver
  rw [bech32VerifyChecksum_eq, Option.eq_none_iff_forall_ne_some]
  intro version' hver'
  rw [constsToVersion_eq_some, map_append, map_cons, absorb, foldl_append, ← absorb,
    absorb_replace (UInt8.lt_iff_toNat_lt.mp hu) (UInt8.lt_iff_toNat_lt.mp hd), absorb, hver, length_map] at hver'
  have he : u.toNat ^^^ d.toNat < 32 := Nat.xor_lt_two_pow (n := 5) hu hd
  have hpos : u.toNat ^^^ d.toNat ≠ 0 := fun h => hne (UInt8.toNat_inj.mp (Nat.eq_of_xor_eq_zero h))
  have hleft : absorb (u.toNat ^^^ d.toNat) (replicate ws.length 0) = version.const ^^^ version'.const := by
    rw [← hver', ← Nat.xor_assoc, Nat.xor_self, Nat.zero_xor]
  refine absorb_error_not_mem he hpos hlen (hleft ▸ ?_)
  cases version <;> cases version' <;> decide

theorem lowerByte_eq_separator (b : UInt8) : lowerByte b = separator → b = separator := by
  grind [lowerByte, isUpper, separator]

/-- **A wrong character behind the last separator is found**, whatever else the string holds. -/
theorem single_error_detected {front back hrp data : Bytes} {x c : UInt8} {version : Version}
    (h : decodeGeneric (front ++ x :: back) = .ok (hrp, data, version)) (hlast : separator ∉ x :: back)
    (hchar : lowerByte c ∈ charset) (hcase : OneCase (front ++ c :: back)) (hne : lowerByte c ≠ lowerByte x) :
    ∃ expected expectedM actual,
      decodeGeneric (front ++ c :: back) = .error (.invalidChecksum expected expectedM actual) := by
  obtain ⟨hlen, -, hhrp, hdata, hlower⟩ := decodeGeneric_eq_ok.mp h
  obtain ⟨checksum, hsum, hsix, hnum, hwrite⟩ := exists_checksum hrp data version
  have hver := (bech32VerifyChecksum_eq_some hsum hsix).mpr hnum
  have hds : Digits (data ++ checksum) := forall_mem_append.mpr ⟨hdata, hsum⟩
  have hroom : 6 ≤ (data ++ checksum).length := by rw [length_append, hsix]; omega
  have hnot : separator ∉ lowerByte x :: back.map lowerByte := by
    intro hmem
    obtain ⟨b, hb, hlow⟩ := mem_map.mp (show separator ∈ (x :: back).map lowerByte from hmem)
    exact hlast (lowerByte_eq_separator b hlow ▸ hb)
  rw [written, hwrite, ← map_append, toLower, map_append, map_cons] at hlower
  generalize data ++ checksum = ds at *
  -- the digit that is replaced, and the one that comes in
  rcases append_eq_append_iff.mp hlower with ⟨a, -, htail⟩ | ⟨a, hfront, htail⟩
  · exact absurd (htail ▸ mem_append_right a mem_cons_self) hnot
  cases a with
  | nil => exact absurd (List.cons.inj htail).1 fun heq => hnot (heq ▸ mem_cons_self)
  | cons b a =>
    obtain ⟨rfl, hdigits⟩ := List.cons.inj htail
    obtain ⟨us, rest, rfl, rfl, hrest⟩ := map_eq_append_iff.mp hdigits
    obtain ⟨u, ws, rfl, hu, hws⟩ := map_eq_cons_iff.mp hrest
    obtain ⟨d, hdlt, hd⟩ := exists_charOf _ hchar
    have hbound : ws.length < 89 := by
      have hback := congrArg length hws
      have hfront' := congrArg length hfront
      simp only [length_map, length_append, length_cons] at hback hfront' hlen
      omega
    obtain ⟨hus, hws'⟩ := forall_mem_append.mp hds
    obtain ⟨hult, hws'⟩ := forall_mem_cons.mp hws'
    have hnone := verify_replace hver hult hdlt (fun heq => hne (by rw [← hd, ← hu, heq])) hbound
    have hreplaced : Digits (us ++ d :: ws) := forall_mem_append.mpr ⟨hus, forall_mem_cons.mpr ⟨hdlt, hws'⟩⟩
    have hp := parts_of_digits hcase hhrp hreplaced (by simpa only [length_append, length_cons] using hroom)
      (by rw [toLower, map_append, map_cons, hfront, map_append, map_cons, hd, hws, append_assoc, cons_append])
    have hdec := decode_of_parts hp
    rw [take_append_drop, hnone] at hdec
    refine ⟨_, _, _, (if_neg ?_).trans hdec⟩
    simpa only [length_append, length_cons, Nat.not_lt] using hlen

/-- One digit of a string without data. -/
theorem single_error_detected_a : ∃ expected expectedM actual,
    decodeGeneric (ascii "a12uel5q") = .error (.invalidChecksum expected expectedM actual) := by
  have h : decodeGeneric (ascii "a12uel5" ++ 108 :: []) = .ok (ascii "a", [], .version0) := by decide
  exact single_error_detected (c := 113) h (by decide) (by decide) ⟨by decide +kernel, .inl (by decide +kernel)⟩
    (by decide)

/-! ## The hints -/

/-- The hint for a version. -/
def hint (expected expectedM : Bytes) : Version → Bytes
  | .version0 => expected
  | .versionM => expectedM

/-- **Of the two hints of an error only the one for the first version is usable.** -/
theorem hint_usable_iff {bech expected expectedM actual : Bytes}
    (h : decodeNoLimitWithVersion bech = .error (.invalidChecksum expected expectedM actual)) :
    ∃ hrp data, toLower bech = hrp ++ separator :: (data.map charOf ++ actual) ∧ ∀ version,
      decodeNoLimitWithVersion ((toLower bech).take (bech.length - 6) ++ hint expected expectedM version) =
        .ok (hrp, data, version) ↔ version = .version0 := by
  rcases parts_or_early bech with ⟨hrp, values, checksum, hp⟩ | ⟨e, he, hearly⟩
  · rw [decode_of_parts hp] at h
    cases hver : bech32VerifyChecksum hrp (values ++ checksum) with
    | some version =>
      rw [hver] at h
      cases h
    | none =>
      rw [hver] at h
      cases h
      have hfront : (toLower bech).take (bech.length - 6) = hrp ++ separator :: values.map charOf := by
        rw [← hp.split.2, hp.split.1, take_left]
      refine ⟨hrp, values, by rw [hp.lower, map_append], fun version => ?_⟩
      rw [hfront, append_assoc, cons_append]
      cases version with
      | version0 =>
        have hhrp : ∀ c ∈ hrp, Plain c := fun c hc => plain_toLower hp.oneCase c (hp.lower ▸ mem_append_left _ hc)
        exact iff_of_true (decode_written hp.part hhrp hp.data) rfl
      | versionM =>
        -- twelve characters, and the last six are a checksum
        refine iff_of_false (fun hdec => ?_) nofun
        have hlong := congrArg length (decode_eq_ok.mp hdec).2.2.2
        rw [length_toLower, length_written, hint, length_append, length_cons, length_append, length_map,
          length_append, length_checksum, length_checksum] at hlong
        omega
  · rw [he] at h
    exact absurd (Except.error.inj h) (hearly _ _ _)

/-- A string without data and without a right checksum. -/
theorem hint_usable_iff_a : ∃ hrp data, decodeNoLimitWithVersion (ascii "a12uel5l") = .ok (hrp, data, .version0) := by
  have herror : decodeNoLimitWithVersion (ascii "a1qqqqqq") =
      .error (.invalidChecksum (ascii "2uel5l") (ascii "2uel5llqfn3a") (ascii "qqqqqq")) := by
    decide
  obtain ⟨hrp, data, -, h⟩ := hint_usable_iff herror
  exact ⟨hrp, data, (h .version0).mpr rfl⟩

/-- The hint for the second version holds that for the first as well. -/
theorem hintM_twelve_characters :
    decodeNoLimitWithVersion (ascii "a1qqqqqq") =
      .error (.invalidChecksum (ascii "2uel5l") (ascii "2uel5llqfn3a") (ascii "qqqqqq")) ∧
    decodeNoLimitWithVersion (ascii "a12uel5llqfn3a") ≠ .ok (ascii "a", [], .versionM) ∧
    decodeNoLimitWithVersion (ascii "a1lqfn3a") = .ok (ascii "a", [], .versionM) := by
  decide

end NogoCommons.Bech32
