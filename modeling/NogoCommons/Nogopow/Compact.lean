import NogoCommons.Nogopow.Types
import Mathlib.Data.Nat.Bitwise

/-!
# `CompactToBig` and `BigToCompact`

The 32-bit form of a target: an exponent counting bytes, a sign bit, and a 23-bit mantissa.
`compactToBig_eq` and `bigToCompact_eq` say what the two functions compute in plain
arithmetic, once the shifts and masks are done with; the third theorem composes them.

The mantissa is cut from the *top three bytes* of the number and then masked to 23 bits, so
that the top bit of the top byte is lost wherever it is set. The format has no room for it —
that bit is the sign — and the way out is to move the mantissa down one byte and count the
exponent up. `bigToCompact` does not: `compactFaithful_iff`.
-/

namespace NogoCommons.Nogopow
open Lib

def compactToBig (compact : UInt32) : Int :=
  let mantissa := compact &&& 0x007fffff
  let isNegative := compact &&& 0x00800000 != 0
  let exponent := (compact >>> 24).toNat
  let bn : Int :=
    if exponent ≤ 3 then ((mantissa >>> UInt32.ofNat (8 * (3 - exponent))).toNat : Int)
    else (mantissa.toNat : Int) <<< (8 * (exponent - 3))
  if isNegative then -bn else bn

/-- `x.Bits()[0]`: the lowest machine word of the absolute value. -/
def bigWord0 (x : Int) : Nat := x.natAbs % 2 ^ 64

def bigToCompact (n : Int) : UInt32 :=
  if n = 0 then 0
  else
    let exponent := (bigBytes n).length
    let mantissa : UInt32 :=
      if exponent ≤ 3 then UInt32.ofNat (bigWord0 n) <<< UInt32.ofNat (8 * (3 - exponent))
      else UInt32.ofNat (bigWord0 (n >>> (8 * (exponent - 3))))
    let mantissa := mantissa &&& 0x007fffff
    let compact := UInt32.ofNat (exponent <<< 24) ||| mantissa
    if n < 0 then compact ||| 0x00800000 else compact

/-! ## What the shifts and masks compute -/

/-- The three fields of a compact value. -/
theorem compact_fields (c : UInt32) : (c &&& 0x007fffff).toNat = c.toNat % 2 ^ 23 ∧
    (c &&& 0x00800000 = 0 ↔ c.toNat / 2 ^ 23 % 2 = 0) ∧ (c >>> 24).toNat = c.toNat / 2 ^ 24 := by
  refine ⟨?_, ?_, ?_⟩
  · rw [UInt32.toNat_and]
    exact Nat.and_two_pow_sub_one_eq_mod _ 23
  · rw [← UInt32.toNat_inj, UInt32.toNat_and]
    show c.toNat &&& 2 ^ 23 = 0 ↔ _
    rw [Nat.and_comm, Nat.two_pow_and, Nat.testBit_eq_decide_div_mod_eq]
    rcases Nat.mod_two_eq_zero_or_one (c.toNat / 2 ^ 23) with h | h <;> rw [h] <;> simp
  · rw [UInt32.toNat_shiftRight]
    exact Nat.shiftRight_eq_div_pow _ 24

variable {m n : Nat}

/-- A compact value with its sign bit clear, by its exponent and mantissa. -/
theorem compactToBig_eq {c : UInt32} {e : Nat} (hc : c.toNat = e * 2 ^ 24 + m) (hm : m < 2 ^ 23) :
    compactToBig c = if e ≤ 3 then ((m / 256 ^ (3 - e) : Nat) : Int)
      else ((m * 256 ^ (e - 3) : Nat) : Int) := by
  obtain ⟨hmant', hsign', hexp'⟩ := compact_fields c
  have hmant : (c &&& 0x007fffff).toNat = m := by omega
  have hsign : (c &&& 0x00800000 != 0) = false := by
    rw [hsign'.mpr (by omega)]
    rfl
  have hexp : (c >>> 24).toNat = e := by omega
  unfold compactToBig
  simp only [hsign, hexp]
  by_cases he : e ≤ 3
  · have hshift : (UInt32.ofNat (8 * (3 - e))).toNat % 32 = 8 * (3 - e) := by
      rw [UInt32.toNat_ofNat']
      omega
    rw [if_pos he, if_pos he, UInt32.toNat_shiftRight, hmant, hshift, Nat.shiftRight_eq_div_pow, pow_mul]
    rfl
  · rw [if_neg he, if_neg he, hmant, Int.shiftLeft_eq, pow_mul]
    push_cast
    rfl

/-- The mantissa `bigToCompact` cuts: the top three bytes, without their top bit. -/
def compactMantissa (n : Nat) : Nat :=
  let e := (natBytes n).length
  (if e ≤ 3 then n * 256 ^ (3 - e) else n / 256 ^ (e - 3)) % 2 ^ 23

theorem compactMantissa_lt (n : Nat) : compactMantissa n < 2 ^ 23 := Nat.mod_lt _ (by decide)

/-- Masking a 32-bit word to 23 bits forgets that it was cut to 32 bits first. -/
theorem toNat_ofNat_and_mask (x : Nat) : (UInt32.ofNat x &&& 0x007fffff).toNat = x % 2 ^ 23 := by
  rw [UInt32.toNat_and, UInt32.toNat_ofNat']
  show x % 2 ^ 32 &&& (2 ^ 23 - 1) = x % 2 ^ 23
  rw [Nat.and_two_pow_sub_one_eq_mod]
  omega

theorem bigToCompact_eq (hn : 0 < n) (hlen : (natBytes n).length ≤ 255) :
    (bigToCompact (n : Int)).toNat = (natBytes n).length * 2 ^ 24 + compactMantissa n := by
  have hlt := natBytes_lt n
  have hne : ¬ (n : Int) = 0 := by omega
  have hpos : ¬ (n : Int) < 0 := by omega
  -- The mantissa word, before the mask: a number that the mask reads modulo `2 ^ 23`.
  have hword : ∃ x, x % 2 ^ 23 = compactMantissa n ∧
      (if (natBytes n).length ≤ 3 then
        UInt32.ofNat (bigWord0 (n : Int)) <<< UInt32.ofNat (8 * (3 - (natBytes n).length))
      else UInt32.ofNat (bigWord0 ((n : Int) >>> (8 * ((natBytes n).length - 3)))))
        = UInt32.ofNat x := by
    by_cases he : (natBytes n).length ≤ 3
    · refine ⟨n * 256 ^ (3 - (natBytes n).length), by simp only [compactMantissa, if_pos he], ?_⟩
      have hsmall : n < 2 ^ 32 := by
        have hp : (256 : Nat) ^ (natBytes n).length ≤ 256 ^ 3 := Nat.pow_le_pow_right (by decide) he
        norm_num at *
        omega
      have hw : bigWord0 (n : Int) = n := by
        show n % 2 ^ 64 = n
        omega
      have hshift : (UInt32.ofNat (8 * (3 - (natBytes n).length))).toNat % 32
          = 8 * (3 - (natBytes n).length) := by
        rw [UInt32.toNat_ofNat']
        omega
      rw [if_pos he, hw]
      apply UInt32.toNat_inj.mp
      rw [UInt32.toNat_shiftLeft, hshift, UInt32.toNat_ofNat', UInt32.toNat_ofNat',
        Nat.mod_eq_of_lt hsmall, Nat.shiftLeft_eq, pow_mul]
      rfl
    · refine ⟨n / 256 ^ ((natBytes n).length - 3) % 2 ^ 64, ?_, ?_⟩
      · simp only [compactMantissa, if_neg he]
        omega
      · rw [if_neg he, ← Int.natCast_shiftRight, Nat.shiftRight_eq_div_pow, pow_mul]
        rfl
  obtain ⟨x, hx, hx'⟩ := hword
  have hexp : (UInt32.ofNat ((natBytes n).length <<< 24)).toNat = 2 ^ 24 * (natBytes n).length := by
    rw [UInt32.toNat_ofNat', Nat.shiftLeft_eq]
    omega
  unfold bigToCompact
  rw [if_neg hne]
  simp only [bigBytes_natCast, hx', if_neg hpos]
  rw [UInt32.toNat_or, hexp, toNat_ofNat_and_mask, hx,
    ← Nat.two_pow_add_eq_or_of_lt (by have := compactMantissa_lt n; omega)]
  omega

/-! ## The round trip -/

/-- What a compact form should keep of a number: it rounds down, by less than the weight of
the second byte from the top, and never to zero. -/
structure CompactFaithful (n : Nat) (r : Int) : Prop where
  nonneg : 0 ≤ r
  le : r ≤ n
  close : (n : Int) - r < 256 ^ (max (natBytes n).length 2 - 2)
  pos : 0 < n → 0 < r

/-- The number that comes back from the compact form. -/
theorem compactToBig_bigToCompact (hn : 0 < n) (hlen : (natBytes n).length ≤ 255) :
    compactToBig (bigToCompact (n : Int)) =
      if (natBytes n).length ≤ 3 then
        ((compactMantissa n / 256 ^ (3 - (natBytes n).length) : Nat) : Int)
      else ((compactMantissa n * 256 ^ ((natBytes n).length - 3) : Nat) : Int) :=
  compactToBig_eq (bigToCompact_eq hn hlen) (compactMantissa_lt n)

/-- A positive number by its top byte. -/
theorem natBytes_top (hn : 0 < n) : ∃ b rest, natBytes n = b :: rest ∧ 0 < b.toNat ∧
      n = b.toNat * 256 ^ rest.length + beNat rest := by
  match h : natBytes n with
  | [] => exact absurd (natBytes_eq_nil.mp h) (by omega)
  | b :: rest =>
    refine ⟨b, rest, rfl, ?_, ?_⟩
    · refine Nat.pos_of_ne_zero fun hb => natBytes_head n ?_
      rw [h, show b = 0 from UInt8.toNat_inj.mp hb]
      rfl
    · rw [← beNat_cons, ← h, beNat_natBytes]

/-- **What is lost, exactly.** With the top byte below `0x80` the compact form drops only what
lies under the top three bytes; otherwise it drops the top bit as well. -/
theorem compact_loss {b : UInt8} {rest : Bytes} (hb : natBytes n = b :: rest) (hpos : 0 < b.toNat)
    (hn : n = b.toNat * 256 ^ rest.length + beNat rest) (hlen : rest.length ≤ 254) :
    ∃ low : Nat, low < 256 ^ (rest.length - 2) ∧
      compactToBig (bigToCompact (n : Int))
        = (n : Int) - low - (if b.toNat < 128 then 0 else 128 * 256 ^ rest.length) := by
  have hlt := beNat_lt rest
  have hbyte := b.toNat_lt
  have hL : (natBytes n).length = rest.length + 1 := by rw [hb]; rfl
  have hn0 : 0 < n := by
    have : 0 < b.toNat * 256 ^ rest.length := by positivity
    omega
  rw [compactToBig_bigToCompact hn0 (by omega)]
  simp only [compactMantissa, hL]
  generalize beNat rest = t at *
  generalize b.toNat = c at *
  generalize rest.length = k at *
  by_cases hk : k + 1 ≤ 3
  · -- Up to three bytes the mantissa holds the whole number, its top bit apart.
    refine ⟨0, by positivity, ?_⟩
    rw [if_pos hk, if_pos hk]
    obtain rfl | rfl | rfl : k = 0 ∨ k = 1 ∨ k = 2 := by omega
    all_goals
      norm_num at *
      split <;> omega
  · -- Past three bytes the number is the mantissa's multiple of `p` and what lies under it.
    obtain ⟨j, rfl⟩ : ∃ j, k = j + 2 := ⟨k - 2, by omega⟩
    rw [if_neg hk, if_neg hk, show j + 2 + 1 - 3 = j by omega, show j + 2 - 2 = j by omega]
    have hpow : (256 : Nat) ^ (j + 2) = 65536 * 256 ^ j := by rw [pow_add, Nat.mul_comm]; rfl
    have hpowZ : (256 : Int) ^ (j + 2) = 65536 * 256 ^ j := by exact_mod_cast hpow
    rw [hpow] at hn hlt
    rw [hpowZ]
    have hp : 0 < 256 ^ j := by positivity
    have hcast : ((256 ^ j : Nat) : Int) = 256 ^ j := by push_cast; rfl
    rw [← hcast]
    generalize 256 ^ j = p at *
    have htop : t / p < 65536 := (Nat.div_lt_iff_lt_mul hp).mpr hlt
    have hdiv : n / p = c * 65536 + t / p := by
      rw [hn, ← Nat.mul_assoc, Nat.mul_comm (c * 65536) p, Nat.mul_add_div hp]
    have hmod : p * (n / p) + n % p = n := Nat.div_add_mod n p
    refine ⟨n % p, Nat.mod_lt _ hp, ?_⟩
    split
    · have hm : n / p % 2 ^ 23 = n / p := by
        rw [hdiv]
        exact Nat.mod_eq_of_lt (by omega)
      rw [hm]
      zify at hmod
      push_cast
      linarith
    · have hm : n / p % 2 ^ 23 + 2 ^ 23 = n / p := by
        rw [hdiv]
        generalize t / p = u at *
        omega
      rw [← hm] at hmod
      generalize n / p % 2 ^ 23 = m at hmod ⊢
      zify at hmod
      push_cast
      linarith

/-- **The compact form is faithful exactly below a top byte of `0x80`.** Wherever that byte has
its top bit set, the bit falls on the sign's place and is masked off. -/
theorem compactFaithful_iff {n : Nat} (hlen : (natBytes n).length ≤ 255) :
    CompactFaithful n (compactToBig (bigToCompact (n : Int)))
      ↔ ∀ b, (natBytes n).head? = some b → b.toNat < 0x80 := by
  obtain rfl | hn := Nat.eq_zero_or_pos n
  · have hz : compactToBig (bigToCompact ((0 : Nat) : Int)) = 0 := by decide
    rw [hz]
    exact ⟨by simp, fun _ => ⟨by simp, by simp, by simp, by simp⟩⟩
  obtain ⟨b, rest, hb, hpos, hsum⟩ := natBytes_top hn
  have hL : (natBytes n).length = rest.length + 1 := by rw [hb]; rfl
  obtain ⟨low, hlow, hr⟩ := compact_loss hb hpos hsum (by omega)
  have hexp : (256 : Int) ^ (rest.length - 2) ≤ 256 ^ (max (natBytes n).length 2 - 2) :=
    pow_le_pow_right₀ (by decide) (by omega)
  have hexp' : (256 : Int) ^ (max (natBytes n).length 2 - 2) ≤ 256 ^ rest.length :=
    pow_le_pow_right₀ (by decide) (by omega)
  have htop : (256 : Int) ^ rest.length ≤ n := by
    have : (256 : Nat) ^ rest.length ≤ n := by
      have := Nat.le_mul_of_pos_left (256 ^ rest.length) hpos
      omega
    exact_mod_cast this
  simp only [hb, List.head?_cons, Option.some.injEq, forall_eq']
  rw [hr]
  constructor
  · -- A top bit dropped takes the result further below than the bound allows.
    intro hf
    by_contra hc
    have hclose := hf.close
    rw [if_neg hc] at hclose
    have : (0 : Int) ≤ low := by positivity
    linarith
  · intro hc
    rw [if_pos hc]
    exact ⟨by linarith, by omega, by rw [hb] at *; linarith, fun _ => by linarith⟩

theorem compactFaithful_five_bytes : (natBytes 0x7fffff0000).length ≤ 255 ∧
      CompactFaithful 0x7fffff0000 (compactToBig (bigToCompact ((0x7fffff0000 : Nat) : Int))) := by
  have hlen : (natBytes 0x7fffff0000).length ≤ 255 := by decide
  refine ⟨hlen, (compactFaithful_iff hlen).mpr ?_⟩
  decide +kernel

/-- `128` comes back as `0`: the whole number was its top bit. -/
theorem compactToBig_bigToCompact_128 :
    (natBytes 128).length ≤ 255 ∧ compactToBig (bigToCompact ((128 : Nat) : Int)) = 0 ∧
      ¬ CompactFaithful 128 (compactToBig (bigToCompact ((128 : Nat) : Int))) := by
  have hz : compactToBig (bigToCompact ((128 : Nat) : Int)) = 0 := by decide
  refine ⟨by decide, hz, fun hf => ?_⟩
  have hpos := hf.pos (by decide)
  rw [hz] at hpos
  cases hpos

/-! ## The other round trip -/

/-- Zeros below a number make it longer by as many bytes. -/
theorem natBytes_length_mul_pow {w : Nat} (hlo : 256 ^ w ≤ m) (hhi : m < 256 ^ (w + 1)) (j : Nat) :
    (natBytes (m * 256 ^ j)).length = j + w + 1 := by
  have hp : 0 < 256 ^ j := by positivity
  have hle : (natBytes (m * 256 ^ j)).length ≤ j + w + 1 := by
    refine natBytes_length_le ?_
    rw [Nat.add_assoc, pow_add, Nat.mul_comm]
    exact Nat.mul_lt_mul_of_pos_left hhi hp
  have hlt : 256 ^ (j + w) < 256 ^ (natBytes (m * 256 ^ j)).length := by
    refine lt_of_le_of_lt ?_ (natBytes_lt _)
    rw [pow_add, Nat.mul_comm]
    exact Nat.mul_le_mul_right _ hlo
  have := (Nat.pow_lt_pow_iff_right (by decide)).mp hlt
  omega

/-- A mantissa of three bytes comes back; one of two comes back with the exponent one lower. -/
theorem bigToCompact_mul_pow {j : Nat} (hm : 0x8000 ≤ m) (hm' : m < 2 ^ 23) (hj : j ≤ 252) :
    (bigToCompact ((m * 256 ^ j : Nat) : Int)).toNat = (j + 3) * 2 ^ 24 + m ↔ 0x10000 ≤ m := by
  have hp : 0 < 256 ^ j := by positivity
  have hn : 0 < m * 256 ^ j := Nat.mul_pos (by omega) hp
  by_cases htop : 0x10000 ≤ m
  · have hlen := natBytes_length_mul_pow (w := 2) htop (by omega) j
    have hmant : compactMantissa (m * 256 ^ j) = m := by
      simp only [compactMantissa, hlen]
      split
      · obtain rfl : j = 0 := by omega
        omega
      · rw [show j + 2 + 1 - 3 = j by omega, Nat.mul_div_cancel _ hp, Nat.mod_eq_of_lt hm']
    rw [bigToCompact_eq hn (by omega), hlen, hmant]
    exact iff_of_true rfl htop
  · have hlen := natBytes_length_mul_pow (m := m) (w := 1) (by omega) (by omega) j
    have hlt := compactMantissa_lt (m * 256 ^ j)
    rw [bigToCompact_eq hn (by omega), hlen]
    exact iff_of_false (by omega) htop

/-- **A normal compact value comes back exactly with all three bytes of its mantissa in use.** -/
theorem bigToCompact_compactToBig_iff {c : UInt32} (hsign : c &&& 0x00800000 = 0)
    (hexp : (3 : UInt32) ≤ c >>> 24) (hmant : 0x008000 ≤ c &&& 0x007fffff) :
    bigToCompact (compactToBig c) = c ↔ 0x010000 ≤ c &&& 0x007fffff := by
  obtain ⟨hm, hbit, he⟩ := compact_fields c
  rw [hbit] at hsign
  rw [UInt32.le_iff_toNat_le, he] at hexp
  rw [UInt32.le_iff_toNat_le, hm] at hmant
  rw [UInt32.le_iff_toNat_le, hm]
  change 3 ≤ _ at hexp
  change _ ↔ 0x10000 ≤ _
  have hlt := c.toNat_lt
  obtain ⟨j, hj⟩ : ∃ j, c.toNat / 2 ^ 24 = j + 3 := ⟨c.toNat / 2 ^ 24 - 3, by omega⟩
  have hc : c.toNat = (j + 3) * 2 ^ 24 + c.toNat % 2 ^ 23 := by omega
  have hbig : compactToBig c = ((c.toNat % 2 ^ 23 * 256 ^ j : Nat) : Int) := by
    rw [compactToBig_eq hc (Nat.mod_lt _ (by decide))]
    split
    · obtain rfl : j = 0 := by omega
      rw [Nat.sub_self, pow_zero, Nat.div_one, Nat.mul_one]
    · rw [Nat.add_sub_cancel]
  rw [hbig, ← bigToCompact_mul_pow hmant (Nat.mod_lt _ (by decide)) (by omega : j ≤ 252), ← hc, UInt32.toNat_inj]

theorem bigToCompact_compactToBig_max : bigToCompact (compactToBig 0x1d7fffff) = 0x1d7fffff :=
  (bigToCompact_compactToBig_iff (by decide) (by decide) (by decide)).mpr (by decide)

/-- The exponent counts a byte that the number does not have, and is not counted up again. -/
theorem bigToCompact_compactToBig_1d00ffff : bigToCompact (compactToBig 0x1d00ffff) ≠ 0x1d00ffff := by
  decide

end NogoCommons.Nogopow
