import NogoCommons.Lib.Strings
import NogoCommons.Lib.Positional

/-!
# `address/base58` — numbers in base 58

A byte string is its leading zeros and a number, and so is a string of the alphabet; encoding and decoding keep the one and
write the other in another base. Both take ten digits at a time, because that many fit into a machine word.
-/

namespace NogoCommons.Base58
open Lib List

def alphabet : Bytes := ascii "123456789ABCDEFGHJKLMNPQRSTUVWXYZabcdefghijkmnopqrstuvwxyz"

/-- `alphabetIdx0`, `'1'`. -/
def alphabetIdx0 : UInt8 := 49

/-- The table that is generated from the alphabet, from the digits to the letters; 255 is for a character that is not in
the alphabet. -/
def b58Table : List UInt8 :=
  [255, 0, 1, 2, 3, 4, 5, 6,
   7, 8, 255, 255, 255, 255, 255, 255,
   255, 9, 10, 11, 12, 13, 14, 15,
   16, 255, 17, 18, 19, 20, 21, 255,
   22, 23, 24, 25, 26, 27, 28, 29,
   30, 31, 32, 255, 255, 255, 255, 255,
   255, 33, 34, 35, 36, 37, 38, 39,
   40, 41, 42, 43, 255, 44, 45, 46,
   47, 48, 49, 50, 51, 52, 53, 54,
   55, 56, 57, 255, 255, 255, 255, 255]

def b58 (c : UInt8) : UInt8 := if c < 48 then 255 else b58Table.getD (c.toNat - 48) 255

/-- The powers of 58; the first is not one of them, and is not used. -/
def bigRadix : List Nat :=
  [0, 58, 58 ^ 2, 58 ^ 3, 58 ^ 4, 58 ^ 5, 58 ^ 6, 58 ^ 7, 58 ^ 8, 58 ^ 9, 58 ^ 10]

def bigRadix10 : Nat := 58 ^ 10

/-! ## Decoding -/

/-- At most ten characters, which are a number of 64 bits. Go goes through the runes of the string. A byte that is not
ASCII belongs to a rune that is not in the table, or to none, and is refused either way. -/
def chunkTotal : Bytes → Nat → Option Nat
  | [], total => some total
  | v :: t, total =>
    let tmp := b58 v
    if tmp = 255 then none else chunkTotal t (total * 58 + tmp.toNat)

/-- The loop over chunks; every pass takes a character at least. -/
def decodeLoop : Nat → Bytes → Nat → Option Nat
  | 0, _, answer => some answer
  | passes + 1, t, answer =>
    if t = [] then some answer
    else
      let n := if 10 < t.length then 10 else t.length
      match chunkTotal (t.take n) 0 with
      | none => none
      | some total => decodeLoop passes (t.drop n) (answer * bigRadix.getD n 0 + total)

def decode (b : Bytes) : Bytes :=
  match decodeLoop b.length b 0 with
  | none => []
  | some answer =>
    let numZeros := (b.takeWhile (· == alphabetIdx0)).length
    replicate numZeros 0 ++ natBytes answer

/-! ## Encoding -/

/-- `alphabet[d]`. -/
def alphabetAt (d : Nat) : UInt8 := alphabet.getD d 0

/-- The digits of a number below 58^10, with the last one first, for as long as there are any. -/
def lastDigits : Nat → Nat → Bytes
  | 0, _ => []
  | i + 1, m => if m = 0 then [] else alphabetAt (m % 58) :: lastDigits i (m / 58)

/-- Ten digits, with the last one first. -/
def tenDigits : Nat → Nat → Bytes
  | 0, _ => []
  | i + 1, m => alphabetAt (m % 58) :: tenDigits i (m / 58)

/-- The loop of the encoder; every pass makes the number smaller, and there are fewer passes than bytes. -/
def encodeLoop : Nat → Nat → Bytes
  | 0, _ => []
  | passes + 1, x =>
    if x = 0 then []
    else
      let mod := x % bigRadix10
      let x := x / bigRadix10
      if x = 0 then lastDigits 10 mod else tenDigits 10 mod ++ encodeLoop passes x

def encode (b : Bytes) : Bytes :=
  let answer := encodeLoop b.length (beNat b)
  let zeros := replicate (b.takeWhile (· == 0)).length alphabetIdx0
  (answer ++ zeros).reverse

/-! ## With a checksum -/

inductive Base58Error
  | checksum
  | invalidFormat
deriving DecidableEq, Repr

section Check
variable (sha256 : Bytes → FixedBytes 32)

/-- The first four bytes of the hash of the hash. -/
def checksum (input : Bytes) : FixedBytes 4 := FixedBytes.copy 4 (sha256 (sha256 input).bytes).bytes

def checkEncode (input : Bytes) (version : UInt8) : Bytes :=
  let b := version :: input
  encode (b ++ (checksum sha256 b).bytes)

def checkDecode (input : Bytes) : Except Base58Error (Bytes × UInt8) :=
  let decoded := decode input
  if decoded.length < 5 then .error .invalidFormat
  else
    let version := decoded.headD 0
    let cksum := FixedBytes.copy 4 (decoded.drop (decoded.length - 4))
    if checksum sha256 (decoded.take (decoded.length - 4)) ≠ cksum then .error .checksum
    else .ok ((decoded.take (decoded.length - 4)).drop 1, version)

end Check

/-! ## The alphabet -/

theorem b58_alphabetAt : ∀ d < 58, (b58 (alphabetAt d)).toNat = d ∧ b58 (alphabetAt d) ≠ 255 := by decide

theorem alphabetAt_b58 (c : UInt8) : b58 c ≠ 255 → (b58 c).toNat < 58 ∧ alphabetAt (b58 c).toNat = c := by
  apply forall_byte (p := fun c => b58 c ≠ 255 → (b58 c).toNat < 58 ∧ alphabetAt (b58 c).toNat = c)
  decide +kernel

theorem alphabetAt_eq_idx0 : ∀ d < 58, (alphabetAt d == alphabetIdx0) = (d == 0) := by decide

variable {ds : List Nat}

theorem takeWhile_alphabetAt (h : ∀ d ∈ ds, d < 58) :
    ((ds.map alphabetAt).takeWhile (· == alphabetIdx0)).length = leadingZeros ds := by
  induction ds with
  | nil => rfl
  | cons d ds ih =>
    obtain ⟨hd, hds⟩ := forall_mem_cons.mp h
    rw [leadingZeros] at ih ⊢
    rw [map_cons, takeWhile_cons, takeWhile_cons, alphabetAt_eq_idx0 d hd]
    split_ifs
    · rw [length_cons, length_cons, ih hds]
    · rfl

/-! ## What the loops compute -/

theorem chunkTotal_eq_some {t : Bytes} {total r : Nat} : chunkTotal t total = some r ↔
    ∃ ds, (∀ d ∈ ds, d < 58) ∧ t = ds.map alphabetAt ∧ r = total * 58 ^ ds.length + horner 58 ds := by
  induction t generalizing total with
  | nil =>
    constructor
    · intro h
      cases h
      exact ⟨[], forall_mem_nil _, rfl, by simp⟩
    · rintro ⟨ds, -, hmap, rfl⟩
      obtain rfl := map_eq_nil_iff.mp hmap.symm
      simp [chunkTotal]
  | cons c t ih =>
    rw [chunkTotal]
    constructor
    · intro h
      split_ifs at h with hc
      obtain ⟨hlt, hchar⟩ := alphabetAt_b58 c hc
      obtain ⟨ds, hds, rfl, rfl⟩ := ih.mp h
      refine ⟨(b58 c).toNat :: ds, forall_mem_cons.mpr ⟨hlt, hds⟩, by rw [map_cons, hchar], ?_⟩
      rw [horner_cons, length_cons, pow_succ]
      ring
    · rintro ⟨ds, hds, hmap, rfl⟩
      cases ds with
      | nil => cases hmap
      | cons d ds =>
        obtain ⟨rfl, rfl⟩ := List.cons.inj hmap
        obtain ⟨hd, hds⟩ := forall_mem_cons.mp hds
        obtain ⟨hnum, hne⟩ := b58_alphabetAt d hd
        rw [if_neg hne, hnum]
        refine ih.mpr ⟨ds, hds, rfl, ?_⟩
        rw [horner_cons, length_cons, pow_succ]
        ring

theorem bigRadix_getD : ∀ n < 11, 0 < n → bigRadix.getD n 0 = 58 ^ n := by decide

theorem decodeLoop_eq_some {passes : Nat} {t : Bytes} {answer r : Nat} (h : t.length ≤ passes) :
    decodeLoop passes t answer = some r ↔
      ∃ ds, (∀ d ∈ ds, d < 58) ∧ t = ds.map alphabetAt ∧ r = answer * 58 ^ ds.length + horner 58 ds := by
  induction passes generalizing t answer with
  | zero =>
    obtain rfl : t = [] := length_eq_zero_iff.mp (by omega)
    rw [← chunkTotal_eq_some]
    rfl
  | succ passes ih =>
    rw [decodeLoop]
    by_cases ht : t = []
    · subst ht
      rw [if_pos rfl, ← chunkTotal_eq_some]
      rfl
    rw [if_neg ht]
    dsimp only
    generalize hn : (if 10 < t.length then 10 else t.length) = n
    have hpos := length_pos_iff.mpr ht
    have hle : 0 < n ∧ n < 11 ∧ n ≤ t.length := by
      rw [← hn]
      split_ifs <;> omega
    have hdrop : (t.drop n).length ≤ passes := by rw [length_drop]; omega
    constructor
    · intro hrun
      cases hchunk : chunkTotal (t.take n) 0 with
      | none =>
        rw [hchunk] at hrun
        cases hrun
      | some total =>
        rw [hchunk] at hrun
        obtain ⟨ds, hds, htake, rfl⟩ := chunkTotal_eq_some.mp hchunk
        obtain ⟨es, hes, hrest, rfl⟩ := (ih hdrop).mp hrun
        have hlen := congrArg length htake
        rw [length_take_of_le hle.2.2, length_map] at hlen
        refine ⟨ds ++ es, forall_mem_append.mpr ⟨hds, hes⟩, ?_, ?_⟩
        · rw [map_append, ← htake, ← hrest, take_append_drop]
        · rw [horner_append, length_append, pow_add, bigRadix_getD n hle.2.1 hle.1, hlen]
          ring
    · rintro ⟨ds, hds, rfl, rfl⟩
      rw [length_map] at hle
      have htake : (ds.take n).length = n := length_take_of_le hle.2.2
      rw [← map_take, ← map_drop, chunkTotal_eq_some.mpr ⟨ds.take n, fun d hd => hds d (mem_of_mem_take hd), rfl, rfl⟩]
      rw [← map_drop] at hdrop
      refine (ih hdrop).mpr ⟨ds.drop n, fun d hd => hds d (mem_of_mem_drop hd), rfl, ?_⟩
      have hsplit : horner 58 (ds.take n ++ ds.drop n) = _ := horner_append ..
      have hlen := congrArg length (take_append_drop n ds)
      rw [take_append_drop] at hsplit
      rw [length_append, htake] at hlen
      rw [hsplit, ← hlen, pow_add, bigRadix_getD n hle.2.1 hle.1]
      ring

/-- A string of the alphabet is decoded as its zeros and its number. -/
theorem decode_map (h : ∀ d ∈ ds, d < 58) :
    decode (ds.map alphabetAt) = replicate (leadingZeros ds) 0 ++ natBytes (horner 58 ds) := by
  have hloop : decodeLoop (ds.map alphabetAt).length (ds.map alphabetAt) 0 = some (horner 58 ds) :=
    (decodeLoop_eq_some (Nat.le_refl _)).mpr ⟨ds, h, rfl, by rw [Nat.zero_mul, Nat.zero_add]⟩
  rw [decode, hloop]
  rw [takeWhile_alphabetAt h]

theorem lastDigits_eq {i m : Nat} (h : m < 58 ^ i) : lastDigits i m = (Nat.digits 58 m).map alphabetAt := by
  induction i generalizing m with
  | zero =>
    obtain rfl : m = 0 := by simpa using h
    simp [lastDigits]
  | succ i ih =>
    rw [lastDigits]
    split_ifs with hm
    · simp [hm]
    · rw [Nat.digits_def' (by decide) (Nat.pos_of_ne_zero hm), map_cons,
        ih (Nat.div_lt_of_lt_mul (by rw [pow_succ'] at h; exact h))]

theorem tenDigits_eq {i m x : Nat} (h : m < 58 ^ i) (hx : x ≠ 0) :
    tenDigits i m ++ (Nat.digits 58 x).map alphabetAt = (Nat.digits 58 (x * 58 ^ i + m)).map alphabetAt := by
  induction i generalizing m with
  | zero =>
    obtain rfl : m = 0 := by simpa using h
    simp [tenDigits]
  | succ i ih =>
    have hpos : 0 < x * 58 ^ (i + 1) + m :=
      Nat.add_pos_left (Nat.mul_pos (Nat.pos_of_ne_zero hx) (Nat.pow_pos (by decide))) m
    have hmod : (x * 58 ^ (i + 1) + m) % 58 = m % 58 := by
      rw [pow_succ, ← Nat.mul_assoc, Nat.add_comm, Nat.add_mul_mod_self_right]
    have hdiv : (x * 58 ^ (i + 1) + m) / 58 = x * 58 ^ i + m / 58 := by
      rw [pow_succ, ← Nat.mul_assoc, Nat.add_comm, Nat.add_mul_div_right _ _ (by decide), Nat.add_comm]
    rw [Nat.digits_def' (by decide) hpos, hmod, hdiv, map_cons, tenDigits, cons_append,
      ih (Nat.div_lt_of_lt_mul (by rw [pow_succ'] at h; exact h))]

theorem encodeLoop_eq {passes x : Nat} (h : x < bigRadix10 ^ passes) :
    encodeLoop passes x = (Nat.digits 58 x).map alphabetAt := by
  induction passes generalizing x with
  | zero =>
    obtain rfl : x = 0 := by simpa using h
    simp [encodeLoop]
  | succ passes ih =>
    have hmod : x % bigRadix10 < 58 ^ 10 := Nat.mod_lt _ (by decide)
    rw [encodeLoop]
    dsimp only
    split_ifs with hx hdiv
    · simp [hx]
    · have hsmall : x % bigRadix10 = x := Nat.mod_eq_of_lt (Nat.lt_of_div_eq_zero (by decide) hdiv)
      rw [lastDigits_eq hmod, hsmall]
    · have hlt : x / bigRadix10 < bigRadix10 ^ passes := Nat.div_lt_of_lt_mul (by rw [pow_succ'] at h; exact h)
      have hsplit : x / bigRadix10 * 58 ^ 10 + x % bigRadix10 = x := Nat.div_add_mod' x bigRadix10
      rw [ih hlt, tenDigits_eq hmod hdiv, hsplit]

/-- Bytes are encoded as their zeros and their number. -/
theorem encode_eq (b : Bytes) : encode b =
    (replicate (b.takeWhile (· == 0)).length 0 ++ numeral 58 (beNat b)).map alphabetAt := by
  have hlt : beNat b < bigRadix10 ^ b.length :=
    (beNat_lt b).trans_le (Nat.pow_le_pow_left (by decide) _)
  rw [encode, encodeLoop_eq hlt, numeral, reverse_append, reverse_replicate, map_append, map_replicate, map_reverse]
  rfl

theorem digits_lt (z n : Nat) : ∀ d ∈ replicate z 0 ++ numeral 58 n, d < 58 := by
  intro d hd
  rcases mem_append.mp hd with hd | hd
  · rw [eq_of_mem_replicate hd]
    decide
  · exact numeral_lt (by decide) n d hd

theorem decode_encode (b : Bytes) : decode (encode b) = b := by
  rw [encode_eq, decode_map (digits_lt _ _), leadingZeros_replicate_append _ (head_numeral_ne_zero _),
    horner_replicate_zero_append, horner_numeral, ← bytes_eq]

theorem encode_decode_map (h : ∀ d ∈ ds, d < 58) : encode (decode (ds.map alphabetAt)) = ds.map alphabetAt := by
  have hnum : beNat (replicate (leadingZeros ds) 0 ++ natBytes (horner 58 ds)) = horner 58 ds := by
    rw [beNat_append, beNat_replicate_zero, Nat.zero_mul, Nat.zero_add, beNat_natBytes]
  rw [decode_map h, encode_eq, length_takeWhile_replicate_append _ (natBytes_head _), hnum, ← eq_zeros_append_numeral (by decide) h]

theorem encode_decode {s : Bytes} (h : ∀ c ∈ s, c ∈ alphabet) : encode (decode s) = s := by
  have hchar : ∀ c ∈ alphabet, b58 c ≠ 255 := by
    intro c hc
    obtain ⟨d, hd, rfl⟩ := mem_iff_getElem.mp hc
    have hd' := (b58_alphabetAt d hd).2
    rwa [alphabetAt, getD_eq_getElem?_getD, getElem?_eq_getElem hd] at hd'
  have hmap : (s.map fun c => (b58 c).toNat).map alphabetAt = s := by
    rw [map_map]
    exact (map_congr_left fun c hc => (alphabetAt_b58 c (hchar c (h c hc))).2).trans (map_id s)
  rw [← hmap]
  refine encode_decode_map fun d hd => ?_
  obtain ⟨c, hc, rfl⟩ := mem_map.mp hd
  exact (alphabetAt_b58 c (hchar c (h c hc))).1

/-- Only strings of the alphabet are decoded. -/
theorem encode_decode_of_ne_nil {s : Bytes} (h : decode s ≠ []) : encode (decode s) = s := by
  cases hloop : decodeLoop s.length s 0 with
  | none =>
    rw [decode, hloop] at h
    exact absurd rfl h
  | some answer =>
    obtain ⟨ds, hds, rfl, -⟩ := (decodeLoop_eq_some (Nat.le_refl _)).mp hloop
    exact encode_decode_map hds

section CheckLaws
variable {sha256 : Bytes → FixedBytes 32}

theorem checkDecode_eq_ok {s payload : Bytes} {version : UInt8} : checkDecode sha256 s = .ok (payload, version) ↔
      decode s = version :: payload ++ (checksum sha256 (version :: payload)).bytes := by
  rw [checkDecode]
  constructor
  · intro h
    generalize decode s = decoded at h
    dsimp only at h
    split_ifs at h with hlen hsum
    cases h
    have hfour : (decoded.drop (decoded.length - 4)).length = 4 := by rw [length_drop]; omega
    have hbytes := congrArg FixedBytes.bytes (not_not.mp hsum)
    rw [FixedBytes.copy_bytes hfour] at hbytes
    have hcons : decoded.headD 0 :: (decoded.take (decoded.length - 4)).drop 1 = decoded.take (decoded.length - 4) := by
      cases decoded with
      | nil => exact absurd (Nat.zero_lt_succ 4) hlen
      | cons v rest =>
        obtain ⟨n, hn⟩ : ∃ n, (v :: rest).length - 4 = n + 1 := ⟨(v :: rest).length - 5, by omega⟩
        rw [hn]
        rfl
    rw [hcons, hbytes, take_append_drop]
  · intro h
    have hfour := (checksum sha256 (version :: payload)).length_eq
    have hcut : (version :: payload ++ (checksum sha256 (version :: payload)).bytes).length - 4 =
        (version :: payload).length := by
      rw [length_append, hfour]
      omega
    have hlen : ¬ (version :: payload ++ (checksum sha256 (version :: payload)).bytes).length < 5 := by
      rw [length_append, hfour, length_cons]
      omega
    rw [h]
    rw [if_neg hlen, hcut, take_left, drop_left, FixedBytes.copy_self, if_neg (not_not.mpr rfl)]
    rfl

theorem checkDecode_checkEncode (payload : Bytes) (version : UInt8) :
    checkDecode sha256 (checkEncode sha256 payload version) = .ok (payload, version) :=
  checkDecode_eq_ok.mpr (decode_encode _)

end CheckLaws

/-- **Base58 and Base58Check are exact codecs.** -/
theorem exact_codecs (sha256 : Bytes → FixedBytes 32) :
    (∀ b, decode (encode b) = b) ∧ (∀ s : Bytes, (∀ c ∈ s, c ∈ alphabet) → encode (decode s) = s) ∧
      (∀ payload version, checkDecode sha256 (checkEncode sha256 payload version) = .ok (payload, version)) ∧
      ∀ s payload version, checkDecode sha256 s = .ok (payload, version) → s = checkEncode sha256 payload version := by
  refine ⟨decode_encode, fun s => encode_decode, checkDecode_checkEncode, fun s payload version h => ?_⟩
  have hdecode := checkDecode_eq_ok.mp h
  have hne : decode s ≠ [] := by rw [hdecode]; exact cons_ne_nil _ _
  rw [checkEncode, ← hdecode, encode_decode_of_ne_nil hne]

end NogoCommons.Base58
