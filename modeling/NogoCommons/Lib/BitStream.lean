import NogoCommons.Lib.Bytes
import NogoCommons.Lib.Positional

/-!
# Bit streams and Golomb codes

A queue of bits is written to and then handed out as whole bytes, the first bit highest, with zeros in what is left of the
last byte (`unpackBits_packBits`). A number is written into it as a quotient in unary, closed by a zero, and a remainder of
`p` bits, and read back whatever follows (`readGolomb_append`). A run of zeros reads as zeros for as long as it lasts
(`readGolomb_zeros`), which is why the padding adds nothing but repetitions to a list of differences.
-/

namespace NogoCommons.Lib
open List

/-- The last `w` bits of a number, the highest first. -/
def lowBits (w n : Nat) : List Bool := (places 2 w n).map (· == 1)

/-- The number that bits stand for. -/
def ofBits (bits : List Bool) : Nat := horner 2 (bits.map Bool.toNat)
@[simp] theorem length_lowBits (w n : Nat) : (lowBits w n).length = w := by rw [lowBits, length_map, length_places]

theorem map_toNat_lowBits (w n : Nat) : (lowBits w n).map Bool.toNat = places 2 w n := by
  rw [lowBits, map_map]
  refine (map_congr_left fun d hd => ?_).trans (map_id _)
  have hlt := places_lt Nat.two_pos w n d hd
  interval_cases d <;> rfl

theorem ofBits_lowBits (w n : Nat) : ofBits (lowBits w n) = n % 2 ^ w := by
  rw [ofBits, map_toNat_lowBits, horner_places]

theorem toNat_lt_two (bits : List Bool) : ∀ d ∈ bits.map Bool.toNat, d < 2 := by
  intro d hd
  obtain ⟨b, -, rfl⟩ := mem_map.mp hd
  exact Bool.toNat_lt b

theorem ofBits_lt (bits : List Bool) : ofBits bits < 2 ^ bits.length := by
  have := horner_lt (toNat_lt_two bits)
  rwa [length_map] at this

theorem lowBits_ofBits (bits : List Bool) : lowBits bits.length (ofBits bits) = bits := by
  have hplaces := places_horner (toNat_lt_two bits)
  rw [length_map] at hplaces
  rw [lowBits, ofBits, hplaces, map_map]
  refine (map_congr_left fun b _ => ?_).trans (map_id _)
  cases b <;> rfl

@[simp] theorem ofBits_replicate_false (k : Nat) : ofBits (replicate k false) = 0 := by
  have h := ofBits_lowBits k 0
  rwa [lowBits, places_zero, map_replicate, Nat.zero_mod] at h

/-! ## Bytes -/

def byteOf (bits : List Bool) : UInt8 := UInt8.ofNat (ofBits bits)

/-- The bytes of a writer. -/
def packBits : List Bool → Bytes
  | [] => []
  | a :: b :: c :: d :: e :: f :: g :: h :: rest => byteOf [a, b, c, d, e, f, g, h] :: packBits rest
  | bits => [byteOf (bits ++ replicate (8 - bits.length) false)]

/-- The bits of a reader. -/
def unpackBits (bytes : Bytes) : List Bool := bytes.flatMap fun b => lowBits 8 b.toNat

theorem lowBits_byteOf {bits : List Bool} (h : bits.length = 8) : lowBits 8 (byteOf bits).toNat = bits := by
  have hlt := ofBits_lt bits
  rw [h] at hlt
  have hnat : (byteOf bits).toNat = ofBits bits := by
    rw [byteOf, UInt8.toNat_ofNat']
    exact Nat.mod_eq_of_lt hlt
  rw [hnat, ← h, lowBits_ofBits]

theorem unpackBits_packBits (bits : List Bool) :
    ∃ k, unpackBits (packBits bits) = bits ++ replicate k false := by
  fun_induction packBits bits with
  | case1 => exact ⟨0, rfl⟩
  | case2 a b c d e f g h rest ih =>
    obtain ⟨k, hrest⟩ := ih
    refine ⟨k, ?_⟩
    rw [unpackBits, flatMap_cons, lowBits_byteOf rfl]
    rw [unpackBits] at hrest
    rw [hrest]
    rfl
  | case3 bits hnil hlong =>
    -- what is left is one to seven bits
    have hlt : bits.length < 8 := by
      rcases bits with _ | ⟨a, _ | ⟨b, _ | ⟨c, _ | ⟨d, _ | ⟨e, _ | ⟨f, _ | ⟨g, _ | ⟨h, rest⟩⟩⟩⟩⟩⟩⟩⟩
      case cons.cons.cons.cons.cons.cons.cons.cons => exact absurd rfl (hlong a b c d e f g h rest)
      all_goals
        simp only [length_cons, length_nil]
        decide
    refine ⟨8 - bits.length, ?_⟩
    rw [unpackBits, flatMap_singleton, lowBits_byteOf]
    rw [length_append, length_replicate]
    omega

/-! ## Reading -/

/-- Some bits as a number; nothing if there are too few. -/
def readBits (n : Nat) (bits : List Bool) : Option (Nat × List Bool) :=
  if bits.length < n then none else some (ofBits (bits.take n), bits.drop n)

/-- The ones before the first zero, which is taken with them. -/
def readUnary : List Bool → Option (Nat × List Bool)
  | [] => none
  | false :: rest => some (0, rest)
  | true :: rest =>
    match readUnary rest with
    | none => none
    | some (q, rest) => some (q + 1, rest)

theorem readBits_append (w : Nat) {n : Nat} (hn : n < 2 ^ w) (rest : List Bool) :
    readBits w (lowBits w n ++ rest) = some (n, rest) := by
  have hlen := length_lowBits w n
  rw [readBits, if_neg (by rw [length_append, hlen]; omega), take_left' hlen, drop_left' hlen, ofBits_lowBits,
    Nat.mod_eq_of_lt hn]

theorem readUnary_append (q : Nat) (rest : List Bool) :
    readUnary (replicate q true ++ false :: rest) = some (q, rest) := by
  induction q with
  | zero => rfl
  | succ q ih => rw [replicate_succ, cons_append, readUnary, ih]

/-- A number as a quotient and a remainder of `p` bits. -/
def golomb (p n : Nat) : List Bool := replicate (n / 2 ^ p) true ++ false :: lowBits p n

def readGolomb (p : Nat) (bits : List Bool) : Option (Nat × List Bool) :=
  match readUnary bits with
  | none => none
  | some (q, rest) =>
    match readBits p rest with
    | none => none
    | some (r, rest) => some (q * 2 ^ p + r, rest)

theorem lowBits_mod (w n : Nat) : lowBits w (n % 2 ^ w) = lowBits w n := by rw [lowBits, places_mod, lowBits]

theorem readGolomb_append (p n : Nat) (rest : List Bool) : readGolomb p (golomb p n ++ rest) = some (n, rest) := by
  have hunary : readUnary (golomb p n ++ rest) = some (n / 2 ^ p, lowBits p (n % 2 ^ p) ++ rest) := by
    rw [golomb, append_assoc, cons_append, readUnary_append, lowBits_mod]
  rw [readGolomb, hunary]
  dsimp only
  rw [readBits_append p (Nat.mod_lt _ (Nat.two_pow_pos p))]
  dsimp only
  rw [Nat.div_add_mod']

theorem length_readUnary {bits rest : List Bool} {q : Nat} (h : readUnary bits = some (q, rest)) :
    rest.length < bits.length := by
  induction bits generalizing q with
  | nil => cases h
  | cons b bits ih =>
    cases b with
    | false =>
      cases h
      exact Nat.lt_succ_self _
    | true =>
      rw [readUnary] at h
      cases hread : readUnary bits with
      | none =>
        rw [hread] at h
        cases h
      | some qr =>
        rw [hread] at h
        cases h
        exact Nat.lt_succ_of_lt (ih hread)

/-- Zeros read as zero, or as nothing. -/
theorem readGolomb_zeros (p k : Nat) : readGolomb p (replicate k false) = none ∨
      ∃ j, j < k ∧ readGolomb p (replicate k false) = some (0, replicate j false) := by
  cases k with
  | zero => exact .inl rfl
  | succ k =>
    rw [replicate_succ, readGolomb, readUnary]
    dsimp only
    rw [readBits]
    split_ifs with hlt
    · exact .inl rfl
    · refine .inr ⟨k - p, by omega, ?_⟩
      rw [take_replicate, ofBits_replicate_false, drop_replicate, Nat.zero_mul]

end NogoCommons.Lib
