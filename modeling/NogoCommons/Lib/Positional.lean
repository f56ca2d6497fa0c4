import Mathlib.Algebra.Order.Ring.Nat
import Mathlib.Data.Nat.Digits.Lemmas
import Mathlib.Tactic.Ring

/-!
# Digits of a fixed width

Numbers in a base, most significant digit first, in a fixed number of places. `horner` reads such a list and `places` writes
it. The two are inverse to each other (`horner_places`, `places_horner`), and a number that is put together from two parts
is written as the two one after the other (`places_append`). A list of digits of any length is some zeros and a number
without leading zeros (`eq_zeros_append_numeral`). With base 2 these are the bits of a number, and lists of bits
are the same list however they are cut up into numbers; `groups` is the list for numbers of equal width.
-/

namespace NogoCommons.Lib
open List

/-- The number that digits stand for. -/
def horner (base : Nat) (ds : List Nat) : Nat := ds.foldl (fun n d => n * base + d) 0

/-- The last digits of a number. -/
def places (base : Nat) : Nat → Nat → List Nat
  | 0, _ => []
  | w + 1, n => places base w (n / base) ++ [n % base]

variable {base w : Nat}
section

@[simp] theorem horner_nil : horner base [] = 0 := rfl
@[simp] theorem places_width_zero (n : Nat) : places base 0 n = [] := rfl

theorem places_succ (w n : Nat) : places base (w + 1) n = places base w (n / base) ++ [n % base] := rfl

theorem foldl_horner (n : Nat) (ds : List Nat) :
    ds.foldl (fun n d => n * base + d) n = n * base ^ ds.length + horner base ds := by
  induction ds generalizing n with
  | nil => simp
  | cons d ds ih =>
    have hcons : horner base (d :: ds) = (0 * base + d) * base ^ ds.length + horner base ds := ih _
    rw [foldl_cons, ih, hcons, length_cons, pow_succ]
    ring

theorem horner_append (as bs : List Nat) :
    horner base (as ++ bs) = horner base as * base ^ bs.length + horner base bs := by
  rw [horner, foldl_append, foldl_horner]
  rfl

theorem horner_cons (d : Nat) (ds : List Nat) : horner base (d :: ds) = d * base ^ ds.length + horner base ds := by
  rw [horner, foldl_cons, foldl_horner, Nat.zero_mul, Nat.zero_add]

variable {ds : List Nat}

theorem horner_lt (h : ∀ d ∈ ds, d < base) : horner base ds < base ^ ds.length := by
  induction ds with
  | nil => exact Nat.one_pos
  | cons d ds ih =>
    have hd : d + 1 ≤ base := h d mem_cons_self
    have hds := ih fun x hx => h x (mem_cons_of_mem d hx)
    rw [horner_cons, length_cons]
    calc d * base ^ ds.length + horner base ds < d * base ^ ds.length + base ^ ds.length := Nat.add_lt_add_left hds _
      _ = (d + 1) * base ^ ds.length := (Nat.succ_mul ..).symm
      _ ≤ base * base ^ ds.length := Nat.mul_le_mul_right _ hd
      _ = base ^ (ds.length + 1) := (pow_succ' ..).symm

@[simp] theorem length_places (w n : Nat) : (places base w n).length = w := by
  induction w generalizing n with
  | zero => rfl
  | succ w ih => simp [places_succ, ih]

theorem places_lt (h : 0 < base) (w n : Nat) : ∀ d ∈ places base w n, d < base := by
  induction w generalizing n with
  | zero =>
    intro d hd
    cases hd
  | succ w ih =>
    intro d hd
    rcases mem_append.mp hd with hd | hd
    · exact ih _ d hd
    · rw [mem_singleton.mp hd]
      exact Nat.mod_lt _ h

@[simp] theorem places_zero (w : Nat) : places base w 0 = replicate w 0 := by
  induction w with
  | zero => rfl
  | succ w ih => rw [places_succ, Nat.zero_div, ih, Nat.zero_mod, replicate_succ']

theorem horner_places (w n : Nat) : horner base (places base w n) = n % base ^ w := by
  induction w generalizing n with
  | zero => simp [Nat.mod_one]
  | succ w ih =>
    rw [places_succ, horner_append, ih, length_singleton, pow_one, horner_cons, pow_succ', Nat.mod_mul]
    simp
    ring

theorem places_mod (w n : Nat) : places base w (n % base ^ w) = places base w n := by
  induction w generalizing n with
  | zero => rfl
  | succ w ih =>
    rw [places_succ, places_succ, pow_succ', Nat.mod_mul_right_div_self, ih, Nat.mod_mul_right_mod]

/-- A number in two parts is written as the one and the other. -/
theorem places_append (h : 0 < base) (a b x : Nat) {y : Nat} (hy : y < base ^ b) :
    places base (a + b) (x * base ^ b + y) = places base a x ++ places base b y := by
  induction b generalizing y with
  | zero =>
    obtain rfl : y = 0 := by simpa using hy
    simp
  | succ b ih =>
    have hdiv : (x * base ^ (b + 1) + y) / base = x * base ^ b + y / base := by
      rw [pow_succ, ← Nat.mul_assoc, Nat.add_comm, Nat.add_mul_div_right _ _ h, Nat.add_comm]
    have hmod : (x * base ^ (b + 1) + y) % base = y % base := by
      rw [pow_succ, ← Nat.mul_assoc, Nat.add_comm, Nat.add_mul_mod_self_right]
    have hlt : y / base < base ^ b := by
      rw [pow_succ] at hy
      exact Nat.div_lt_of_lt_mul (Nat.mul_comm _ _ ▸ hy)
    rw [← Nat.add_assoc, places_succ, hdiv, hmod, ih hlt, places_succ, append_assoc]

theorem places_horner (h : ∀ d ∈ ds, d < base) : places base ds.length (horner base ds) = ds := by
  induction ds with
  | nil => rfl
  | cons d ds ih =>
    have hd := h d mem_cons_self
    have hds : ∀ x ∈ ds, x < base := fun x hx => h x (mem_cons_of_mem d hx)
    rw [horner_cons, length_cons, Nat.add_comm, places_append (Nat.zero_lt_of_lt hd) _ _ _ (horner_lt hds), ih hds]
    simp [places_succ, Nat.mod_eq_of_lt hd]

theorem places_injective {x y : Nat} (hx : x < base ^ w) (hy : y < base ^ w) (h : places base w x = places base w y) :
    x = y := by
  have hnum := congrArg (horner base) h
  rwa [horner_places, horner_places, Nat.mod_eq_of_lt hx, Nat.mod_eq_of_lt hy] at hnum

end

/-! ## Numbers without leading zeros -/

/-- The digits of a number, as many as it has. -/
def numeral (base n : Nat) : List Nat := (Nat.digits base n).reverse

/-- The zeros that a list of digits begins with. -/
def leadingZeros (ds : List Nat) : Nat := (ds.takeWhile (· == 0)).length

section

theorem horner_eq_ofDigits (ds : List Nat) : horner base ds = Nat.ofDigits base ds.reverse := by
  induction ds with
  | nil => rfl
  | cons d ds ih =>
    rw [horner_cons, reverse_cons, Nat.ofDigits_append, Nat.ofDigits_singleton, ← ih, length_reverse]
    ring

theorem horner_numeral (n : Nat) : horner base (numeral base n) = n := by
  rw [horner_eq_ofDigits, numeral, reverse_reverse, Nat.ofDigits_digits]

theorem horner_replicate_zero_append (z : Nat) (ds : List Nat) :
    horner base (replicate z 0 ++ ds) = horner base ds := by
  induction z with
  | zero => rfl
  | succ z ih => rw [replicate_succ, cons_append, horner_cons, Nat.zero_mul, Nat.zero_add, ih]

theorem numeral_lt (h : 1 < base) (n : Nat) : ∀ d ∈ numeral base n, d < base := by
  intro d hd
  exact Nat.digits_lt_base h (mem_reverse.mp hd)

theorem head_numeral_ne_zero (n : Nat) : (numeral base n).head? ≠ some 0 := by
  intro h
  rw [numeral, head?_reverse] at h
  by_cases hn : n = 0
  · rw [hn, Nat.digits_zero] at h
    cases h
  · have hne : Nat.digits base n ≠ [] := Nat.digits_ne_nil_iff_ne_zero.mpr hn
    rw [getLast?_eq_some_getLast hne] at h
    exact Nat.getLast_digit_ne_zero base hn (Option.some.inj h)

theorem length_takeWhile_replicate_append {α : Type} [BEq α] [LawfulBEq α] {a : α} {as : List α} (z : Nat)
    (h : as.head? ≠ some a) : ((replicate z a ++ as).takeWhile (· == a)).length = z := by
  have hnil : as.takeWhile (· == a) = [] := by
    cases as with
    | nil => rfl
    | cons b as =>
      have hb : (b == a) = false := beq_false_of_ne fun hb => h (congrArg some hb)
      simp [hb]
  simp [hnil]

theorem leadingZeros_replicate_append (z : Nat) (h : ds.head? ≠ some 0) : leadingZeros (replicate z 0 ++ ds) = z :=
  length_takeWhile_replicate_append z h

/-- Digits are zeros and the number they stand for. -/
theorem eq_zeros_append_numeral (hbase : 1 < base) (h : ∀ d ∈ ds, d < base) :
    ds = replicate (leadingZeros ds) 0 ++ numeral base (horner base ds) := by
  induction ds with
  | nil => simp [leadingZeros, numeral]
  | cons d ds ih =>
    by_cases hd : d = 0
    · subst hd
      have hzeros : leadingZeros (0 :: ds) = leadingZeros ds + 1 := rfl
      rw [hzeros, replicate_succ, horner_cons, Nat.zero_mul, Nat.zero_add, cons_append,
        ← ih fun x hx => h x (mem_cons_of_mem 0 hx)]
    · have hzeros : leadingZeros (d :: ds) = 0 := by simp [leadingZeros, hd]
      rw [hzeros, replicate_zero, nil_append, numeral, horner_eq_ofDigits, Nat.digits_ofDigits base hbase,
        reverse_reverse]
      · intro x hx
        exact h x (mem_reverse.mp hx)
      · intro hne
        rwa [getLast_reverse]

/-- The digits of a number, if it is known how many there are. -/
theorem numeral_eq_places {n : Nat} (hbase : 1 < base) (h : base ^ w ≤ n) (h' : n < base ^ (w + 1)) :
    numeral base n = places base (w + 1) n := by
  have hplaces := eq_zeros_append_numeral hbase (places_lt (Nat.zero_lt_of_lt hbase) (w + 1) n)
  rw [horner_places, Nat.mod_eq_of_lt h'] at hplaces
  have hlen := congrArg length hplaces
  rw [length_places, length_append, length_replicate] at hlen
  have hlong : w < (numeral base n).length := by
    rw [numeral, length_reverse]
    exact (Nat.pow_lt_pow_iff_right hbase).mp (h.trans_lt (Nat.lt_base_pow_length_digits hbase))
  have hzeros : leadingZeros (places base (w + 1) n) = 0 := by omega
  rw [hzeros] at hplaces
  exact hplaces.symm

/-- The first digits of a number. -/
theorem take_numeral {m n : Nat} (hbase : 1 < base) (h : base ≤ n / base ^ m) (h' : n / base ^ m < base ^ 2) :
    (numeral base n).take 2 = places base 2 (n / base ^ m) := by
  have hpos : 0 < base ^ m := Nat.pow_pos (Nat.zero_lt_of_lt hbase)
  have hlow : base ^ (m + 1) ≤ n := by
    rw [pow_succ']
    exact (Nat.le_div_iff_mul_le hpos).mp h
  have hhigh : n < base ^ (m + 1 + 1) := by
    rw [show m + 1 + 1 = 2 + m by omega, pow_add]
    exact (Nat.div_lt_iff_lt_mul hpos).mp h'
  have hsplit := places_append (Nat.zero_lt_of_lt hbase) 2 m (n / base ^ m) (Nat.mod_lt n hpos)
  rw [Nat.div_add_mod'] at hsplit
  rw [numeral_eq_places hbase hlow hhigh, show m + 1 + 1 = 2 + m by omega, hsplit, take_left' (length_places 2 _)]

end

/-! ## Numbers of equal width -/

/-- The digits of numbers of a width, one after the other. -/
def groups (base w : Nat) (ns : List Nat) : List Nat := ns.flatMap (places base w)

section

@[simp] theorem groups_nil : groups base w [] = [] := rfl

@[simp] theorem groups_cons (n : Nat) (ns : List Nat) : groups base w (n :: ns) = places base w n ++ groups base w ns :=
  flatMap_cons

@[simp] theorem groups_append (as bs : List Nat) : groups base w (as ++ bs) = groups base w as ++ groups base w bs :=
  flatMap_append

@[simp] theorem length_groups (ns : List Nat) : (groups base w ns).length = w * ns.length := by
  induction ns with
  | nil => rfl
  | cons n ns ih =>
    rw [groups_cons, length_append, length_places, ih, length_cons]
    ring

/-- What the digits begin with determines the numbers, as far as they go. -/
theorem groups_injective {as bs : List Nat} {u v : List Nat} (has : ∀ n ∈ as, n < base ^ w) (hbs : ∀ n ∈ bs, n < base ^ w)
    (hlen : as.length = bs.length) (h : groups base w as ++ u = groups base w bs ++ v) : as = bs ∧ u = v := by
  induction as generalizing bs with
  | nil =>
    obtain rfl := length_eq_zero_iff.mp hlen.symm
    exact ⟨rfl, h⟩
  | cons a as ih =>
    cases bs with
    | nil => cases hlen
    | cons b bs =>
      rw [groups_cons, groups_cons, append_assoc, append_assoc] at h
      obtain ⟨hab, hrest⟩ := append_inj h (by simp)
      obtain ⟨rfl, huv⟩ := ih (fun n hn => has n (mem_cons_of_mem a hn))
        (fun n hn => hbs n (mem_cons_of_mem b hn)) (Nat.succ.inj hlen) hrest
      obtain rfl := places_injective (has a mem_cons_self) (hbs b mem_cons_self) hab
      exact ⟨rfl, huv⟩

end
end NogoCommons.Lib
