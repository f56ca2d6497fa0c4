import Mathlib.Data.ZMod.Basic
import Mathlib.Data.List.Prime
import Mathlib.GroupTheory.OrderOfElement
import Mathlib.FieldTheory.Finite.Basic

/-!
# Primality from part of a factorisation

Pocklington's test: `n` is prime when some `a` has `a ^ (n - 1) = 1` modulo `n` and `a ^ ((n - 1) / q) - 1` is invertible
for every prime `q` of a divisor `f` of `n - 1` that is larger than the square root of `n`. Every prime `r` of `n` then has
an element of an order that `f` divides, so that `r` is above `f`.

`test` is the check on numbers, by square and multiply, so that the kernel evaluates it for a prime of hundreds of bits.
-/

namespace NogoCommons.Lib.Primality

/-- `a ^ n` modulo `m` for an `n` of that many bits. -/
def powMod (m : ℕ) : ℕ → ℕ → ℕ → ℕ
  | 0, _, _ => 1 % m
  | bits + 1, a, n =>
    let r := powMod m bits (a * a % m) (n / 2)
    if n % 2 = 1 then r * a % m else r

theorem powMod_cast (m : ℕ) : ∀ bits a n : ℕ, n < 2 ^ bits → (powMod m bits a n : ZMod m) = (a : ZMod m) ^ n := by
  intro bits
  induction bits with
  | zero =>
    intro a n hn
    obtain rfl : n = 0 := by simpa using hn
    simp [powMod]
  | succ bits ih =>
    intro a n hn
    have hhalf : n / 2 < 2 ^ bits := by
      rw [pow_succ] at hn
      omega
    have hr : (powMod m bits (a * a % m) (n / 2) : ZMod m) = (a : ZMod m) ^ (2 * (n / 2)) := by
      rw [ih _ _ hhalf, ZMod.natCast_mod, Nat.cast_mul, pow_mul, sq]
    rw [powMod]
    split_ifs with hodd
    · rw [ZMod.natCast_mod, Nat.cast_mul, hr, ← pow_succ]
      congr 1
      omega
    · rw [hr]
      congr 1
      omega

/-- An element whose powers are not `1` at `N / q`, for the primes `q` of a divisor `f` of `N`, has an order that `f`
divides. -/
theorem dvd_orderOf {G : Type*} [Monoid G] {a : G} {N f : ℕ} (hf : f ∣ N) (ha : a ^ N = 1)
    (hd : ∀ q, q.Prime → q ∣ f → a ^ (N / q) ≠ 1) : f ∣ orderOf a := by
  obtain ⟨m, hm⟩ := orderOf_dvd_of_pow_eq_one ha
  -- the cofactor of the order has no prime of `f`, since that prime could be taken off the exponent
  have hcop : Nat.Coprime f m := by
    refine Nat.coprime_of_dvd fun q hq hqf hqm => hd q hq hqf ?_
    obtain ⟨m', rfl⟩ := hqm
    have hquot : N / q = orderOf a * m' := by
      rw [hm, Nat.mul_left_comm, Nat.mul_div_cancel_left _ hq.pos]
    rw [hquot, pow_mul, pow_orderOf_eq_one, one_pow]
  exact hcop.dvd_of_dvd_mul_right (hm ▸ hf)

theorem pocklington {n f : ℕ} (a : ZMod n) (h2 : 2 ≤ n) (hf : f ∣ n - 1) (hn : n < (f + 1) ^ 2)
    (ha : a ^ (n - 1) = 1) (hd : ∀ q, q.Prime → q ∣ f → IsUnit (a ^ ((n - 1) / q) - 1)) : n.Prime := by
  by_contra hnp
  have hr : n.minFac.Prime := Nat.minFac_prime (by omega)
  have : Fact n.minFac.Prime := ⟨hr⟩
  let φ := ZMod.castHom (Nat.minFac_dvd n) (ZMod n.minFac)
  have hφ : φ a ^ (n - 1) = 1 := by rw [← map_pow, ha, map_one]
  have hord : f ∣ orderOf (φ a) := by
    refine dvd_orderOf hf hφ fun q hq hqf heq => ?_
    have hunit : IsUnit (φ (a ^ ((n - 1) / q) - 1)) := (hd q hq hqf).map φ
    rw [map_sub, map_pow, heq, map_one, sub_self] at hunit
    exact not_isUnit_zero hunit
  have hne : φ a ≠ 0 := by
    intro h0
    rw [h0, zero_pow (by omega)] at hφ
    exact zero_ne_one hφ
  have hle : f ≤ n.minFac - 1 :=
    Nat.le_of_dvd (Nat.sub_pos_of_lt hr.one_lt) (hord.trans (orderOf_dvd_of_pow_eq_one (ZMod.pow_card_sub_one_eq_one hne)))
  have hsq := Nat.minFac_sq_le_self (by omega) hnp
  have hlt : (f + 1) ^ 2 ≤ n.minFac ^ 2 := Nat.pow_le_pow_left (by have := hr.two_le; omega) 2
  omega

/-- The test for `n` with base `a`, where `qs` are primes of `n - 1`. -/
def test (bits n a : ℕ) (qs : List ℕ) : Bool :=
  2 ≤ n && n ≤ 2 ^ bits && (n - 1) % qs.prod == 0 && n < (qs.prod + 1) ^ 2 && powMod n bits a (n - 1) == 1 &&
    qs.all fun q => Nat.gcd (powMod n bits a ((n - 1) / q) + (n - 1)) n == 1

theorem prime_of_test (bits : ℕ) {n : ℕ} (a : ℕ) (qs : List ℕ) (hqs : ∀ q ∈ qs, q.Prime) (h : test bits n a qs = true) :
    n.Prime := by
  simp only [test, Bool.and_eq_true, decide_eq_true_eq, beq_iff_eq, List.all_eq_true] at h
  obtain ⟨⟨⟨⟨⟨h2, hbits⟩, hdvd⟩, hlt⟩, hpow⟩, hgcd⟩ := h
  have hexp : ∀ k, k ≤ n - 1 → k < 2 ^ bits := fun k hk => by omega
  refine pocklington (a : ZMod n) h2 (Nat.dvd_of_mod_eq_zero hdvd) hlt ?_ fun q hq hqf => ?_
  · rw [← powMod_cast n bits a _ (hexp _ le_rfl), hpow, Nat.cast_one]
  · obtain ⟨q', hmem, hqq⟩ := (Prime.dvd_prod_iff hq.prime).mp hqf
    obtain rfl : q = q' := (Nat.prime_dvd_prime_iff_eq hq (hqs q' hmem)).mp hqq
    have hminus : ((n - 1 : ℕ) : ZMod n) = -1 := by
      rw [Nat.cast_sub (by omega), ZMod.natCast_self, Nat.cast_one, zero_sub]
    have hunit := (ZMod.isUnit_iff_coprime _ n).mpr (hgcd q hmem)
    rwa [Nat.cast_add, powMod_cast n bits a _ (hexp _ (Nat.div_le_self ..)), hminus, ← sub_eq_add_neg] at hunit

end NogoCommons.Lib.Primality
