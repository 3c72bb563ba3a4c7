import Mathlib.NumberTheory.LucasPrimality
import Mathlib.Tactic.NormNum.Prime
import Mathlib.Tactic.ReduceModChar

/-!
# Primes by trial division

Odd numbers are divided by 3, 5, 7 and so on, up to the square root.
-/

namespace TrialDivision

/-- No odd number from 3 on and below `i` divides `n`. -/
def Unrefuted (n i : ℕ) : Prop := ∀ j, 3 ≤ j → j < i → j % 2 = 1 → ¬ j ∣ n

theorem Unrefuted.start (n : ℕ) : Unrefuted n 3 := fun j hj hlt => by omega

theorem Unrefuted.step {n i : ℕ} (h : Unrefuted n i) (hodd : i % 2 = 1) (hdvd : ¬ i ∣ n) :
    Unrefuted n (i + 2) := by
  intro j hj hlt hjodd
  rcases Nat.lt_trichotomy j i with hlt' | rfl | hgt
  · exact h j hj hlt' hjodd
  · exact hdvd
  · omega

/-- The least divisor of an odd number is odd, and its square is no greater unless the
number is prime. -/
theorem Unrefuted.prime {n i : ℕ} (h : Unrefuted n i) (htwo : 2 ≤ n) (hodd : n % 2 = 1)
    (hsq : n < i * i) : n.Prime := by
  by_contra hn
  have hmin : n.minFac.Prime := Nat.minFac_prime (by omega)
  have hdvd : n.minFac ∣ n := Nat.minFac_dvd n
  have hle : n.minFac * n.minFac ≤ n := by
    rw [← sq]
    exact Nat.minFac_sq_le_self (by omega) hn
  have hne : n.minFac ≠ 2 := fun h2 => by
    rw [h2] at hdvd
    omega
  have hminodd : n.minFac % 2 = 1 := hmin.eq_two_or_odd.resolve_left hne
  have hge : 3 ≤ n.minFac := by
    have h2 := hmin.two_le
    omega
  have hlt : n.minFac < i := Nat.mul_self_lt_mul_self_iff.mp (Nat.lt_of_le_of_lt hle hsq)
  exact h n.minFac hge hlt hminodd hdvd

theorem not_prime_of_dvd {n i : ℕ} (hi : 3 ≤ i) (hsq : i * i ≤ n) (hdvd : i ∣ n) :
    ¬ n.Prime := by
  intro hn
  have hself : i < i * i := Nat.lt_mul_self_iff.mpr (by omega)
  rcases (Nat.dvd_prime hn).mp hdvd with rfl | rfl <;> omega

/-- Above `2 ^ 63`, and below the square of `2 ^ 32 - 1`. -/
def farPrime : ℕ := 71 * 2 ^ 57 + 1

theorem farPrime_lt : farPrime < (2 ^ 32 - 1) * (2 ^ 32 - 1) := by decide

theorem two_pow_lt_farPrime : 2 ^ 63 < farPrime := by decide

theorem farPrime_odd : farPrime % 2 = 1 := by decide

/-- 3 has the order `farPrime - 1`, whose prime factors are 2 and 71. -/
theorem farPrime_prime : farPrime.Prime := by
  have hsub : 71 * 2 ^ 57 + 1 - 1 = 71 * 2 ^ 57 := by decide
  have hfull : (3 : ZMod (71 * 2 ^ 57 + 1)) ^ (71 * 2 ^ 57) = 1 := by
    norm_num
    reduce_mod_char
  have htwo : (3 : ZMod (71 * 2 ^ 57 + 1)) ^ (71 * 2 ^ 57 / 2) ≠ 1 := by
    norm_num
    reduce_mod_char
    decide
  have hother : (3 : ZMod (71 * 2 ^ 57 + 1)) ^ (71 * 2 ^ 57 / 71) ≠ 1 := by
    norm_num
    reduce_mod_char
    decide
  have h71 : Nat.Prime 71 := by norm_num
  unfold farPrime
  refine lucas_primality _ 3 (by rw [hsub]; exact hfull) fun q hq hdvd => ?_
  rw [hsub] at hdvd ⊢
  rcases (Nat.Prime.dvd_mul hq).mp hdvd with hq71 | hqpow
  · rw [(Nat.prime_dvd_prime_iff_eq hq h71).mp hq71]
    exact hother
  · rw [(Nat.prime_dvd_prime_iff_eq hq Nat.prime_two).mp (hq.dvd_of_dvd_pow hqpow)]
    exact htwo

end TrialDivision
