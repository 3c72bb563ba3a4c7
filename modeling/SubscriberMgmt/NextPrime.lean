import SubscriberMgmt.HashTable
import SubscriberMgmt.Lib.TrialDivision
import Mathlib.Order.Bounds.Defs

/-!
# Prime capacities (`hash_table.c:46-64`)

The loops of `is_prime` and `next_prime` with fuel, and with the exact value of each
addition and product that they compute in `size_t`.
-/

namespace SubscriberMgmt
open TrialDivision

/-! ### The loops -/

/-- The loop of `is_prime` from `i` on; `none` when the fuel does not suffice. -/
def isPrimeRun : ℕ → ℕ → ℕ → Option (Bool × List ℕ)
  | 0, _, _ => none
  | fuel + 1, n, i =>
    if i * i % sizeRange ≤ n then
      if n % i = 0 then some (false, [i * i])
      else (isPrimeRun fuel n ((i + 2) % sizeRange)).map fun r => (r.1, i * i :: (i + 2) :: r.2)
    else some (true, [i * i])

def isPrimeCall (fuel n : ℕ) : Option (Bool × List ℕ) :=
  if n < 2 then some (false, [])
  else if n % 2 = 0 then some (decide (n = 2), [])
  else isPrimeRun fuel n 3

/-- `while (!is_prime(n)) n += 2U;`, with `inner` as the fuel of each test. -/
def nextPrimeRun (inner : ℕ) : ℕ → ℕ → Option (ℕ × List ℕ)
  | 0, _ => none
  | fuel + 1, n =>
    match isPrimeCall inner n with
    | none => none
    | some (true, values) => some (n, values)
    | some (false, values) =>
      (nextPrimeRun inner fuel ((n + 2) % sizeRange)).map fun r =>
        (r.1, values ++ (n + 2) :: r.2)

def nextPrimeCall (inner fuel n : ℕ) : Option (ℕ × List ℕ) :=
  let n := if n < 5 then 5 else n
  if n % 2 = 0 then
    (nextPrimeRun inner fuel ((n + 1) % sizeRange)).map fun r => (r.1, (n + 1) :: r.2)
  else nextPrimeRun inner fuel n

/-! ### Trial division -/

/-- Below its square no product of the loop wraps around. -/
def divisorBound : ℕ := 2 ^ 32 - 1

theorem divisorBound_sq : divisorBound * divisorBound < sizeRange := by decide

section Loop

variable {n i : ℕ}

theorem square_lt (hi : i ≤ divisorBound) : i * i < sizeRange :=
  Nat.lt_of_le_of_lt (Nat.mul_le_mul hi hi) divisorBound_sq

/-- The next divisor of an odd number below the bound is no greater than the bound. -/
theorem next_divisor_le (hn : n < divisorBound * divisorBound) (hodd : i % 2 = 1)
    (hsq : i * i ≤ n) : i + 2 ≤ divisorBound := by
  have hlt : i < divisorBound := Nat.mul_self_lt_mul_self_iff.mp (Nat.lt_of_le_of_lt hsq hn)
  have hbound : divisorBound % 2 = 1 := by decide
  omega

theorem isPrimeLoop_iff (hn : n < divisorBound * divisorBound) (htwo : 2 ≤ n) (hnodd : n % 2 = 1)
    (hi : 3 ≤ i) (hile : i ≤ divisorBound) (hodd : i % 2 = 1) (h : Unrefuted n i) :
    isPrimeLoop n i = true ↔ n.Prime := by
  fun_induction isPrimeLoop n i with
  | case1 i hcond hdvd =>
    rw [Nat.mod_eq_of_lt (square_lt hile)] at hcond
    exact iff_of_false Bool.false_ne_true
      (not_prime_of_dvd hi hcond.1 (Nat.dvd_of_mod_eq_zero hdvd))
  | case2 i hcond hdvd ih =>
    rw [Nat.mod_eq_of_lt (square_lt hile)] at hcond
    exact ih (by omega) (next_divisor_le hn hodd hcond.1) (by omega)
      (h.step hodd fun hd => hdvd (Nat.mod_eq_zero_of_dvd hd))
  | case3 i hcond =>
    rw [Nat.mod_eq_of_lt (square_lt hile)] at hcond
    have hself : i ≤ i * i := Nat.le_mul_self i
    exact iff_of_true rfl (h.prime htwo hnodd (by omega))

theorem isPrime_iff (hn : n < divisorBound * divisorBound) : isPrime n = true ↔ n.Prime := by
  unfold isPrime
  split
  case isTrue hlt =>
    exact iff_of_false Bool.false_ne_true fun hp => Nat.not_le_of_lt hlt hp.two_le
  case isFalse hge =>
    split
    case isTrue heven =>
      rw [decide_eq_true_eq]
      refine ⟨fun h => h ▸ Nat.prime_two, fun hp => hp.eq_two_or_odd.resolve_right (by omega)⟩
    case isFalse hodd =>
      exact isPrimeLoop_iff hn (by omega) (by omega) (Nat.le_refl 3) (by decide) (by decide)
        (Unrefuted.start n)

/-- The loop of the model is the loop of the code, which computes nothing from
`2 ^ 64` on. -/
theorem isPrimeRun_eq {fuel : ℕ} (hn : n < divisorBound * divisorBound) (hi : 3 ≤ i)
    (hile : i ≤ divisorBound) (hodd : i % 2 = 1) (hfuel : divisorBound < i + 2 * fuel) :
    ∃ values, isPrimeRun fuel n i = some (isPrimeLoop n i, values) ∧
      ∀ x ∈ values, x < sizeRange := by
  induction fuel generalizing i with
  | zero => omega
  | succ fuel ih =>
    have hsquare := square_lt hile
    have hself : i ≤ i * i := Nat.le_mul_self i
    rw [isPrimeRun, isPrimeLoop, Nat.mod_eq_of_lt hsquare]
    by_cases hsq : i * i ≤ n
    · have hguard : i * i ≤ n ∧ i ≤ n := ⟨hsq, by omega⟩
      rw [if_pos hsq, if_pos hguard]
      by_cases hdvd : n % i = 0
      · simp only [hdvd, if_true]
        exact ⟨_, rfl, by simpa using hsquare⟩
      · have hnext := next_divisor_le hn hodd hsq
        have hsum : i + 2 < sizeRange := by
          have hbound : divisorBound < sizeRange := by decide
          omega
        obtain ⟨values, hrun, hvalues⟩ := ih (by omega) hnext (by omega) (by omega)
        simp only [hdvd, if_false, Nat.mod_eq_of_lt hsum, hrun]
        refine ⟨_, rfl, fun x hx => ?_⟩
        rcases List.mem_cons.mp hx with rfl | hx
        · exact hsquare
        · rcases List.mem_cons.mp hx with rfl | hx
          · exact hsum
          · exact hvalues x hx
    · have hguard : ¬ (i * i ≤ n ∧ i ≤ n) := fun h => hsq h.1
      rw [if_neg hsq, if_neg hguard]
      exact ⟨_, rfl, by simpa using hsquare⟩

theorem isPrimeCall_eq {fuel : ℕ} (hn : n < divisorBound * divisorBound)
    (hfuel : divisorBound < 3 + 2 * fuel) :
    ∃ values, isPrimeCall fuel n = some (isPrime n, values) ∧ ∀ x ∈ values, x < sizeRange := by
  unfold isPrimeCall isPrime
  split
  · exact ⟨[], rfl, by simp⟩
  · split
    · exact ⟨[], rfl, by simp⟩
    · exact isPrimeRun_eq hn (Nat.le_refl 3) (by decide) (by decide) hfuel

end Loop

/-! ### The next prime -/

section Next

variable {n : ℕ}

theorem le_farPrime_lt (hn : n ≤ farPrime) : n < divisorBound * divisorBound :=
  Nat.lt_of_le_of_lt hn farPrime_lt

/-- An odd number below the far prime that is not prime is followed by another one. -/
theorem next_odd_le (hn : n ≤ farPrime) (hodd : n % 2 = 1) (hp : ¬ n.Prime) :
    n + 2 ≤ farPrime ∧ n + 2 < sizeRange := by
  have hne : n ≠ farPrime := fun h => hp (h ▸ farPrime_prime)
  have hfar := farPrime_odd
  have hbound : farPrime < sizeRange := by decide
  omega

theorem nextPrimeLoop_least (hthree : 3 ≤ n) (hn : n ≤ farPrime) (hodd : n % 2 = 1) :
    IsLeast {p | p.Prime ∧ n ≤ p} (nextPrimeLoop n) := by
  fun_induction nextPrimeLoop n with
  | case1 n hcond ih =>
    have hp : ¬ n.Prime := fun h => by
      rw [(isPrime_iff (le_farPrime_lt hn)).mpr h] at hcond
      cases hcond.2
    obtain ⟨hle, hlt⟩ := next_odd_le hn hodd hp
    rw [Nat.mod_eq_of_lt hlt] at ih ⊢
    obtain ⟨⟨hprime, hge⟩, hleast⟩ := ih (by omega) hle (by omega)
    refine ⟨⟨hprime, by omega⟩, fun q hq => hleast ⟨hq.1, ?_⟩⟩
    -- neither `n` nor the even number after it is a prime
    have hne : q ≠ n := fun h => hp (h ▸ hq.1)
    have hqge : n ≤ q := hq.2
    have hqodd : q % 2 = 1 := hq.1.eq_two_or_odd.resolve_left (by omega)
    omega
  | case2 n hcond =>
    have hlt : n < sizeRange := Nat.lt_trans (le_farPrime_lt hn) divisorBound_sq
    have hp : isPrime n = true := by simpa [hlt] using hcond
    exact ⟨⟨(isPrime_iff (le_farPrime_lt hn)).mp hp, Nat.le_refl n⟩, fun q hq => hq.2⟩

theorem nextPrimeRun_eq {inner fuel : ℕ} (hn : n ≤ farPrime) (hodd : n % 2 = 1)
    (hinner : divisorBound < 3 + 2 * inner) (hfuel : farPrime < n + 2 * fuel) :
    ∃ values, nextPrimeRun inner fuel n = some (nextPrimeLoop n, values) ∧
      ∀ x ∈ values, x < sizeRange := by
  induction fuel generalizing n with
  | zero => omega
  | succ fuel ih =>
    have hlt := le_farPrime_lt hn
    have hsize : n < sizeRange := Nat.lt_trans hlt divisorBound_sq
    obtain ⟨values, hcall, hvalues⟩ := isPrimeCall_eq hlt hinner
    rw [nextPrimeRun, nextPrimeLoop, hcall]
    cases hp : isPrime n with
    | true =>
      rw [if_neg fun h => by cases h.2]
      exact ⟨values, rfl, hvalues⟩
    | false =>
      have hnot : ¬ n.Prime := fun h => by
        rw [(isPrime_iff hlt).mpr h] at hp
        cases hp
      obtain ⟨hle, hsum⟩ := next_odd_le hn hodd hnot
      rw [if_pos ⟨hsize, rfl⟩, Nat.mod_eq_of_lt hsum]
      obtain ⟨rest, hrun, hrest⟩ := ih hle (by omega) (by omega)
      refine ⟨values ++ (n + 2) :: rest, by rw [hrun]; rfl, fun x hx => ?_⟩
      rcases List.mem_append.mp hx with hx | hx
      · exact hvalues x hx
      · rcases List.mem_cons.mp hx with rfl | hx
        · exact hsum
        · exact hrest x hx

def searchStart (n : ℕ) : ℕ :=
  let n := if n < 5 then 5 else n
  if n % 2 = 0 then n + 1 else n

theorem searchStart_spec (n : ℕ) :
    max n 5 ≤ searchStart n ∧ searchStart n ≤ max n 5 + 1 ∧ searchStart n % 2 = 1 ∧
      ∀ p, max n 5 ≤ p → p % 2 = 1 → searchStart n ≤ p := by
  unfold searchStart
  dsimp only
  split <;> split <;> refine ⟨by omega, by omega, by omega, fun p hp hodd => by omega⟩

theorem searchStart_le_farPrime (hn : n < 2 ^ 63) : searchStart n ≤ farPrime := by
  have hstart := searchStart_spec n
  have hfar := two_pow_lt_farPrime
  omega

theorem nextPrime_eq (hn : n < 2 ^ 63) : nextPrime n = nextPrimeLoop (searchStart n) := by
  unfold nextPrime searchStart
  dsimp only
  split <;> split
  · rfl
  · rfl
  · rw [Nat.mod_eq_of_lt (show n + 1 < sizeRange by unfold sizeRange; omega)]
  · rfl

/-- `next_prime` returns the least odd prime from its argument, and from 5, on. -/
theorem nextPrime_isLeast (hn : n < 2 ^ 63) :
    IsLeast {p | p.Prime ∧ Odd p ∧ max n 5 ≤ p} (nextPrime n) := by
  obtain ⟨hge, -, hodd, hmin⟩ := searchStart_spec n
  rw [nextPrime_eq hn]
  obtain ⟨⟨hprime, hle⟩, hleast⟩ := nextPrimeLoop_least (by omega) (searchStart_le_farPrime hn) hodd
  have hout : nextPrimeLoop (searchStart n) % 2 = 1 := hprime.eq_two_or_odd.resolve_left (by omega)
  refine ⟨⟨hprime, Nat.odd_iff.mpr hout, by omega⟩, fun p hp => hleast ⟨hp.1, ?_⟩⟩
  exact hmin p hp.2.2 (Nat.odd_iff.mp hp.2.1)

/-- The search ends with the least odd prime from `n`, and from 5, on, and no addition or
product that it computes wraps around. -/
theorem next_prime_least (n : ℕ) (hn : n < 2 ^ 63) :
    IsLeast {p | p.Prime ∧ Odd p ∧ max n 5 ≤ p} (nextPrime n) ∧
      ∃ inner fuel values, nextPrimeCall inner fuel n = some (nextPrime n, values) ∧
        ∀ x ∈ values, x < sizeRange := by
  refine ⟨nextPrime_isLeast hn, divisorBound, farPrime, ?_⟩
  obtain ⟨hge, -, hodd, -⟩ := searchStart_spec n
  obtain ⟨values, hrun, hvalues⟩ : ∃ values, nextPrimeRun divisorBound farPrime (searchStart n) =
      some (nextPrimeLoop (searchStart n), values) ∧ ∀ x ∈ values, x < sizeRange :=
    nextPrimeRun_eq (searchStart_le_farPrime hn) hodd (by omega) (by omega)
  rw [← nextPrime_eq hn] at hrun
  unfold nextPrimeCall
  unfold searchStart at hrun
  dsimp only at hrun ⊢
  have hfirst : (if n < 5 then 5 else n) + 1 < sizeRange := by
    unfold sizeRange
    split <;> omega
  generalize (if n < 5 then 5 else n) = m at hrun hfirst ⊢
  split
  case isTrue heven =>
    rw [if_pos heven] at hrun
    rw [Nat.mod_eq_of_lt hfirst, hrun]
    refine ⟨(m + 1) :: values, rfl, fun x hx => ?_⟩
    rcases List.mem_cons.mp hx with rfl | hx
    · exact hfirst
    · exact hvalues x hx
  case isFalse hodd' =>
    rw [if_neg hodd'] at hrun
    exact ⟨values, hrun, hvalues⟩

end Next

/-- The next prime from 24 on, after 25 and 27. -/
theorem next_prime_least_24 :
    24 < 2 ^ 63 ∧ nextPrime 24 = 29 ∧
      ∃ inner fuel values, nextPrimeCall inner fuel 24 = some (29, values) ∧
        ∀ x ∈ values, x < sizeRange := by
  have h24 : 24 < 2 ^ 63 := by decide
  obtain ⟨hleast, hrun⟩ := next_prime_least 24 h24
  have hnext : nextPrime 24 = 29 := by
    refine hleast.unique ⟨⟨by norm_num, by decide, by decide⟩, fun p hp => ?_⟩
    obtain ⟨hprime, hodd, hge⟩ := hp
    rw [Nat.max_eq_left (by decide)] at hge
    by_contra hlt
    rw [Nat.not_le] at hlt
    have h25 : ¬ Nat.Prime 25 := by norm_num
    have h27 : ¬ Nat.Prime 27 := by norm_num
    have hodd' := Nat.odd_iff.mp hodd
    have hcases : p = 25 ∨ p = 27 := by omega
    rcases hcases with rfl | rfl
    · exact h25 hprime
    · exact h27 hprime
  rw [hnext] at hrun
  exact ⟨h24, hnext, hrun⟩

end SubscriberMgmt
