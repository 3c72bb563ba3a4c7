import Mathlib.Data.List.Prime
import Mathlib.Dynamics.PeriodicPts.Defs
import Mathlib.Tactic.Ring
import SubscriberMgmt.Lib.XorShift

/-!
# The period of an xor-linear map

A word is read as a polynomial over the field of two elements, bit `i` as the
coefficient of `x ^ i`, and acts on the states of a map `f` with `x` as `f`. Where `f`
to the width is the action of a polynomial `m`, products modulo `x ^ w + m` act as
compositions, so that a period is a computation on polynomials.
-/

namespace LinearPeriod

open XorShift (Linear)
open Function (IsPeriodicPt minimalPeriod)

variable {w : ℕ}

/-! ### The action of a polynomial -/

/-- The polynomial of the lowest `n` bits of `a`, with `f` for the variable, at `v`. -/
def act (f : BitVec w → BitVec w) : ℕ → BitVec w → BitVec w → BitVec w
  | 0, _, _ => 0
  | n + 1, a, v => (if a.getLsbD 0 then v else 0) ^^^ act f n (a >>> 1) (f v)

theorem act_zero (f : BitVec w → BitVec w) (n : ℕ) (v : BitVec w) : act f n 0 v = 0 := by
  induction n generalizing v with
  | zero => rfl
  | succ n ih =>
    have hshift : (0 : BitVec w) >>> 1 = 0 := BitVec.zero_ushiftRight
    rw [act, hshift, ih]
    simp

theorem act_xor (f : BitVec w → BitVec w) (n : ℕ) (a b v : BitVec w) :
    act f n (a ^^^ b) v = act f n a v ^^^ act f n b v := by
  induction n generalizing a b v with
  | zero => exact BitVec.xor_self.symm
  | succ n ih =>
    rw [act, act, act, BitVec.ushiftRight_xor_distrib, ih, XorShift.xor_regroup]
    congr 1
    rw [BitVec.getLsbD_xor]
    cases a.getLsbD 0 <;> cases b.getLsbD 0 <;> simp

theorem act_linear {f : BitVec w → BitVec w} (hf : Linear f) (n : ℕ) (a : BitVec w) :
    Linear (act f n a) := by
  intro u v
  induction n generalizing a u v with
  | zero => exact BitVec.xor_self.symm
  | succ n ih =>
    rw [act, act, act, hf, ih, XorShift.xor_regroup]
    congr 1
    cases a.getLsbD 0 <;> simp

theorem act_map {f : BitVec w → BitVec w} (hf : Linear f) (n : ℕ) (a v : BitVec w) :
    f (act f n a v) = act f n a (f v) := by
  induction n generalizing a v with
  | zero => exact hf.zero
  | succ n ih =>
    rw [act, act, hf, ih]
    cases a.getLsbD 0 with
    | true => rfl
    | false => exact congrArg (· ^^^ _) hf.zero

theorem act_congr (f : BitVec w → BitVec w) {n : ℕ} {a b : BitVec w}
    (h : ∀ i < n, a.getLsbD i = b.getLsbD i) (v : BitVec w) : act f n a v = act f n b v := by
  induction n generalizing a b v with
  | zero => rfl
  | succ n ih =>
    have htail : ∀ i < n, (a >>> 1).getLsbD i = (b >>> 1).getLsbD i := by
      intro i hi
      rw [BitVec.getLsbD_ushiftRight, BitVec.getLsbD_ushiftRight]
      exact h (1 + i) (by omega)
    rw [act, act, h 0 (by omega), ih htail]

/-- The leading coefficient apart. -/
theorem act_succ (f : BitVec w → BitVec w) (n : ℕ) (a v : BitVec w) :
    act f (n + 1) a v = act f n a v ^^^ (if a.getLsbD n then f^[n] v else 0) := by
  induction n generalizing a v with
  | zero => simp [act]
  | succ n ih =>
    rw [act, ih, act, BitVec.getLsbD_ushiftRight, Nat.add_comm 1 n, ← Function.iterate_succ_apply,
      BitVec.xor_assoc]

/-! ### Products modulo the polynomial of the map -/

/-- `x` times `a`, reduced by `x ^ w = m`. -/
def mulX (m a : BitVec w) : BitVec w := (a <<< 1) ^^^ (if a.msb then m else 0)

def mul (m a b : BitVec w) : BitVec w := act (mulX m) w a b

/-- `f` to the width acts as the polynomial `m`. -/
def Reduces (f : BitVec w → BitVec w) (m : BitVec w) : Prop := ∀ v, f^[w] v = act f w m v

theorem act_shift (f : BitVec w → BitVec w) {n : ℕ} (hn : n + 1 ≤ w) (a v : BitVec w) :
    act f (n + 1) (a <<< 1) v = act f n a (f v) := by
  have hlow : ((a <<< 1).getLsbD 0) = false := by simp
  have htail : ∀ i < n, ((a <<< 1) >>> 1).getLsbD i = a.getLsbD i := by
    intro i hi
    have hin : 1 + i < w := by omega
    have hpos : ¬1 + i < 1 := by omega
    rw [BitVec.getLsbD_ushiftRight, BitVec.getLsbD_shiftLeft, Nat.add_sub_cancel_left]
    simp [hin, hpos]
  rw [act, hlow, act_congr f htail]
  simp

theorem act_mulX {f : BitVec w → BitVec w} (hf : Linear f) {m : BitVec w} (hm : Reduces f m)
    (a v : BitVec w) : act f w (mulX m a) v = f (act f w a v) := by
  obtain _ | n := w
  · exact Subsingleton.elim _ _
  · rw [mulX, act_xor, act_shift f (Nat.le_refl _), act_map hf, act_succ f n a (f v),
      ← Function.iterate_succ_apply, hm]
    congr 1
    rw [BitVec.msb_eq_getLsbD_last]
    show act f (n + 1) (if a.getLsbD n = true then m else 0) v = _
    cases a.getLsbD n with
    | true => rfl
    | false => exact act_zero f _ v

theorem act_act {f : BitVec w → BitVec w} (hf : Linear f) {m : BitVec w} (hm : Reduces f m)
    (n : ℕ) (a b v : BitVec w) :
    act f w (act (mulX m) n a b) v = act f n a (act f w b v) := by
  induction n generalizing a b with
  | zero => exact act_zero f w v
  | succ n ih =>
    rw [act, act, act_xor, ih, act_mulX hf hm]
    congr 1
    cases a.getLsbD 0 with
    | true => rfl
    | false => exact act_zero f w v

theorem act_mul {f : BitVec w → BitVec w} (hf : Linear f) {m : BitVec w} (hm : Reduces f m)
    (a b v : BitVec w) : act f w (mul m a b) v = act f w a (act f w b v) :=
  act_act hf hm w a b v

theorem act_one {f : BitVec w → BitVec w} (v : BitVec w) : act f w 1 v = v := by
  obtain _ | n := w
  · exact Subsingleton.elim _ _
  · have hshift : (1 : BitVec (n + 1)) >>> 1 = 0 := by
      refine BitVec.eq_of_getLsbD_eq fun i hi => ?_
      simp [BitVec.getLsbD_ushiftRight, BitVec.getLsbD_one]
    rw [act, hshift, act_zero]
    simp

/-- The polynomial `x` acts as the map itself. -/
theorem act_x {f : BitVec w → BitVec w} (hf : Linear f) {m : BitVec w} (hm : Reduces f m)
    (v : BitVec w) : act f w (mulX m 1) v = f v := by
  rw [act_mulX hf hm, act_one]

/-- `a` to the power `k` by repeated squaring, for `k` of `n` bits. -/
def power (m : BitVec w) : ℕ → ℕ → BitVec w → BitVec w
  | 0, _, _ => 1
  | n + 1, k, a =>
    if k % 2 = 1 then mul m a (power m n (k / 2) (mul m a a))
    else power m n (k / 2) (mul m a a)

theorem act_power {f : BitVec w → BitVec w} (hf : Linear f) {m : BitVec w} (hm : Reduces f m)
    {n k : ℕ} (hk : k < 2 ^ n) (a v : BitVec w) :
    act f w (power m n k a) v = (act f w a)^[k] v := by
  induction n generalizing k a v with
  | zero =>
    obtain rfl : k = 0 := by omega
    exact act_one v
  | succ n ih =>
    have hhalf : k / 2 < 2 ^ n := by omega
    have hsquare : act f w (mul m a a) = (act f w a)^[2] := by
      funext u
      exact act_mul hf hm a a u
    have heven : act f w (power m n (k / 2) (mul m a a)) v = (act f w a)^[2 * (k / 2)] v := by
      rw [ih hhalf, hsquare, ← Function.iterate_mul]
    rw [power]
    split
    case isTrue hodd =>
      rw [act_mul hf hm, heven, ← Function.iterate_succ_apply' (act f w a)]
      congr 2
      omega
    case isFalse hodd =>
      rw [heven]
      congr 2
      omega

/-- The `k`-th iterate, computed as a power of `x`. -/
theorem act_powerX {f : BitVec w → BitVec w} (hf : Linear f) {m : BitVec w} (hm : Reduces f m)
    {k : ℕ} (hk : k < 2 ^ w) (v : BitVec w) : act f w (power m w k (mulX m 1)) v = f^[k] v := by
  have hx : act f w (mulX m 1) = f := funext (act_x hf hm)
  rw [act_power hf hm hk, hx]

/-! ### The period -/

/-- What shows that no state but zero returns after `k` steps: an inverse of `x ^ k + 1`. -/
def Inverts (m : BitVec w) (k : ℕ) (s : BitVec w) : Prop :=
  mul m s (power m w k (mulX m 1) ^^^ 1) = 1

instance (m : BitVec w) (k : ℕ) (s : BitVec w) : Decidable (Inverts m k s) :=
  inferInstanceAs (Decidable (_ = _))

theorem Inverts.eq_zero {f : BitVec w → BitVec w} (hf : Linear f) {m : BitVec w}
    (hm : Reduces f m) {k : ℕ} (hk : k < 2 ^ w) {s : BitVec w} (h : Inverts m k s)
    {v : BitVec w} (hv : IsPeriodicPt f k v) : v = 0 := by
  have hfix : act f w (power m w k (mulX m 1) ^^^ 1) v = 0 := by
    rw [act_xor, act_powerX hf hm hk, act_one, hv.eq]
    exact BitVec.xor_self
  calc v = act f w (mul m s (power m w k (mulX m 1) ^^^ 1)) v := by rw [h, act_one]
    _ = act f w s 0 := by rw [act_mul hf hm, hfix]
    _ = 0 := (act_linear hf w s).zero

/-- A proper divisor of `p₁ ⋯ pₙ` divides the product with one of the primes left out. -/
theorem exists_dvd_div {N d : ℕ} (hN : 0 < N) (hd : d ∣ N) (hne : d ≠ N) {primes : List ℕ}
    (hprime : ∀ p ∈ primes, p.Prime) (hprod : primes.prod = N) : ∃ p ∈ primes, d ∣ N / p := by
  obtain ⟨c, rfl⟩ := hd
  have hc : c ≠ 1 := fun hc => hne (by rw [hc, Nat.mul_one])
  obtain ⟨p, hp, hpc⟩ := Nat.exists_prime_and_dvd hc
  have hmem : p ∈ primes :=
    mem_list_primes_of_dvd_prod hp.prime (fun q hq => (hprime q hq).prime)
      (hprod ▸ hpc.mul_left d)
  obtain ⟨e, rfl⟩ := hpc
  refine ⟨p, hmem, e, ?_⟩
  rw [show d * (p * e) = p * (d * e) by ring, Nat.mul_div_cancel_left _ hp.pos]

/-- The states other than zero lie on cycles of length `N`, when `x ^ N = 1` and `x ^ (N / p)`
is apart from `1` for each prime `p` of `N`. -/
theorem minimalPeriod_eq {f : BitVec w → BitVec w} (hf : Linear f) {m : BitVec w}
    (hm : Reduces f m) {N : ℕ} (hpos : 0 < N) (hN : N < 2 ^ w)
    (hone : power m w N (mulX m 1) = 1) {primes : List ℕ} (hprime : ∀ p ∈ primes, p.Prime)
    (hprod : primes.prod = N) (hinv : ∀ p ∈ primes, ∃ s, Inverts m (N / p) s)
    {v : BitVec w} (hv : v ≠ 0) : minimalPeriod f v = N := by
  have hperiod : IsPeriodicPt f N v := by
    show f^[N] v = v
    rw [← act_powerX hf hm hN, hone, act_one]
  by_contra hne
  obtain ⟨p, hp, hdvd⟩ := exists_dvd_div hpos hperiod.minimalPeriod_dvd hne hprime hprod
  obtain ⟨s, hs⟩ := hinv p hp
  have hlt : N / p < 2 ^ w := Nat.lt_of_le_of_lt (Nat.div_le_self N p) hN
  exact hv (hs.eq_zero hf hm hlt (Function.isPeriodicPt_iff_minimalPeriod_dvd.mpr hdvd))

/-- A cycle with as many states as there are words but zero has all of them. -/
theorem exists_iterate_eq {f : BitVec w → BitVec w} (hf : Linear f) (hinj : Function.Injective f)
    {x : BitVec w} (hx : x ≠ 0) (hperiod : minimalPeriod f x = 2 ^ w - 1) {y : BitVec w}
    (hy : y ≠ 0) : ∃ k < 2 ^ w - 1, f^[k] x = y := by
  have hne : ∀ k, f^[k] x ≠ 0 := by
    intro k
    induction k with
    | zero => exact hx
    | succ k ih =>
      rw [Function.iterate_succ_apply']
      exact hf.ne_zero hinj ih
  have hnat : ∀ {z : BitVec w}, z ≠ 0 → z.toNat ∈ (Finset.range (2 ^ w)).erase 0 := by
    intro z hz
    refine Finset.mem_erase.mpr ⟨fun h => hz (BitVec.eq_of_toNat_eq h), ?_⟩
    exact Finset.mem_range.mpr z.isLt
  have hsub : (Finset.range (2 ^ w - 1)).image (fun k => (f^[k] x).toNat) ⊆
      (Finset.range (2 ^ w)).erase 0 := by
    intro n hn
    obtain ⟨k, -, rfl⟩ := Finset.mem_image.mp hn
    exact hnat (hne k)
  have hcard : ((Finset.range (2 ^ w - 1)).image fun k => (f^[k] x).toNat).card = 2 ^ w - 1 := by
    rw [Finset.card_image_of_injOn, Finset.card_range]
    intro i hi j hj hij
    refine (Function.iterate_eq_iterate_iff_of_lt_minimalPeriod ?_ ?_).mp
      (BitVec.eq_of_toNat_eq hij)
    · rw [hperiod]
      exact Finset.mem_range.mp hi
    · rw [hperiod]
      exact Finset.mem_range.mp hj
  have hall := Finset.eq_of_subset_of_card_le hsub (by
    rw [hcard, Finset.card_erase_of_mem (Finset.mem_range.mpr (Nat.two_pow_pos w)),
      Finset.card_range])
  obtain ⟨k, hk, hkx⟩ := Finset.mem_image.mp (hall ▸ hnat hy)
  exact ⟨k, Finset.mem_range.mp hk, BitVec.eq_of_toNat_eq hkx⟩

/-! ### The reduction, checked on the single bits -/

theorem eq_zero_of_bits {g : BitVec w → BitVec w} (hg : Linear g)
    (h : ∀ i < w, g (BitVec.twoPow w i) = 0) {n : ℕ} (v : BitVec w)
    (hv : ∀ i, n ≤ i → v.getLsbD i = false) : g v = 0 := by
  induction n generalizing v with
  | zero =>
    obtain rfl : v = 0 := BitVec.eq_of_getLsbD_eq fun i _ => by
      rw [hv i (Nat.zero_le i)]
      exact BitVec.getLsbD_zero.symm
    exact hg.zero
  | succ n ih =>
    cases hbit : v.getLsbD n with
    | false =>
      refine ih v fun i hi => ?_
      obtain rfl | hlt := Nat.eq_or_lt_of_le hi
      · exact hbit
      · exact hv i hlt
    | true =>
      have hn : n < w := BitVec.lt_of_getLsbD hbit
      have hrest : g (v ^^^ BitVec.twoPow w n) = 0 := by
        refine ih _ fun i hi => ?_
        rw [BitVec.getLsbD_xor, BitVec.getLsbD_twoPow]
        obtain rfl | hlt := Nat.eq_or_lt_of_le hi
        · simp [hbit, hn]
        · simp [hv i hlt, Nat.ne_of_lt hlt]
      rw [hg, h n hn] at hrest
      simpa using hrest

theorem reduces_of_bits {f : BitVec w → BitVec w} (hf : Linear f) {m : BitVec w}
    (h : ∀ i < w, f^[w] (BitVec.twoPow w i) = act f w m (BitVec.twoPow w i)) : Reduces f m := by
  have hiter : ∀ n, Linear f^[n] := by
    intro n
    induction n with
    | zero => exact fun _ _ => rfl
    | succ n ih => exact ih.comp hf
  have hsum : Linear fun v => f^[w] v ^^^ act f w m v := by
    intro u v
    show f^[w] (u ^^^ v) ^^^ act f w m (u ^^^ v) = _
    rw [hiter, act_linear hf, XorShift.xor_regroup]
  intro v
  refine BitVec.xor_eq_zero_iff.mp (eq_zero_of_bits hsum (fun i hi => ?_) (n := w) v fun i hi => ?_)
  · show f^[w] (BitVec.twoPow w i) ^^^ act f w m (BitVec.twoPow w i) = 0
    rw [h i hi]
    exact BitVec.xor_self
  · exact BitVec.getLsbD_of_ge v i hi

end LinearPeriod
