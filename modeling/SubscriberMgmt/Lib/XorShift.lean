import Mathlib.Data.Nat.ModEq
import Mathlib.Data.Nat.Notation
import Mathlib.Data.Nat.Prime.Basic
import Mathlib.Logic.Function.Basic
import Mathlib.Tactic.Common

/-!
# Xor-shifts and odd multiples of machine words

Maps that respect exclusive or are injective when only zero goes to zero. A word
exclusive-or its own shift is such a map; a multiple by an odd constant is
injective modulo the word size.
-/

namespace XorShift

variable {w k : ℕ}

/-! ### Maps that respect exclusive or -/

def Linear (f : BitVec w → BitVec w) : Prop := ∀ x y, f (x ^^^ y) = f x ^^^ f y

theorem Linear.zero {f : BitVec w → BitVec w} (h : Linear f) : f 0 = 0 := by
  have hzero := h 0 0
  rwa [BitVec.xor_self, BitVec.xor_self] at hzero

theorem Linear.injective {f : BitVec w → BitVec w} (h : Linear f)
    (hker : ∀ x, f x = 0 → x = 0) : Function.Injective f := by
  intro x y hxy
  have hdiff : f (x ^^^ y) = 0 := by
    rw [h x y, hxy]
    exact BitVec.xor_self
  exact BitVec.xor_eq_zero_iff.mp (hker _ hdiff)

theorem Linear.comp {f g : BitVec w → BitVec w} (hf : Linear f) (hg : Linear g) :
    Linear (f ∘ g) := by
  intro x y
  show f (g (x ^^^ y)) = f (g x) ^^^ f (g y)
  rw [hg x y, hf]

theorem Linear.ne_zero {f : BitVec w → BitVec w} (h : Linear f) (hinj : Function.Injective f)
    {x : BitVec w} (hx : x ≠ 0) : f x ≠ 0 := fun hzero =>
  hx (hinj (hzero.trans h.zero.symm))

/-! ### A word and its own shift -/

def right (k : ℕ) (x : BitVec w) : BitVec w := x ^^^ (x >>> k)

def left (k : ℕ) (x : BitVec w) : BitVec w := x ^^^ (x <<< k)

theorem xor_regroup (a b c d : BitVec w) : a ^^^ b ^^^ (c ^^^ d) = a ^^^ c ^^^ (b ^^^ d) := by
  rw [BitVec.xor_assoc, BitVec.xor_assoc, ← BitVec.xor_assoc b c d, BitVec.xor_comm b c,
    BitVec.xor_assoc]

theorem right_linear (k : ℕ) : Linear (right (w := w) k) := by
  intro x y
  show x ^^^ y ^^^ ((x ^^^ y) >>> k) = x ^^^ (x >>> k) ^^^ (y ^^^ (y >>> k))
  rw [BitVec.ushiftRight_xor_distrib, xor_regroup]

theorem left_linear (k : ℕ) : Linear (left (w := w) k) := by
  intro x y
  show x ^^^ y ^^^ ((x ^^^ y) <<< k) = x ^^^ (x <<< k) ^^^ (y ^^^ (y <<< k))
  rw [BitVec.shiftLeft_xor_distrib, xor_regroup]

/-- A word that equals its right shift is smaller than itself, or zero. -/
theorem eq_zero_of_ushiftRight (hk : 0 < k) {x : BitVec w} (h : x = x >>> k) : x = 0 := by
  have hdiv : x.toNat = x.toNat / 2 ^ k := by
    have hnat := congrArg BitVec.toNat h
    rwa [BitVec.toNat_ushiftRight, Nat.shiftRight_eq_div_pow] at hnat
  by_contra hx
  have hpos : 0 < x.toNat := Nat.pos_of_ne_zero fun hzero => hx (BitVec.eq_of_toNat_eq hzero)
  have hlt : x.toNat / 2 ^ k < x.toNat := Nat.div_lt_self hpos (Nat.one_lt_two_pow hk.ne')
  omega

/-- Bit `i` of a word that equals its left shift is bit `i - k`, and the lowest are clear. -/
theorem eq_zero_of_shiftLeft (hk : 0 < k) {x : BitVec w} (h : x = x <<< k) : x = 0 := by
  have hbit : ∀ i, x.getLsbD i = false := by
    intro i
    induction i using Nat.strong_induction_on with
    | _ i ih =>
      rw [h, BitVec.getLsbD_shiftLeft]
      by_cases hi : i < k
      · simp [hi]
      · rw [ih (i - k) (by omega), Bool.and_false]
  exact BitVec.eq_of_getLsbD_eq fun i _ => by rw [hbit i]; exact BitVec.getLsbD_zero.symm

theorem right_injective (hk : 0 < k) : Function.Injective (right (w := w) k) :=
  (right_linear k).injective fun _ hx =>
    eq_zero_of_ushiftRight hk (BitVec.xor_eq_zero_iff.mp hx)

theorem left_injective (hk : 0 < k) : Function.Injective (left (w := w) k) :=
  (left_linear k).injective fun _ hx =>
    eq_zero_of_shiftLeft hk (BitVec.xor_eq_zero_iff.mp hx)

/-! ### Odd multiples -/

theorem mul_injective {c : BitVec w} (hc : c.toNat % 2 = 1) :
    Function.Injective fun x : BitVec w => x * c := by
  intro x y hxy
  have hmod : x.toNat * c.toNat ≡ y.toNat * c.toNat [MOD 2 ^ w] := by
    have hnat := congrArg BitVec.toNat hxy
    rwa [BitVec.toNat_mul, BitVec.toNat_mul] at hnat
  have hcoprime : Nat.gcd (2 ^ w) c.toNat = 1 :=
    Nat.Coprime.pow_left w (Nat.coprime_two_left.mpr (Nat.odd_iff.mpr hc))
  have hsame := Nat.ModEq.cancel_right_of_coprime hcoprime hmod
  exact BitVec.eq_of_toNat_eq (Nat.ModEq.eq_of_lt_of_lt hsame x.isLt y.isLt)

/-! ### Bytes of a word -/

theorem eq_of_bytes {n : ℕ} (hw : w ≤ 8 * n) {x y : BitVec w}
    (h : ∀ b < n, (x >>> (8 * b)).setWidth 8 = (y >>> (8 * b)).setWidth 8) : x = y := by
  refine BitVec.eq_of_getLsbD_eq fun i hi => ?_
  have hbyte := congrArg (fun z => z.getLsbD (i % 8)) (h (i / 8) (by omega))
  have hlow : i % 8 < 8 := Nat.mod_lt i (by decide)
  have hindex : 8 * (i / 8) + i % 8 = i := Nat.div_add_mod i 8
  simpa only [BitVec.getLsbD_setWidth, BitVec.getLsbD_ushiftRight, hlow, decide_true,
    Bool.true_and, hindex] using hbyte

end XorShift
