import Mathlib.Tactic.Common
import Mathlib.Data.Nat.Notation
import Mathlib.Data.List.Basic
import Mathlib.Data.Nat.Bitwise
import Mathlib.Tactic.Ring

/-!
# SHA-256 as FIPS 180-4 defines it

Messages and digests are bit strings, most significant bit first. The section
numbers are those of the standard.
-/

namespace Sha2

abbrev Word := BitVec 32

/-! ### Numbers and bit strings -/

def natBits (w n : ℕ) : List Bool := (List.range w).map fun i => n.testBit (w - 1 - i)

def ofBits (bs : List Bool) : ℕ := bs.foldl (fun v b => 2 * v + b.toNat) 0

/-- A string of bytes as a bit string. -/
def bytesBits (bs : List UInt8) : List Bool := bs.flatMap fun b => natBits 8 b.toNat

@[simp] theorem natBits_length (w n : ℕ) : (natBits w n).length = w := by simp [natBits]

theorem natBits_succ (w n : ℕ) : natBits (w + 1) n = n.testBit w :: natBits w n := by
  simp only [natBits, List.range_succ_eq_map, List.map_cons, List.map_map, List.cons.injEq]
  refine ⟨by simp, List.map_congr_left fun i hi => ?_⟩
  have hlt := List.mem_range.mp hi
  simp only [Function.comp_apply]
  congr 1
  omega

theorem natBits_append (u v n : ℕ) : natBits (u + v) n = natBits u (n >>> v) ++ natBits v n := by
  induction u with
  | zero => simp [natBits]
  | succ u ih =>
    have hsum : u + 1 + v = u + v + 1 := by omega
    rw [hsum, natBits_succ, natBits_succ, ih, Nat.testBit_shiftRight, List.cons_append,
      Nat.add_comm v u]

theorem natBits_mod (w n : ℕ) : natBits w (n % 2 ^ w) = natBits w n := by
  apply List.map_congr_left
  intro i hi
  have hlt := List.mem_range.mp hi
  rw [Nat.testBit_mod_two_pow, decide_eq_true (show w - 1 - i < w by omega), Bool.true_and]

theorem ofBits_cons (b : Bool) (bs : List Bool) :
    ofBits (b :: bs) = b.toNat * 2 ^ bs.length + ofBits bs := by
  have hfrom : ∀ v : ℕ, bs.foldl (fun v b => 2 * v + b.toNat) v =
      v * 2 ^ bs.length + ofBits bs := by
    induction bs with
    | nil => simp [ofBits]
    | cons c bs ih =>
      intro v
      simp only [ofBits, List.foldl_cons, List.length_cons] at ih ⊢
      rw [ih, ih (2 * 0 + c.toNat), pow_succ]
      ring
  simpa [ofBits] using hfrom b.toNat

theorem ofBits_append (xs ys : List Bool) :
    ofBits (xs ++ ys) = ofBits xs * 2 ^ ys.length + ofBits ys := by
  induction xs with
  | nil => simp [ofBits]
  | cons b xs ih =>
    rw [List.cons_append, ofBits_cons, ofBits_cons, ih, List.length_append, pow_add]
    ring

theorem ofBits_natBits (w n : ℕ) : ofBits (natBits w n) = n % 2 ^ w := by
  induction w with
  | zero => simp [natBits, ofBits, Nat.mod_one]
  | succ w ih =>
    rw [natBits_succ, ofBits_cons, ih, natBits_length, Nat.mod_pow_succ, Nat.toNat_testBit]
    ring

@[simp] theorem bytesBits_length (bs : List UInt8) : (bytesBits bs).length = 8 * bs.length := by
  induction bs with
  | nil => rfl
  | cons b bs ih =>
    simp only [bytesBits] at ih
    simp only [bytesBits, List.flatMap_cons, List.length_append, natBits_length, ih,
      List.length_cons]
    omega

theorem bytesBits_append (xs ys : List UInt8) :
    bytesBits (xs ++ ys) = bytesBits xs ++ bytesBits ys := List.flatMap_append

/-! ### Functions (4.1.2) -/

def ch (x y z : Word) : Word := (x &&& y) ^^^ (~~~x &&& z)
def maj (x y z : Word) : Word := (x &&& y) ^^^ (x &&& z) ^^^ (y &&& z)
def bigSigma0 (x : Word) : Word := x.rotateRight 2 ^^^ x.rotateRight 13 ^^^ x.rotateRight 22
def bigSigma1 (x : Word) : Word := x.rotateRight 6 ^^^ x.rotateRight 11 ^^^ x.rotateRight 25
def smallSigma0 (x : Word) : Word := x.rotateRight 7 ^^^ x.rotateRight 18 ^^^ (x >>> 3)
def smallSigma1 (x : Word) : Word := x.rotateRight 17 ^^^ x.rotateRight 19 ^^^ (x >>> 10)

/-! ### Constants (4.2.2, 5.3.3) -/

/-- The integer part of an `e`-th root of `n`, bit by bit: the `k` lower bits of `d`
are each set if the power stays at most `n`. -/
def rootFrom (e n : ℕ) : ℕ → ℕ → ℕ
  | 0, d => d
  | k + 1, d => rootFrom e n k (if (d + 2 ^ k) ^ e ≤ n then d + 2 ^ k else d)

def primes : List ℕ :=
  [2, 3, 5, 7, 11, 13, 17, 19, 23, 29, 31, 37, 41, 43, 47, 53, 59, 61, 67, 71, 73, 79, 83, 89, 97,
    101, 103, 107, 109, 113, 127, 131, 137, 139, 149, 151, 157, 163, 167, 173, 179, 181, 191, 193,
    197, 199, 211, 223, 227, 229, 233, 239, 241, 251, 257, 263, 269, 271, 277, 281, 283, 293, 307,
    311]

/-- The first 32 bits of the fractional part of the `e`-th root of `p`. -/
def fractionBits (e p : ℕ) : Word := BitVec.ofNat 32 (rootFrom e (p * 2 ^ (32 * e)) 40 0)

/-- Fractional parts of the cube roots of the first 64 primes. -/
def k (t : ℕ) : Word := fractionBits 3 (primes.getD t 0)

structure State where
  a : Word
  b : Word
  c : Word
  d : Word
  e : Word
  f : Word
  g : Word
  h : Word
deriving DecidableEq

/-- Fractional parts of the square roots of the first eight primes. -/
def initial : State :=
  ⟨fractionBits 2 2, fractionBits 2 3, fractionBits 2 5, fractionBits 2 7, fractionBits 2 11,
    fractionBits 2 13, fractionBits 2 17, fractionBits 2 19⟩

/-! ### Padding (5.1.1) -/

/-- The least `k` with `l + 1 + k ≡ 448` modulo 512. -/
def zeroBits (l : ℕ) : ℕ := (447 + 512 - l % 512) % 512

def pad (m : List Bool) : List Bool :=
  m ++ true :: (List.replicate (zeroBits m.length) false ++ natBits 64 m.length)

/-! ### Computation (6.2.2) -/

def messageWord (block : List Bool) (t : ℕ) : Word :=
  BitVec.ofNat 32 (ofBits ((block.drop (32 * t)).take 32))

def schedule (m : ℕ → Word) (t : ℕ) : Word :=
  if t < 16 then m t
  else smallSigma1 (schedule m (t - 2)) + schedule m (t - 7) + smallSigma0 (schedule m (t - 15)) +
    schedule m (t - 16)
termination_by t

def round (w : ℕ → Word) (s : State) (t : ℕ) : State :=
  let t1 := s.h + bigSigma1 s.e + ch s.e s.f s.g + k t + w t
  let t2 := bigSigma0 s.a + maj s.a s.b s.c
  ⟨t1 + t2, s.a, s.b, s.c, s.d + t1, s.e, s.f, s.g⟩

def State.add (s t : State) : State :=
  ⟨s.a + t.a, s.b + t.b, s.c + t.c, s.d + t.d, s.e + t.e, s.f + t.f, s.g + t.g, s.h + t.h⟩

def compress (s : State) (block : List Bool) : State :=
  ((List.range 64).foldl (round (schedule (messageWord block))) s).add s

def State.bits (s : State) : List Bool :=
  [s.a, s.b, s.c, s.d, s.e, s.f, s.g, s.h].flatMap fun x => natBits 32 x.toNat

def hashBlocks (s : State) (p : List Bool) : State :=
  (List.range (p.length / 512)).foldl (fun s i => compress s ((p.drop (512 * i)).take 512)) s

theorem schedule_input (m : ℕ → Word) {t : ℕ} (ht : t < 16) : schedule m t = m t := by
  rw [schedule, if_pos ht]

theorem schedule_next (m : ℕ → Word) {t : ℕ} (ht : 16 ≤ t) :
    schedule m t = smallSigma1 (schedule m (t - 2)) + schedule m (t - 7) +
      smallSigma0 (schedule m (t - 15)) + schedule m (t - 16) := by
  rw [schedule, if_neg (by omega)]

theorem hashBlocks_append (s : State) {p q : List Bool} (hp : 512 ∣ p.length)
    (hq : q.length = 512) : hashBlocks s (p ++ q) = compress (hashBlocks s p) q := by
  obtain ⟨n, hn⟩ := hp
  have h1 : (p ++ q).length / 512 = n + 1 := by
    rw [List.length_append, hn, hq]
    omega
  have h2 : p.length / 512 = n := by omega
  have hlast : ((p ++ q).drop (512 * n)).take 512 = q := by
    rw [← hn, List.drop_left, List.take_of_length_le hq.le]
  have hearlier : ∀ s : State, (List.range n).foldl
      (fun s i => compress s (((p ++ q).drop (512 * i)).take 512)) s =
        (List.range n).foldl (fun s i => compress s ((p.drop (512 * i)).take 512)) s := by
    refine fun s => List.foldl_ext _ _ s fun s i hi => ?_
    have hlt := List.mem_range.mp hi
    have hroom : 512 ≤ (p.drop (512 * i)).length := by
      rw [List.length_drop]
      omega
    rw [List.drop_append_of_le_length (by omega), List.take_append_of_le_length hroom]
  rw [hashBlocks, hashBlocks, h1, h2, List.range_succ, List.foldl_append, hearlier]
  simp only [List.foldl_cons, List.foldl_nil, hlast]

def sha256 (m : List Bool) : List Bool := (hashBlocks initial (pad m)).bits

end Sha2
