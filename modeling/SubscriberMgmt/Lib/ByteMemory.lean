import Mathlib.Data.Nat.Notation
import Mathlib.Data.List.Perm.Basic
import Mathlib.Data.List.Nodup
import Mathlib.Algebra.Order.Group.Nat
import Mathlib.Algebra.BigOperators.Group.Finset.Basic
import Mathlib.Order.Interval.Finset.Nat
import Mathlib.Logic.Function.Basic
import Mathlib.Tactic.Common

/-!
# Byte memories and linked lists in them

A memory gives the byte at each address. Numbers are stored little-endian,
strings of bytes in their order. A linked list is threaded through cells at
distinct places, each of which starts with the address of the next one; 0 is the
end.
-/

namespace ByteMemory

abbrev Memory := ℕ → UInt8

def load (m : Memory) (a : ℕ) : ℕ → ℕ
  | 0 => 0
  | n + 1 => (m a).toNat + 256 * load m (a + 1) n

def store (m : Memory) (a v : ℕ) : ℕ → Memory
  | 0 => m
  | n + 1 => Function.update (store m (a + 1) (v / 256) n) a (UInt8.ofNat v)

/-- `memset` -/
def fill (m : Memory) (a n : ℕ) (c : UInt8) : Memory := fun x =>
  if a ≤ x ∧ x < a + n then c else m x

/-- Two memories agree on the `n` bytes from `a` on. -/
def Agree (m m' : Memory) (a n : ℕ) : Prop := ∀ x, a ≤ x → x < a + n → m' x = m x

theorem Agree.load {m m' : Memory} {a n : ℕ} (h : Agree m m' a n) : load m' a n = load m a n := by
  induction n generalizing a with
  | zero => rfl
  | succ n ih =>
    have hrest : Agree m m' (a + 1) n := fun x hx hlt => h x (by omega) (by omega)
    simp only [ByteMemory.load, ih hrest, h a le_rfl (by omega)]

theorem Agree.trans {m m' m'' : Memory} {a n : ℕ} (h : Agree m m' a n) (h' : Agree m' m'' a n) :
    Agree m m'' a n := fun x hx hlt => (h' x hx hlt).trans (h x hx hlt)

theorem Agree.mono {m m' : Memory} {a n k : ℕ} (h : Agree m m' a n) (hk : k ≤ n) :
    Agree m m' a k := fun x hx hlt => h x hx (by omega)

theorem store_agree (m : Memory) {a v n b k : ℕ} (hd : b + k ≤ a ∨ a + n ≤ b) :
    Agree m (store m a v n) b k := by
  intro x hx hlt
  induction n generalizing a v with
  | zero => rfl
  | succ n ih =>
    have hne : x ≠ a := by omega
    rw [store, Function.update_of_ne hne]
    exact ih (by omega)

theorem fill_agree (m : Memory) {a n b k : ℕ} (c : UInt8) (hd : b + k ≤ a ∨ a + n ≤ b) :
    Agree m (fill m a n c) b k := by
  intro x hx hlt
  have hout : ¬ (a ≤ x ∧ x < a + n) := by omega
  simp only [fill, hout, if_false]

theorem update_agree (m : Memory) {a b k : ℕ} (c : UInt8) (hd : a < b ∨ b + k ≤ a) :
    Agree m (Function.update m a c) b k := by
  intro x hx hlt
  have hne : x ≠ a := by omega
  exact Function.update_of_ne hne c m

theorem load_store (m : Memory) (a v n : ℕ) : load (store m a v n) a n = v % 256 ^ n := by
  induction n generalizing a v with
  | zero => rw [load, pow_zero, Nat.mod_one]
  | succ n ih =>
    have hrest : load (store m a v (n + 1)) (a + 1) n = v / 256 % 256 ^ n := by
      rw [← ih (a + 1) (v / 256)]
      exact Agree.load (update_agree _ _ (Or.inl (by omega)))
    have hbyte : (store m a v (n + 1) a).toNat = v % 256 := by
      rw [store, Function.update_self, UInt8.toNat_ofNat']
    rw [load, hrest, hbyte, pow_succ', Nat.mod_mul]

/-! ### Strings of bytes -/

def readBytes (mem : Memory) (p len : ℕ) : List UInt8 := (List.range len).map fun i => mem (p + i)

def writeBytes (mem : Memory) (p : ℕ) : List UInt8 → Memory
  | [] => mem
  | b :: bs => writeBytes (Function.update mem p b) (p + 1) bs

@[simp] theorem readBytes_length (mem : Memory) (p len : ℕ) :
    (readBytes mem p len).length = len := by
  simp [readBytes]

theorem readBytes_add (mem : Memory) (p m n : ℕ) :
    readBytes mem p (m + n) = readBytes mem p m ++ readBytes mem (p + m) n := by
  simp only [readBytes, List.range_add, List.map_append, List.map_map, List.append_cancel_left_eq]
  apply List.map_congr_left
  intro i _
  rw [Function.comp_apply, Nat.add_assoc]

theorem Agree.readBytes {mem mem' : Memory} {p len : ℕ} (h : Agree mem mem' p len) :
    readBytes mem' p len = readBytes mem p len := by
  apply List.map_congr_left
  intro i hi
  have hlt := List.mem_range.mp hi
  exact h (p + i) (by omega) (by omega)

theorem writeBytes_outside (bs : List UInt8) (mem : Memory) {p a : ℕ}
    (ha : a < p ∨ p + bs.length ≤ a) : writeBytes mem p bs a = mem a := by
  induction bs generalizing mem p with
  | nil => rfl
  | cons b bs ih =>
    rw [List.length_cons] at ha
    have hne : a ≠ p := by omega
    rw [writeBytes, ih _ (by omega), Function.update_of_ne hne]

theorem readBytes_writeBytes (bs : List UInt8) (mem : Memory) (p : ℕ) :
    readBytes (writeBytes mem p bs) p bs.length = bs := by
  induction bs generalizing mem p with
  | nil => rfl
  | cons b bs ih =>
    have hfirst : writeBytes mem p (b :: bs) p = b := by
      rw [writeBytes, writeBytes_outside bs _ (by omega), Function.update_self]
    rw [List.length_cons, Nat.add_comm, readBytes_add]
    have hone : readBytes (writeBytes mem p (b :: bs)) p 1 = [b] := by
      simp only [readBytes, List.range_one, List.map_cons, List.map_nil, Nat.add_zero, hfirst]
    rw [hone, writeBytes, ih, List.singleton_append]

theorem readBytes_take (mem : Memory) (p n j : ℕ) :
    (readBytes mem p n).take j = readBytes mem p (min j n) := by
  rw [readBytes, ← List.map_take, List.take_range, readBytes]

theorem readBytes_drop (mem : Memory) (p n j : ℕ) :
    (readBytes mem p n).drop j = readBytes mem (p + min j n) (n - j) := by
  have hsplit : n = min j n + (n - j) := by omega
  have hnone : min j n = n → n - j = 0 ∨ j = n := by omega
  conv_lhs => rw [hsplit, readBytes_add]
  rw [List.drop_append, readBytes_length, List.drop_eq_nil_of_le (by rw [readBytes_length]; omega),
    List.nil_append]
  by_cases hj : j ≤ n
  · have hzero : j - min j n = 0 := by omega
    rw [hzero, List.drop_zero]
  · have hempty : n - j = 0 := by omega
    rw [hempty, readBytes, List.range_zero, List.map_nil, List.drop_nil]

/-! ### Linked lists -/

/-- The list of the cells from `head` on, with pointers of `w` bytes. -/
def Linked (w : ℕ) (m : Memory) : ℕ → List ℕ → Prop
  | head, [] => head = 0
  | head, b :: l => head = b ∧ b ≠ 0 ∧ Linked w m (load m b w) l

namespace Linked

variable {w : ℕ} {m m' : Memory} {head : ℕ} {l : List ℕ}

theorem keep (h : Linked w m head l) (hm : ∀ b ∈ l, Agree m m' b w) : Linked w m' head l := by
  induction l generalizing head with
  | nil => exact h
  | cons b l ih =>
    obtain ⟨hhead, hb, hl⟩ := h
    refine ⟨hhead, hb, ?_⟩
    rw [(hm b (List.mem_cons_self ..)).load]
    exact ih hl fun c hc => hm c (List.mem_cons_of_mem _ hc)

/-- Putting a cell in front. -/
theorem push (h : Linked w m head l) {b : ℕ} (hb : b ≠ 0) (hhead : head < 256 ^ w)
    (hdisj : ∀ c ∈ l, c + w ≤ b ∨ b + w ≤ c) : Linked w (store m b head w) b (b :: l) := by
  refine ⟨rfl, hb, ?_⟩
  rw [load_store, Nat.mod_eq_of_lt hhead]
  exact h.keep fun c hc => store_agree m (hdisj c hc)

theorem head_zero (h : Linked w m head l) : head = 0 ↔ l = [] := by
  cases l with
  | nil => exact iff_of_true h rfl
  | cons b l =>
    obtain ⟨rfl, hb, -⟩ := h
    exact iff_of_false hb (List.cons_ne_nil _ _)

theorem head_mem (h : Linked w m head l) (hne : head ≠ 0) : head ∈ l := by
  cases l with
  | nil => exact absurd h hne
  | cons b l =>
    obtain ⟨rfl, -⟩ := h
    exact List.mem_cons_self ..

end Linked

/-! ### Ranges -/

/-- `n` disjoint ranges of `size` bytes take `n * size` bytes. -/
theorem ranges_le {n size bytes : ℕ} {offset : ℕ → ℕ}
    (hin : ∀ i < n, offset i + size ≤ bytes)
    (hapart : ∀ i < n, ∀ j < n, i ≠ j →
      offset i + size ≤ offset j ∨ offset j + size ≤ offset i) : n * size ≤ bytes := by
  have hdisjoint : (Finset.range n : Set ℕ).PairwiseDisjoint
      fun i => Finset.Ico (offset i) (offset i + size) := by
    intro i hi j hj hij
    refine Finset.disjoint_left.mpr fun x hx hx' => ?_
    have h := hapart i (Finset.mem_range.mp hi) j (Finset.mem_range.mp hj) hij
    rw [Finset.mem_Ico] at hx hx'
    omega
  have hsub : (Finset.range n).biUnion (fun i => Finset.Ico (offset i) (offset i + size)) ⊆
      Finset.range bytes := by
    intro x hx
    obtain ⟨i, hi, hx⟩ := Finset.mem_biUnion.mp hx
    have h := hin i (Finset.mem_range.mp hi)
    rw [Finset.mem_Ico] at hx
    exact Finset.mem_range.mpr (by omega)
  have hcard := Finset.card_le_card hsub
  rw [Finset.card_biUnion hdisjoint] at hcard
  simpa using hcard

end ByteMemory
