import Mathlib.Data.List.Basic
import Mathlib.Data.Nat.ModEq

/-!
# Ring buffers that keep the last values

A ring of `size` cells with a count of the filled ones and the index of the next
cell to write. A full ring writes over its oldest value.
-/

structure RingBuffer (α : Type*) where
  cells : ℕ → α
  count : ℕ
  next : ℕ

namespace RingBuffer

variable {α : Type*} {size : ℕ}

def push (size : ℕ) (r : RingBuffer α) (a : α) : RingBuffer α :=
  ⟨Function.update r.cells r.next a, if r.count < size then r.count + 1 else r.count,
    (r.next + 1) % size⟩

def contents (size : ℕ) (r : RingBuffer α) : List α :=
  let start := if r.count < size then 0 else r.next
  (List.range r.count).map fun i => r.cells ((start + i) % size)

/-- The ring after the values: the `i`-th of them is in the cell `i % size` unless a
later one is. -/
structure Holds (size : ℕ) (xs : List α) (r : RingBuffer α) : Prop where
  count : r.count = min xs.length size
  next : r.next = xs.length % size
  cells : ∀ i (h : i < xs.length), xs.length ≤ i + size → r.cells (i % size) = xs[i]

theorem Holds.empty (size : ℕ) (cells : ℕ → α) : Holds size [] ⟨cells, 0, 0⟩ := by
  constructor
  · simp
  · simp
  · intro i h
    cases h

/-- Indices less than a round apart have different cells. -/
theorem cell_ne {i j : ℕ} (hlt : i < j) (hround : j < i + size) : i % size ≠ j % size := by
  intro h
  have hdvd : size ∣ j - i := (Nat.modEq_iff_dvd' (Nat.le_of_lt hlt)).mp h
  have hle := Nat.le_of_dvd (by omega) hdvd
  omega

theorem Holds.push {xs : List α} {r : RingBuffer α} (h : Holds size xs r) (a : α) :
    Holds size (xs ++ [a]) (r.push size a) := by
  have hlen : (xs ++ [a]).length = xs.length + 1 := by simp
  constructor
  · have hcount := h.count
    simp only [RingBuffer.push, hlen]
    split <;> omega
  · rw [hlen, RingBuffer.push, h.next, Nat.mod_add_mod]
  · intro i hi hround
    rw [hlen] at hi hround
    simp only [RingBuffer.push, h.next]
    rcases Nat.lt_or_eq_of_le (Nat.le_of_lt_succ hi) with hold | rfl
    · rw [Function.update_of_ne (cell_ne hold (by omega)), List.getElem_append_left hold]
      exact h.cells i hold (by omega)
    · rw [Function.update_self, List.getElem_concat_length rfl]

theorem Holds.foldl {xs : List α} {r : RingBuffer α} (h : Holds size xs r) (ys : List α) :
    Holds size (xs ++ ys) (ys.foldl (RingBuffer.push size) r) := by
  induction ys generalizing xs r with
  | nil => simpa using h
  | cons y ys ih =>
    have hrest := ih (h.push y)
    rwa [List.append_assoc] at hrest

theorem Holds.contents {xs : List α} {r : RingBuffer α} (h : Holds size xs r) :
    r.contents size = xs.drop (xs.length - size) := by
  have hcount := h.count
  refine List.ext_getElem ?_ fun i hi hi' => ?_
  · simp only [RingBuffer.contents, List.length_map, List.length_range, List.length_drop]
    omega
  · simp only [RingBuffer.contents, List.length_map, List.length_range] at hi
    simp only [RingBuffer.contents, List.getElem_map, List.getElem_range, List.getElem_drop]
    have hlt : xs.length - size + i < xs.length := by omega
    rw [← h.cells _ hlt (by omega)]
    split
    case isTrue hpart => rw [show xs.length - size = 0 by omega]
    case isFalse hfull =>
      -- the oldest value stands where the next one would go
      have hback : (xs.length - size + i + size) % size = (xs.length + i) % size := by
        rw [show xs.length - size + i + size = xs.length + i by omega]
      rw [h.next, Nat.mod_add_mod, ← hback, Nat.add_mod_right]

/-- Whatever the cells held before, a ring keeps the last of the values pushed. -/
theorem contents_pushes (size : ℕ) (cells : ℕ → α) (xs : List α) :
    (xs.foldl (push size) ⟨cells, 0, 0⟩).contents size = xs.drop (xs.length - size) := by
  have h := (Holds.empty size cells).foldl xs
  rw [List.nil_append] at h
  exact h.contents

end RingBuffer
