import Mathlib.Data.List.Basic
import Mathlib.Data.List.Sort
import Mathlib.Data.Nat.Notation

/-!
# Stable merging, and arrays by segments

The first part is about lists: what it means to have sorted stably, and that
merging two parts sorted stably sorts the whole. The second cuts arrays into
segments, the form in which loops with half-open bounds read and write them.
-/

namespace StableSort

open scoped List

variable {α : Type*} (le : α → α → Bool)

/-- Neither of the two is before the other. -/
def Tied (a b : α) : Bool := le a b && le b a

/-- `out` is `input` in order, ties as they were. -/
structure Sorts (input out : List α) : Prop where
  perm : out.Perm input
  sorted : out.Pairwise fun a b => le a b
  stable : ∀ a, out.filter (Tied le a) = input.filter (Tied le a)

variable {le}

theorem Sorts.of_short {l : List α} (h : l.length ≤ 1) : Sorts le l l := by
  refine ⟨List.Perm.refl l, ?_, fun _ => rfl⟩
  match l, h with
  | [], _ => exact List.Pairwise.nil
  | [a], _ => exact List.pairwise_singleton _ a

section Order

variable (trans : ∀ a b c, le a b → le b c → le a c)
include trans

/-- In a merge of two sorted lists, ties of the left one come first. -/
theorem filter_merge (a : α) {xs ys : List α} (hx : xs.Pairwise fun a b => le a b) :
    (xs.merge ys le).filter (Tied le a) = xs.filter (Tied le a) ++ ys.filter (Tied le a) := by
  induction xs generalizing ys with
  | nil => simp
  | cons x xs ihx =>
    induction ys with
    | nil => simp
    | cons y ys ihy =>
      have htail := (List.pairwise_cons.mp hx).2
      by_cases hle : le x y
      · rw [List.cons_merge_cons_pos _ _ _ hle, ← List.singleton_append, List.filter_append,
          ihx htail, ← List.append_assoc, ← List.filter_append, List.singleton_append]
      · rw [List.cons_merge_cons_neg _ _ _ hle, List.filter_cons, ihy]
        by_cases hy : Tied le a y
        · -- nothing that ties with `y` is left on the other side
          have hnone : (x :: xs).filter (Tied le a) = [] := by
            apply List.filter_eq_nil_iff.mpr
            intro z hz htied
            simp only [Tied, Bool.and_eq_true] at htied hy
            have hzy := trans z a y htied.2 hy.1
            cases List.mem_cons.mp hz with
            | inl hzx => exact hle (hzx ▸ hzy)
            | inr hmem => exact hle (trans x z y ((List.pairwise_cons.mp hx).1 z hmem) hzy)
          rw [if_pos hy, hnone, List.nil_append, List.nil_append, List.filter_cons, if_pos hy]
        · rw [if_neg hy, List.filter_cons_of_neg hy]

variable (total : ∀ a b, le a b || le b a)
include total

theorem Sorts.merge {xs ys xs' ys' : List α} (hx : Sorts le xs xs') (hy : Sorts le ys ys') :
    Sorts le (xs ++ ys) (xs'.merge ys' le) where
  perm := (List.merge_perm_append le).trans (hx.perm.append hy.perm)
  sorted := List.pairwise_merge trans total xs' ys' hx.sorted hy.sorted
  stable := by
    intro a
    rw [filter_merge trans a hx.sorted, hx.stable, hy.stable, List.filter_append]

omit trans in
/-- Elements that tie are related in the order of their appearance. -/
theorem pairwise_ties {r : α → α → Prop} {l : List α}
    (h : ∀ a, (l.filter (Tied le a)).Pairwise r) : l.Pairwise fun a b => Tied le a b → r a b := by
  induction l with
  | nil => exact List.Pairwise.nil
  | cons a l ih =>
    have hself : Tied le a a = true := by
      have hle := total a a
      rw [Bool.or_self] at hle
      rw [Tied, hle, Bool.and_self]
    refine List.pairwise_cons.mpr ⟨fun b hb htied => ?_, ih fun c => ?_⟩
    · have hclass := h a
      rw [List.filter_cons_of_pos hself] at hclass
      exact (List.pairwise_cons.mp hclass).1 b (List.mem_filter.mpr ⟨hb, htied⟩)
    · exact (h c).sublist ((List.sublist_cons_self a l).filter _)

omit trans in
/-- Sorting what is in order already leaves this order among the ties. -/
theorem Sorts.lexicographic {r : α → α → Prop} {input out : List α} (h : Sorts le input out)
    (hr : input.Pairwise r) : out.Pairwise fun a b => le a b ∧ (Tied le a b → r a b) := by
  refine List.Pairwise.and h.sorted (pairwise_ties total fun a => ?_)
  rw [h.stable a]
  exact hr.sublist List.filter_sublist

end Order

/-! ### Sorting in place -/

theorem perm_exchange (A B C : List α) (x y : α) :
    (A ++ y :: (B ++ x :: C)).Perm (A ++ x :: (B ++ y :: C)) := by
  apply List.Perm.append_left
  calc y :: (B ++ x :: C)
      ~ y :: x :: (B ++ C) := List.perm_middle.cons y
    _ ~ x :: y :: (B ++ C) := List.Perm.swap x y _
    _ ~ x :: (B ++ y :: C) := List.perm_middle.symm.cons x

/-- Two sorted parts with an element between them. -/
theorem sorted_around {r : α → α → Prop} (trans : ∀ a b c, r a b → r b c → r a c)
    {xs ys : List α} {p : α} (hx : xs.Pairwise r) (hy : ys.Pairwise r) (hxp : ∀ x ∈ xs, r x p)
    (hpy : ∀ y ∈ ys, r p y) : (xs ++ p :: ys).Pairwise r := by
  refine List.pairwise_append.mpr ⟨hx, List.pairwise_cons.mpr ⟨hpy, hy⟩, ?_⟩
  intro a ha b hb
  cases List.mem_cons.mp hb with
  | inl he => exact he ▸ hxp a ha
  | inr hb => exact trans a p b (hxp a ha) (hpy b hb)

/-! ### Segments -/

/-- The elements with index from `lo` on and below `hi`. -/
def slice (l : List α) (lo hi : ℕ) : List α := (l.drop lo).take (hi - lo)

/-- `l` with `out` written from index `i` on. -/
def splice (l : List α) (i : ℕ) (out : List α) : List α :=
  l.take i ++ out ++ l.drop (i + out.length)

theorem slice_length {l : List α} {lo hi : ℕ} (h : hi ≤ l.length) :
    (slice l lo hi).length = hi - lo := by
  rw [slice, List.length_take, List.length_drop]
  omega

theorem slice_empty (l : List α) {lo hi : ℕ} (h : hi ≤ lo) : slice l lo hi = [] := by
  rw [slice, Nat.sub_eq_zero_of_le h, List.take_zero]

theorem slice_all (l : List α) : slice l 0 l.length = l := by
  rw [slice, List.drop_zero, Nat.sub_zero, List.take_length]

theorem slice_cons {l : List α} {i hi : ℕ} {a : α} (h : l[i]? = some a) (hlt : i < hi) :
    slice l i hi = a :: slice l (i + 1) hi := by
  obtain ⟨hi', rfl⟩ := List.getElem?_eq_some_iff.mp h
  have hsucc : hi - i = (hi - (i + 1)) + 1 := by omega
  rw [slice, List.drop_eq_getElem_cons hi', hsucc, List.take_succ_cons, slice]

theorem slice_append (l : List α) {lo mid hi : ℕ} (h : lo ≤ mid) (h' : mid ≤ hi) :
    slice l lo mid ++ slice l mid hi = slice l lo hi := by
  have hsum : hi - lo = (mid - lo) + (hi - mid) := by omega
  have hmid : mid = lo + (mid - lo) := by omega
  rw [slice, slice, slice, hsum, List.take_add, List.drop_drop, ← hmid]

theorem splice_nil (l : List α) (i : ℕ) : splice l i [] = l := by
  rw [splice, List.append_nil, List.length_nil, Nat.add_zero, List.take_append_drop]

theorem splice_length {l : List α} {i : ℕ} {out : List α} (h : i + out.length ≤ l.length) :
    (splice l i out).length = l.length := by
  simp only [splice, List.length_append, List.length_take, List.length_drop]
  omega

/-- A store followed by the elements after it. -/
theorem splice_set {l : List α} {i : ℕ} (h : i < l.length) (a : α) (out : List α) :
    splice (l.set i a) (i + 1) out = splice l i (a :: out) := by
  have htake : (l.set i a).take (i + 1) = l.take i ++ [a] := by
    rw [List.take_add_one, List.take_set_of_le (Nat.le_refl i), List.getElem?_set_self h]
    rfl
  have hdrop : (l.set i a).drop (i + 1 + out.length) = l.drop (i + (out.length + 1)) := by
    rw [List.drop_set_of_lt (by omega)]
    congr 1
    omega
  simp only [splice, htake, hdrop, List.length_cons, List.append_assoc, List.singleton_append]

theorem splice_splice {l : List α} {i j : ℕ} {xs : List α} (hj : i + xs.length = j)
    (h : j ≤ l.length) (ys : List α) : splice (splice l i xs) j ys = splice l i (xs ++ ys) := by
  subst hj
  have hpre : (l.take i ++ xs).length = i + xs.length := by
    rw [List.length_append, List.length_take]
    omega
  rw [splice, splice, ← hpre, List.take_left, ← List.drop_drop, List.drop_left, List.drop_drop,
    hpre, splice, List.length_append, ← Nat.add_assoc]
  simp only [List.append_assoc]

theorem splice_again {l : List α} {i : ℕ} {xs ys : List α} (h : i + xs.length ≤ l.length)
    (hlen : ys.length = xs.length) : splice (splice l i xs) i ys = splice l i ys := by
  have hpre : (l.take i).length = i := by
    rw [List.length_take]
    omega
  have htake : (splice l i xs).take i = l.take i := by
    rw [splice, List.append_assoc, List.take_append_of_le_length hpre.ge, List.take_take,
      Nat.min_self]
  have hall : (l.take i ++ xs).length = i + ys.length := by rw [List.length_append, hpre, hlen]
  have hdrop : (splice l i xs).drop (i + ys.length) = l.drop (i + ys.length) := by
    rw [splice, ← hall, List.drop_left, hall, hlen]
  rw [splice, htake, hdrop, splice]

theorem slice_splice {l : List α} {i : ℕ} {out : List α} (h : i + out.length ≤ l.length) :
    slice (splice l i out) i (i + out.length) = out := by
  have hpre : (l.take i).length = i := by
    rw [List.length_take]
    omega
  have hdrop : (splice l i out).drop i = out ++ l.drop (i + out.length) := by
    rw [splice, List.append_assoc, List.drop_append_of_le_length hpre.ge,
      List.drop_eq_nil_of_le hpre.le, List.nil_append]
  rw [slice, hdrop, Nat.add_sub_cancel_left, List.take_left]

theorem splice_slice {l : List α} {lo hi : ℕ} (h : lo ≤ hi) (hhi : hi ≤ l.length) :
    splice l lo (slice l lo hi) = l := by
  have hend : lo + (slice l lo hi).length = hi := by
    rw [slice_length hhi]
    omega
  have hmid : hi = lo + (hi - lo) := by omega
  rw [splice, hend, slice, List.append_assoc]
  conv_lhs => rw [hmid, Nat.add_sub_cancel_left, ← List.drop_drop, List.take_append_drop]
  exact List.take_append_drop lo l

theorem slice_congr {l l' : List α} {lo hi : ℕ} (h : ∀ j, lo ≤ j → j < hi → l[j]? = l'[j]?) :
    slice l lo hi = slice l' lo hi := by
  apply List.ext_getElem?
  intro n
  rw [slice, slice]
  by_cases hn : n < hi - lo
  · rw [List.getElem?_take_of_lt hn, List.getElem?_take_of_lt hn, List.getElem?_drop,
      List.getElem?_drop, h (lo + n) (by omega) (by omega)]
  · rw [List.getElem?_take_eq_none (by omega), List.getElem?_take_eq_none (by omega)]

theorem getElem?_splice {l : List α} {i j : ℕ} {out : List α} (h : i + out.length ≤ l.length)
    (hj : j < i ∨ i + out.length ≤ j) : (splice l i out)[j]? = l[j]? := by
  have hpre : (l.take i ++ out).length = i + out.length := by
    rw [List.length_append, List.length_take]
    omega
  rw [splice]
  cases hj with
  | inl hlt =>
    have hin : j < (l.take i).length := by
      rw [List.length_take]
      omega
    rw [List.append_assoc, List.getElem?_append_left hin, List.getElem?_take_of_lt hlt]
  | inr hge =>
    rw [List.getElem?_append_right (by omega), hpre, List.getElem?_drop]
    congr 1
    omega

/-- What is written leaves every other segment alone. -/
theorem slice_splice_of_disjoint {l : List α} {i lo hi : ℕ} {out : List α}
    (h : i + out.length ≤ l.length) (hd : hi ≤ i ∨ i + out.length ≤ lo) :
    slice (splice l i out) lo hi = slice l lo hi := by
  apply slice_congr
  intro j hlo hhi
  exact getElem?_splice h (by omega)

end StableSort
