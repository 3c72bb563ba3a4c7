import SubscriberMgmt.SubscriberQuickSort

/-!
# How deep the quicksort calls itself (`subscriber.c:772-813`)

The loop of `quick_sort_rec` runs at one level, and the nested call one level below.
-/

namespace SubscriberMgmt

inductive QuickSortFault where
  | outOfBounds | outOfLevels
  deriving DecidableEq

def inBounds {α : Type*} (result : Option α) : Except QuickSortFault α :=
  result.elim (.error .outOfBounds) .ok

section

variable {Ptr : Type*} (cmp : Ptr → Ptr → ℤ)

/-- `quick_sort_rec` with `levels` levels of nested calls left. -/
def quickSortLevels (levels : ℕ) (arr : List Ptr) (lo hi : ℤ) :
    Except QuickSortFault (List Ptr) :=
  if hlt : lo < hi then
    if hi - lo < 12 then inBounds (insertionSort cmp lo hi arr (lo + 1))
    else
      match hpart : partition cmp arr lo hi with
      | none => .error .outOfBounds
      | some (arr, p) =>
        have := partition_bounds cmp hlt hpart
        match levels with
        | 0 => .error .outOfLevels
        | below + 1 =>
          if p - lo < hi - p then do
            let arr ← quickSortLevels below arr lo (p - 1)
            quickSortLevels (below + 1) arr (p + 1) hi
          else do
            let arr ← quickSortLevels below arr (p + 1) hi
            quickSortLevels (below + 1) arr lo (p - 1)
  else .ok arr
termination_by (hi - lo).toNat
decreasing_by all_goals omega

variable {cmp} {arr arr' : List Ptr} {lo hi p : ℤ}

theorem quickSortLevels_large (hlong : 12 ≤ hi - lo)
    (h : partition cmp arr lo hi = some (arr', p)) (below : ℕ) :
    quickSortLevels cmp (below + 1) arr lo hi =
      if p - lo < hi - p then
        (quickSortLevels cmp below arr' lo (p - 1)).bind fun arr =>
          quickSortLevels cmp (below + 1) arr (p + 1) hi
      else
        (quickSortLevels cmp below arr' (p + 1) hi).bind fun arr =>
          quickSortLevels cmp (below + 1) arr lo (p - 1) := by
  rw [quickSortLevels, dif_pos (by omega), if_neg (by omega)]
  split
  case h_1 hnone =>
    rw [h] at hnone
    cases hnone
  case h_2 hsome =>
    rw [h] at hsome
    cases hsome
    rfl

/-- Without a level left, a partition is the end of the run. -/
theorem quickSortLevels_none_left (hlong : 12 ≤ hi - lo)
    (h : partition cmp arr lo hi = some (arr', p)) :
    quickSortLevels cmp 0 arr lo hi = .error .outOfLevels := by
  rw [quickSortLevels, dif_pos (by omega), if_neg (by omega)]
  split
  case h_1 hnone =>
    rw [h] at hnone
    cases hnone
  case h_2 => rfl

theorem quickSortLevels_outside (hlong : 12 ≤ hi - lo) (h : partition cmp arr lo hi = none)
    (levels : ℕ) : quickSortLevels cmp levels arr lo hi = .error .outOfBounds := by
  rw [quickSortLevels, dif_pos (by omega), if_neg (by omega)]
  split
  case h_1 => rfl
  case h_2 hsome =>
    rw [h] at hsome
    cases hsome

theorem inBounds_bind {α β : Type*} (o : Option α) (f : α → Option β) :
    inBounds (o.bind f) = (inBounds o).bind fun a => inBounds (f a) := by
  cases o with
  | none => rfl
  | some a => rfl

/-- The nested call gets less than half of a range below `2 ^ (levels + 1)`. -/
theorem quickSortLevels_eq {levels : ℕ} (hroom : hi - lo + 1 < 2 ^ (levels + 1)) :
    quickSortLevels cmp levels arr lo hi = inBounds (quickSortRec cmp arr lo hi) := by
  induction hn : (hi - lo).toNat using Nat.strongRecOn generalizing levels arr lo hi with
  | _ n ih =>
    subst hn
    by_cases hlong : 12 ≤ hi - lo
    · cases hpart : partition cmp arr lo hi with
      | none =>
        rw [quickSortLevels_outside hlong hpart, quickSortRec_outside cmp hlong hpart]
        rfl
      | some r =>
        obtain ⟨arr', p⟩ := r
        obtain ⟨hlo, hhi⟩ := partition_bounds cmp (by omega) hpart
        obtain ⟨below, rfl⟩ : ∃ below, levels = below + 1 := by
          cases levels with
          | zero => omega
          | succ below => exact ⟨below, rfl⟩
        have hdouble : (2 : ℤ) ^ (below + 1 + 1) = 2 * 2 ^ (below + 1) := by ring
        rw [quickSortLevels_large hlong hpart, quickSortRec_large cmp hlong hpart]
        split
        case isTrue hside =>
          rw [inBounds_bind, ih _ (by omega) (by omega) rfl]
          congr 1
          funext arr
          exact ih _ (by omega) (by omega) rfl
        case isFalse hside =>
          rw [inBounds_bind, ih _ (by omega) (by omega) rfl]
          congr 1
          funext arr
          exact ih _ (by omega) (by omega) rfl
    · rw [quickSortLevels, quickSortRec]
      split
      case isTrue hlt => rw [if_pos (by omega), if_pos (by omega)]
      case isFalse => rfl

theorem log2_room {n : ℕ} (hrange : hi - lo + 1 = n) : hi - lo + 1 < 2 ^ (n.log2 + 1) := by
  have hpow : (n : ℤ) < ((2 ^ (n.log2 + 1) : ℕ) : ℤ) := Int.ofNat_lt.mpr Nat.lt_log2_self
  rw [hrange]
  exact_mod_cast hpow

end

section

variable {Ptr : Type*}

theorem quickSortLevels_sorts (p : SStrPool) (mem : Ptr → Subscriber) (key : SmSortKey)
    (P S T : List Ptr) :
    ∃ out, quickSortLevels (fun a b => compareSubs p (mem a) (mem b) key) S.length.log2
        (P ++ (S ++ T)) P.length (P.length + S.length - 1) = .ok (P ++ (out ++ T)) ∧
      out.Perm S ∧ out.Pairwise fun a b => compareSubs p (mem a) (mem b) key ≤ 0 := by
  have htotal : ∀ a b, compareSubs p (mem a) (mem b) key ≤ 0 ∨
      compareSubs p (mem b) (mem a) key ≤ 0 := by
    intro a b
    have hswap := compareSubs_swap p (mem a) (mem b) key
    omega
  obtain ⟨out, hrun, hperm, hsorted⟩ := quickSortRec_spec
    (fun a b => compareSubs p (mem a) (mem b) key)
    (fun a b c => compareSubs_trans p (mem a) (mem b) (mem c) key) htotal P S T
  refine ⟨out, ?_, hperm, hsorted⟩
  have hrange : (P.length : ℤ) + S.length - 1 - P.length + 1 = S.length := by omega
  rw [quickSortLevels_eq (log2_room hrange), hrun]
  rfl

/-- The base two logarithm of the range, rounded down, is enough for any comparison. -/
theorem quick_sort_levels (cmp : Ptr → Ptr → ℤ) (arr : List Ptr) {lo hi : ℤ} {n : ℕ}
    (hrange : hi - lo + 1 = n) :
    quickSortLevels cmp n.log2 arr lo hi ≠ .error .outOfLevels ∧
      quickSortLevels cmp n.log2 arr lo hi = inBounds (quickSortRec cmp arr lo hi) := by
  have hsame : quickSortLevels cmp n.log2 arr lo hi = inBounds (quickSortRec cmp arr lo hi) :=
    quickSortLevels_eq (log2_room hrange)
  refine ⟨fun hout => ?_, hsame⟩
  rw [hsame] at hout
  cases hrun : quickSortRec cmp arr lo hi with
  | none =>
    rw [hrun] at hout
    cases hout
  | some out =>
    rw [hrun] at hout
    cases hout

/-- Thirteen numbers, the largest first: three levels are enough, and none is too few. -/
theorem quick_sort_levels_thirteen :
    let cmp : ℤ → ℤ → ℤ := fun a b => a - b
    let arr : List ℤ := [13, 12, 11, 10, 9, 8, 7, 6, 5, 4, 3, 2, 1]
    quickSortLevels cmp 3 arr 0 12 ≠ .error .outOfLevels ∧
      quickSortLevels cmp 0 arr 0 12 = .error .outOfLevels := by
  intro cmp arr
  have hlog : Nat.log2 13 = 3 := by decide
  have hrange : (12 : ℤ) - 0 + 1 = (13 : ℕ) := by decide
  have hspec := quick_sort_levels cmp arr hrange
  rw [hlog] at hspec
  obtain ⟨L, p, G, hpart, -⟩ := partition_spec cmp [] arr [] (by decide)
  exact ⟨hspec.1, quickSortLevels_none_left (by decide) hpart⟩

end

end SubscriberMgmt
