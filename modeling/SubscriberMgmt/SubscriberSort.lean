import SubscriberMgmt.Subscriber
import SubscriberMgmt.Lib.StableSort

/-!
# Sorting of snapshots (`subscriber.c:700-756`)

Arrays hold pointers; `mem` is what a pointer points to. A function that
returns `some` has read and written inside its arrays only, and nothing that was
not written before.
-/

namespace SubscriberMgmt
open CText StableSort

/-! ### Comparing -/

/-- `strcmp` up to the size of its result. -/
def strcmp : Str → Str → ℤ
  | [], [] => 0
  | [], b :: _ => -b.toNat
  | a :: _, [] => a.toNat
  | a :: s, b :: t =>
    if a = b then if a = 0 then 0 else strcmp s t else (a.toNat : ℤ) - b.toNat

inductive SmSortKey where
  | sortById
  | sortByRegion
  | sortByPlan
  | sortByStatus
  | other (code : ℕ)
  deriving DecidableEq, Repr

def compareSubs (p : SStrPool) (a b : Subscriber) : SmSortKey → ℤ
  | .sortById =>
    if a.subscriberId < b.subscriberId then -1
    else if a.subscriberId > b.subscriberId then 1
    else 0
  | .sortByRegion => strcmp (sstrCstr p a.region) (sstrCstr p b.region)
  | .sortByPlan => strcmp (sstrCstr p a.plan) (sstrCstr p b.plan)
  | .sortByStatus => strcmp (subStatusToStr a.status) (subStatusToStr b.status)
  | .other _ => 0

theorem strcmp_swap (s t : Str) : strcmp t s = -strcmp s t := by
  fun_induction strcmp s t with
  | case1 => rfl
  | case2 b t => simp [strcmp]
  | case3 a s => simp [strcmp]
  | case4 s t => simp [strcmp]
  | case5 a s t ha ih => simp [strcmp, ha, ih]
  | case6 a s b t hne =>
    have hne' : b ≠ a := fun h => hne h.symm
    simp [strcmp, hne']

theorem strcmp_cons_le {a b : UInt8} {s t : Str} :
    strcmp (a :: s) (b :: t) ≤ 0 ↔
      a.toNat < b.toNat ∨ a = b ∧ (a = 0 ∨ strcmp s t ≤ 0) := by
  by_cases hab : a = b
  · subst hab
    by_cases ha : a = 0 <;> simp [strcmp, ha]
  · have hne : a.toNat ≠ b.toNat := fun h => hab (UInt8.toNat_inj.mp h)
    rw [strcmp, if_neg hab]
    simp only [hab, false_and, or_false]
    omega

theorem strcmp_trans (s t u : Str) (hst : strcmp s t ≤ 0) (htu : strcmp t u ≤ 0) :
    strcmp s u ≤ 0 := by
  induction s generalizing t u with
  | nil => cases u <;> simp [strcmp]
  | cons a s ih =>
    cases t with
    | nil =>
      have ha : a.toNat = 0 := by
        simp only [strcmp] at hst
        omega
      cases u with
      | nil => exact hst
      | cons c u =>
        by_cases hac : a = c
        · exact strcmp_cons_le.mpr (Or.inr ⟨hac, Or.inl (UInt8.toNat_inj.mp ha)⟩)
        · have hne : a.toNat ≠ c.toNat := fun h => hac (UInt8.toNat_inj.mp h)
          exact strcmp_cons_le.mpr (Or.inl (by omega))
    | cons b t =>
      have hab := strcmp_cons_le.mp hst
      cases u with
      | nil =>
        have hb : b.toNat = 0 := by
          simp only [strcmp] at htu
          omega
        have ha : a.toNat = 0 := by
          cases hab with
          | inl hlt => omega
          | inr heq => exact heq.1 ▸ hb
        simp only [strcmp]
        omega
      | cons c u =>
        have hbc := strcmp_cons_le.mp htu
        apply strcmp_cons_le.mpr
        cases hab with
        | inl hlt =>
          cases hbc with
          | inl hlt' => exact Or.inl (hlt.trans hlt')
          | inr heq => exact Or.inl (heq.1 ▸ hlt)
        | inr heq =>
          obtain ⟨rfl, hrest⟩ := heq
          cases hbc with
          | inl hlt' => exact Or.inl hlt'
          | inr heq' =>
            refine Or.inr ⟨heq'.1, ?_⟩
            by_cases ha : a = 0
            · exact Or.inl ha
            · exact Or.inr (ih t u (hrest.resolve_left ha) (heq'.2.resolve_left ha))

theorem compareSubs_swap (p : SStrPool) (a b : Subscriber) (key : SmSortKey) :
    compareSubs p b a key = -compareSubs p a b key := by
  cases key with
  | sortById =>
    simp only [compareSubs, gt_iff_lt, UInt64.lt_iff_toNat_lt]
    split_ifs <;> omega
  | sortByRegion => exact strcmp_swap _ _
  | sortByPlan => exact strcmp_swap _ _
  | sortByStatus => exact strcmp_swap _ _
  | other code => rfl

theorem compareSubs_trans (p : SStrPool) (a b c : Subscriber) (key : SmSortKey)
    (hab : compareSubs p a b key ≤ 0) (hbc : compareSubs p b c key ≤ 0) :
    compareSubs p a c key ≤ 0 := by
  cases key with
  | sortById =>
    simp only [compareSubs, gt_iff_lt, UInt64.lt_iff_toNat_lt] at hab hbc ⊢
    split_ifs at hab hbc ⊢ <;> omega
  | sortByRegion => exact strcmp_trans _ _ _ hab hbc
  | sortByPlan => exact strcmp_trans _ _ _ hab hbc
  | sortByStatus => exact strcmp_trans _ _ _ hab hbc
  | other code => exact hab

/-! ### Merge sort -/

section

variable {Ptr : Type*} (cmp : Ptr → Ptr → ℤ)

/-- `array[i] = v`, if `i` is in bounds. -/
def store {α : Type*} (array : List α) (i : ℕ) (v : α) : Option (List α) :=
  if i < array.length then some (array.set i v) else none

/-- The loop that takes the smaller head of both halves. -/
def mergeHeads (arr : List Ptr) (mid hi : ℕ) (i j k : ℕ) (tmp : List (Option Ptr)) :
    Option (ℕ × ℕ × ℕ × List (Option Ptr)) :=
  if i < mid ∧ j < hi then
    match arr[i]?, arr[j]? with
    | some a, some b =>
      if cmp a b ≤ 0 then
        match store tmp k (some a) with
        | some tmp => mergeHeads arr mid hi (i + 1) j (k + 1) tmp
        | none => none
      else
        match store tmp k (some b) with
        | some tmp => mergeHeads arr mid hi i (j + 1) (k + 1) tmp
        | none => none
    | _, _ => none
  else some (i, j, k, tmp)
termination_by (mid - i) + (hi - j)

/-- `while (i < stop) tmp[k++] = arr[i++];` -/
def copyRest (arr : List Ptr) (stop : ℕ) (i k : ℕ) (tmp : List (Option Ptr)) :
    Option (ℕ × List (Option Ptr)) :=
  if i < stop then
    match arr[i]? with
    | some a =>
      match store tmp k (some a) with
      | some tmp => copyRest arr stop (i + 1) (k + 1) tmp
      | none => none
    | none => none
  else some (k, tmp)
termination_by stop - i

/-- `for (; x < hi; ++x) arr[x] = tmp[x];` -/
def copyBack (tmp : List (Option Ptr)) (hi : ℕ) (x : ℕ) (arr : List Ptr) : Option (List Ptr) :=
  if x < hi then
    match tmp[x]? with
    | some (some a) =>
      match store arr x a with
      | some arr => copyBack tmp hi (x + 1) arr
      | none => none
    | _ => none
  else some arr
termination_by hi - x

/-- `merge_sort_rec` after its two calls. -/
def mergeHalves (arr : List Ptr) (tmp : List (Option Ptr)) (lo mid hi : ℕ) :
    Option (List Ptr × List (Option Ptr)) := do
  let (i, j, k, tmp) ← mergeHeads cmp arr mid hi lo mid lo tmp
  let (k, tmp) ← copyRest arr mid i k tmp
  let (_, tmp) ← copyRest arr hi j k tmp
  let arr ← copyBack tmp hi lo arr
  return (arr, tmp)

def mergeSortRec (arr : List Ptr) (tmp : List (Option Ptr)) (lo hi : ℕ) :
    Option (List Ptr × List (Option Ptr)) :=
  if hi - lo ≤ 1 then some (arr, tmp)
  else do
    let mid := lo + (hi - lo) / 2
    let (arr, tmp) ← mergeSortRec arr tmp lo mid
    let (arr, tmp) ← mergeSortRec arr tmp mid hi
    mergeHalves cmp arr tmp lo mid hi
termination_by hi - lo

theorem store_eq {α : Type*} {array : List α} {i : ℕ} (h : i < array.length) (v : α) :
    store array i v = some (array.set i v) := if_pos h

def atMost (a b : Ptr) : Bool := cmp a b ≤ 0

theorem mergeHeads_spec (arr : List Ptr) (mid hi : ℕ) (hmid : mid ≤ arr.length)
    (hhi : hi ≤ arr.length) (i j k : ℕ) (tmp : List (Option Ptr))
    (hroom : k + (mid - i) + (hi - j) ≤ tmp.length) :
    ∃ i' j' out,
      mergeHeads cmp arr mid hi i j k tmp =
          some (i', j', k + out.length, splice tmp k (out.map some)) ∧
        out.length + (mid - i') + (hi - j') = (mid - i) + (hi - j) ∧
        out ++ (slice arr i' mid ++ slice arr j' hi) =
          (slice arr i mid).merge (slice arr j hi) (atMost cmp) := by
  fun_induction mergeHeads cmp arr mid hi i j k tmp with
  | case1 i j k tmp hheads a b hb ha hle tmp' hstore ih =>
    have hk : k < tmp.length := by omega
    rw [store_eq hk, Option.some.injEq] at hstore
    subst hstore
    have hroom' : k + 1 + (mid - (i + 1)) + (hi - j) ≤ (tmp.set k (some a)).length := by
      rw [List.length_set]
      omega
    obtain ⟨i', j', out, hrun, hlen, hout⟩ := ih hroom'
    clear ih
    refine ⟨i', j', a :: out, ?_, by rw [List.length_cons]; omega, ?_⟩
    · rw [hrun, splice_set hk, List.length_cons, List.map_cons, Nat.add_assoc, Nat.add_comm 1]
    · rw [slice_cons ha hheads.1, slice_cons hb hheads.2, List.cons_merge_cons_pos,
        ← slice_cons hb hheads.2, ← hout, List.cons_append]
      exact decide_eq_true hle
  | case2 i j k tmp hheads a b hb ha hle hstore =>
    rw [store_eq (by omega)] at hstore
    cases hstore
  | case3 i j k tmp hheads a b hb ha hle tmp' hstore ih =>
    have hk : k < tmp.length := by omega
    rw [store_eq hk, Option.some.injEq] at hstore
    subst hstore
    have hroom' : k + 1 + (mid - i) + (hi - (j + 1)) ≤ (tmp.set k (some b)).length := by
      rw [List.length_set]
      omega
    obtain ⟨i', j', out, hrun, hlen, hout⟩ := ih hroom'
    clear ih
    refine ⟨i', j', b :: out, ?_, by rw [List.length_cons]; omega, ?_⟩
    · rw [hrun, splice_set hk, List.length_cons, List.map_cons, Nat.add_assoc, Nat.add_comm 1]
    · rw [slice_cons ha hheads.1, slice_cons hb hheads.2, List.cons_merge_cons_neg,
        ← slice_cons ha hheads.1, ← hout, List.cons_append]
      simp only [atMost, decide_eq_true_eq]
      exact hle
  | case4 i j k tmp hheads a b hb ha hle hstore =>
    rw [store_eq (by omega)] at hstore
    cases hstore
  | case5 i j k tmp hheads hnone =>
    exact absurd (List.getElem?_eq_getElem (by omega)) fun h => hnone _ _ h
      (List.getElem?_eq_getElem (by omega))
  | case6 i j k tmp hend =>
    refine ⟨i, j, [], ?_, by rw [List.length_nil]; omega, ?_⟩
    · rw [List.map_nil, splice_nil]
      rfl
    · by_cases hi' : i < mid
      · have hright : slice arr j hi = [] := slice_empty arr (by omega)
        rw [hright]
        simp
      · have hleft : slice arr i mid = [] := slice_empty arr (by omega)
        rw [hleft]
        simp

theorem copyRest_spec (arr : List Ptr) (stop : ℕ) (hstop : stop ≤ arr.length) (i k : ℕ)
    (tmp : List (Option Ptr)) (hroom : k + (stop - i) ≤ tmp.length) :
    copyRest arr stop i k tmp =
      some (k + (stop - i), splice tmp k ((slice arr i stop).map some)) := by
  fun_induction copyRest arr stop i k tmp with
  | case1 i k tmp hlt a ha tmp' hstore ih =>
    have hk : k < tmp.length := by omega
    rw [store_eq hk, Option.some.injEq] at hstore
    subst hstore
    rw [ih (by rw [List.length_set]; omega), splice_set hk, slice_cons ha hlt, List.map_cons]
    congr 2
    omega
  | case2 i k tmp hlt a ha hstore =>
    rw [store_eq (by omega)] at hstore
    cases hstore
  | case3 i k tmp hlt hnone =>
    rw [List.getElem?_eq_getElem (by omega)] at hnone
    cases hnone
  | case4 i k tmp hend =>
    have hdone : stop - i = 0 := by omega
    rw [slice_empty arr (by omega), List.map_nil, splice_nil, hdone]
    rfl

theorem copyBack_spec (tmp : List (Option Ptr)) (hi : ℕ) (htmp : hi ≤ tmp.length) (x : ℕ)
    (arr : List Ptr) (harr : hi ≤ arr.length) (out : List Ptr)
    (hbuf : slice tmp x hi = out.map some) :
    copyBack tmp hi x arr = some (splice arr x out) := by
  fun_induction copyBack tmp hi x arr generalizing out with
  | case1 x arr hlt a ha arr' hstore ih =>
    have hx : x < arr.length := by omega
    rw [store_eq hx, Option.some.injEq] at hstore
    subst hstore
    rw [slice_cons ha hlt] at hbuf
    cases out with
    | nil => cases hbuf
    | cons b out =>
      rw [List.map_cons, List.cons.injEq, Option.some.injEq] at hbuf
      rw [ih (by rw [List.length_set]; omega) out hbuf.2, splice_set hx, hbuf.1]
  | case2 x arr hlt a ha hstore =>
    rw [store_eq (by omega)] at hstore
    cases hstore
  | case3 x arr hlt hnone =>
    have hx := List.getElem?_eq_getElem (show x < tmp.length by omega)
    rw [slice_cons hx hlt] at hbuf
    cases out with
    | nil => cases hbuf
    | cons b out =>
      rw [List.map_cons, List.cons.injEq] at hbuf
      exact absurd (hx.trans (congrArg some hbuf.1)) (hnone b)
  | case4 x arr hend =>
    rw [slice_empty tmp (by omega)] at hbuf
    rw [List.map_eq_nil_iff.mp hbuf.symm, splice_nil]

theorem mergeHalves_spec (arr : List Ptr) (tmp : List (Option Ptr)) {lo mid hi : ℕ}
    (hlo : lo ≤ mid) (hmid : mid ≤ hi) (hhi : hi ≤ arr.length) (htmp : tmp.length = arr.length) :
    ∃ tmp', tmp'.length = arr.length ∧ mergeHalves cmp arr tmp lo mid hi =
      some (splice arr lo ((slice arr lo mid).merge (slice arr mid hi) (atMost cmp)), tmp') := by
  obtain ⟨i, j, out, hheads, hlen, hout⟩ := mergeHeads_spec cmp arr mid hi (by omega) hhi lo mid lo
    tmp (by omega)
  have hl : (slice arr i mid).length = mid - i := slice_length (by omega)
  have hr : (slice arr j hi).length = hi - j := slice_length hhi
  have hmerged : ((slice arr lo mid).merge (slice arr mid hi) (atMost cmp)).length = hi - lo := by
    rw [List.length_merge, slice_length (by omega), slice_length hhi]
    omega
  -- the buffer after each of the three loops
  have hlen1 : (splice tmp lo (out.map some)).length = tmp.length := splice_length (by
    rw [List.length_map]
    omega)
  have hleft := copyRest_spec arr mid (by omega) i (lo + out.length)
    (splice tmp lo (out.map some)) (by omega)
  have hjoin1 : splice (splice tmp lo (out.map some)) (lo + out.length)
      ((slice arr i mid).map some) = splice tmp lo ((out ++ slice arr i mid).map some) := by
    rw [splice_splice (by rw [List.length_map]) (by omega), List.map_append]
  have hlen2 : (splice tmp lo ((out ++ slice arr i mid).map some)).length = tmp.length :=
    splice_length (by
      rw [List.length_map, List.length_append]
      omega)
  have hright := copyRest_spec arr hi hhi j (lo + out.length + (mid - i))
    (splice tmp lo ((out ++ slice arr i mid).map some)) (by omega)
  have hjoin2 : splice (splice tmp lo ((out ++ slice arr i mid).map some))
      (lo + out.length + (mid - i)) ((slice arr j hi).map some) =
        splice tmp lo (((slice arr lo mid).merge (slice arr mid hi) (atMost cmp)).map some) := by
    have hstart : lo + ((out ++ slice arr i mid).map some).length =
        lo + out.length + (mid - i) := by
      rw [List.length_map, List.length_append, hl]
      omega
    rw [splice_splice hstart (by omega), ← List.map_append, List.append_assoc, hout]
  have hmergedRoom : lo + (((slice arr lo mid).merge (slice arr mid hi)
      (atMost cmp)).map some).length ≤ tmp.length := by
    rw [List.length_map, hmerged]
    omega
  have hlen3 := splice_length hmergedRoom
  have hwritten := slice_splice hmergedRoom
  have hend : lo + (((slice arr lo mid).merge (slice arr mid hi)
      (atMost cmp)).map some).length = hi := by
    rw [List.length_map, hmerged]
    omega
  rw [hend] at hwritten
  refine ⟨_, hlen3.trans htmp, ?_⟩
  simp only [mergeHalves, hheads, hleft, hjoin1, hright, hjoin2, Option.bind_eq_bind,
    Option.bind_some, copyBack_spec _ hi (by omega) lo arr hhi _ hwritten]
  rfl

variable (total : ∀ a b, atMost cmp a b || atMost cmp b a)
  (trans : ∀ a b c, atMost cmp a b → atMost cmp b c → atMost cmp a c)
include total trans

/-- Only the segment changes, and it is sorted stably. -/
theorem mergeSortRec_spec (arr : List Ptr) (tmp : List (Option Ptr)) (lo hi : ℕ) (hlo : lo ≤ hi)
    (hhi : hi ≤ arr.length) (htmp : tmp.length = arr.length) :
    ∃ out tmp', mergeSortRec cmp arr tmp lo hi = some (splice arr lo out, tmp') ∧
      tmp'.length = arr.length ∧ Sorts (atMost cmp) (slice arr lo hi) out := by
  induction hn : hi - lo using Nat.strongRecOn generalizing arr tmp lo hi with
  | _ n ih =>
    subst hn
    by_cases hshort : hi - lo ≤ 1
    · refine ⟨slice arr lo hi, tmp, ?_, htmp, Sorts.of_short ?_⟩
      · rw [mergeSortRec, if_pos hshort, splice_slice hlo hhi]
      · rwa [slice_length hhi]
    · obtain ⟨mid, hmid⟩ : ∃ mid, mid = lo + (hi - lo) / 2 := ⟨_, rfl⟩
      -- the left half
      obtain ⟨out1, tmp1, hrun1, htmp1, hs1⟩ := ih (mid - lo) (by omega) arr tmp lo mid (by omega)
        (by omega) htmp rfl
      have hlen1 : lo + out1.length = mid := by
        rw [hs1.perm.length_eq, slice_length (by omega)]
        omega
      have harr1 : (splice arr lo out1).length = arr.length := splice_length (by omega)
      -- the right half, still as it was
      obtain ⟨out2, tmp2, hrun2, htmp2, hs2⟩ := ih (hi - mid) (by omega) (splice arr lo out1) tmp1
        mid hi (by omega) (by omega) (by omega) rfl
      rw [slice_splice_of_disjoint (by omega) (Or.inr (by omega))] at hs2
      have hlen2 : mid + out2.length = hi := by
        rw [hs2.perm.length_eq, slice_length hhi]
        omega
      have harr2 : (splice (splice arr lo out1) mid out2).length = (splice arr lo out1).length :=
        splice_length (by omega)
      have hleft : slice (splice (splice arr lo out1) mid out2) lo mid = out1 := by
        rw [slice_splice_of_disjoint (by omega) (Or.inl le_rfl), ← hlen1,
          slice_splice (by omega)]
      have hright : slice (splice (splice arr lo out1) mid out2) mid hi = out2 := by
        rw [← hlen2, slice_splice (by omega)]
      obtain ⟨tmp3, htmp3, hmerge⟩ := mergeHalves_spec cmp (splice (splice arr lo out1) mid out2)
        tmp2 (show lo ≤ mid by omega) (show mid ≤ hi by omega) (by omega) (by omega)
      refine ⟨out1.merge out2 (atMost cmp), tmp3, ?_, by omega, ?_⟩
      · have hjoined : lo + (out1 ++ out2).length ≤ arr.length := by
          rw [List.length_append]
          omega
        have hsame : (out1.merge out2 (atMost cmp)).length = (out1 ++ out2).length := by
          rw [List.length_merge, List.length_append]
        rw [mergeSortRec, if_neg hshort]
        simp only [← hmid, hrun1, hrun2, Option.bind_eq_bind, Option.bind_some]
        rw [hmerge, hleft, hright, splice_splice hlen1 (by omega), splice_again hjoined hsame]
      · rw [← slice_append arr (show lo ≤ mid by omega) (show mid ≤ hi by omega)]
        exact hs1.merge trans total hs2

end

/-- `sub_sort_merge`; `tmpOk` says whether `malloc` returned the buffer. -/
def subSortMerge {Ptr : Type*} (p : SStrPool) (mem : Ptr → Subscriber) (tmpOk : Bool)
    (array : Option (List Ptr)) (key : SmSortKey) : Option (Option (List Ptr)) :=
  match array with
  | none => some none
  | some array =>
    if array.length < 2 then some (some array)
    else if !tmpOk then some (some array)
    else do
      let (array, _) ← mergeSortRec (fun a b => compareSubs p (mem a) (mem b) key) array
        (List.replicate array.length none) 0 array.length
      return some array

section Order

variable {Ptr : Type*} (p : SStrPool) (mem : Ptr → Subscriber) (key : SmSortKey)

theorem atMost_total (a b : Ptr) :
    (atMost (fun a b => compareSubs p (mem a) (mem b) key) a b ||
      atMost (fun a b => compareSubs p (mem a) (mem b) key) b a) = true := by
  have hswap := compareSubs_swap p (mem a) (mem b) key
  simp only [atMost, Bool.or_eq_true, decide_eq_true_eq]
  omega

theorem atMost_trans (a b c : Ptr)
    (hab : atMost (fun a b => compareSubs p (mem a) (mem b) key) a b = true)
    (hbc : atMost (fun a b => compareSubs p (mem a) (mem b) key) b c = true) :
    atMost (fun a b => compareSubs p (mem a) (mem b) key) a c = true := by
  simp only [atMost, decide_eq_true_eq] at hab hbc ⊢
  exact compareSubs_trans p _ _ _ key hab hbc

theorem tied_eq (a : Ptr) : Tied (atMost fun a b => compareSubs p (mem a) (mem b) key) a =
    fun b => decide (compareSubs p (mem a) (mem b) key = 0) := by
  funext b
  have hswap := compareSubs_swap p (mem a) (mem b) key
  rw [Tied, atMost, atMost, ← Bool.decide_and, decide_eq_decide]
  omega

theorem subSortMerge_sorts (array : List Ptr) :
    ∃ out, subSortMerge p mem true (some array) key = some (some out) ∧
      Sorts (atMost fun a b => compareSubs p (mem a) (mem b) key) array out := by
  by_cases hshort : array.length < 2
  · refine ⟨array, ?_, Sorts.of_short (by omega)⟩
    rw [subSortMerge, if_pos hshort]
  · obtain ⟨out, tmp', hrun, -, hs⟩ :=
      mergeSortRec_spec (fun a b => compareSubs p (mem a) (mem b) key) (atMost_total p mem key)
        (atMost_trans p mem key) array (List.replicate array.length none) 0 array.length
        (Nat.zero_le _) le_rfl List.length_replicate
    have hall : splice array 0 out = out := by
      have hlen := hs.perm.length_eq
      rw [slice_all] at hlen
      rw [splice, hlen, Nat.zero_add, List.drop_length]
      simp
    rw [slice_all] at hs
    refine ⟨out, ?_, hs⟩
    simp only [subSortMerge, if_neg hshort, hrun, hall]
    rfl

end Order

/-- Every run comes to an end, in bounds: a stable sort with the buffer, the array as
it was without. -/
theorem subSortMerge_correct {Ptr : Type*} (p : SStrPool) (mem : Ptr → Subscriber)
    (array : List Ptr) (key : SmSortKey) :
    (∃ out, subSortMerge p mem true (some array) key = some (some out) ∧ out.Perm array ∧
      out.Pairwise (fun a b => compareSubs p (mem a) (mem b) key ≤ 0) ∧
      ∀ a, out.filter (fun b => compareSubs p (mem a) (mem b) key = 0) =
        array.filter fun b => compareSubs p (mem a) (mem b) key = 0) ∧
    subSortMerge p mem false (some array) key = some (some array) := by
  constructor
  · obtain ⟨out, hrun, hs⟩ := subSortMerge_sorts p mem key array
    refine ⟨out, hrun, hs.perm, ?_, ?_⟩
    · exact hs.sorted.imp fun h => of_decide_eq_true h
    · intro a
      have hstable := hs.stable a
      rwa [tied_eq] at hstable
  · rw [subSortMerge]
    simp

end SubscriberMgmt
