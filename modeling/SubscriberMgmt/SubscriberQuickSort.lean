import SubscriberMgmt.SubscriberSort

/-!
# Quicksort (`subscriber.c:758-821`)

Indices are of type `long`, and an index below zero is out of bounds as well. In
the proofs an array is cut into what stands before a segment, the segment, and
what stands after it.
-/

namespace SubscriberMgmt
open CText StableSort
open scoped List

section

variable {Ptr : Type*} (cmp : Ptr → Ptr → ℤ)

/-! ### The functions -/

/-- `arr[i]` -/
def load (arr : List Ptr) (i : ℤ) : Option Ptr := if 0 ≤ i then arr[i.toNat]? else none

/-- `arr[i] = v` -/
def storeAt (arr : List Ptr) (i : ℤ) (v : Ptr) : Option (List Ptr) :=
  if 0 ≤ i then store arr i.toNat v else none

def swapPtr (arr : List Ptr) (a b : ℤ) : Option (List Ptr) := do
  let t ← load arr a
  let v ← load arr b
  let arr ← storeAt arr a v
  storeAt arr b t

/-- `if (compare_subs(arr[a], arr[b], key) > 0) swap_ptr(&arr[a], &arr[b]);` -/
def swapIfAbove (arr : List Ptr) (a b : ℤ) : Option (List Ptr) := do
  let x ← load arr a
  let y ← load arr b
  if cmp x y > 0 then swapPtr arr a b else return arr

def medianOfThree (arr : List Ptr) (lo mid hi : ℤ) : Option (List Ptr × ℤ) := do
  let arr ← swapIfAbove cmp arr lo mid
  let arr ← swapIfAbove cmp arr lo hi
  let arr ← swapIfAbove cmp arr mid hi
  return (arr, mid)

/-- The inner loop of the insertion sort. -/
def slideUp (lo : ℤ) (keyVal : Ptr) (arr : List Ptr) (j : ℤ) : Option (List Ptr × ℤ) :=
  if j ≥ lo then
    match load arr j with
    | none => none
    | some a =>
      if cmp a keyVal > 0 then
        match storeAt arr (j + 1) a with
        | none => none
        | some arr => slideUp lo keyVal arr (j - 1)
      else some (arr, j)
  else some (arr, j)
termination_by (j + 1 - lo).toNat

def insertionSort (lo hi : ℤ) (arr : List Ptr) (i : ℤ) : Option (List Ptr) :=
  if i ≤ hi then do
    let keyVal ← load arr i
    let (arr, j) ← slideUp cmp lo keyVal arr (i - 1)
    let arr ← storeAt arr (j + 1) keyVal
    insertionSort lo hi arr (i + 1)
  else some arr
termination_by (hi + 1 - i).toNat

/-- The loop of the partition. -/
def partitionLoop (pivot : Ptr) (hi : ℤ) (arr : List Ptr) (i j : ℤ) : Option (List Ptr × ℤ) :=
  if j < hi then
    match load arr j with
    | none => none
    | some a =>
      if cmp a pivot ≤ 0 then
        match swapPtr arr (i + 1) j with
        | none => none
        | some arr => partitionLoop pivot hi arr (i + 1) (j + 1)
      else partitionLoop pivot hi arr i (j + 1)
  else some (arr, i)
termination_by (hi - j).toNat

/-- The array after the partition and the place `p` of the pivot. -/
def partition (arr : List Ptr) (lo hi : ℤ) : Option (List Ptr × ℤ) := do
  let (arr, mid) ← medianOfThree cmp arr lo (lo + (hi - lo) / 2) hi
  let arr ← swapPtr arr mid hi
  let pivot ← load arr hi
  let (arr, i) ← partitionLoop cmp pivot hi arr (lo - 1) lo
  let arr ← swapPtr arr (i + 1) hi
  return (arr, i + 1)

theorem partitionLoop_bounds {pivot : Ptr} {hi : ℤ} {arr arr' : List Ptr} {i i' j : ℤ}
    (hj : j ≤ hi) (h : partitionLoop cmp pivot hi arr i j = some (arr', i')) :
    i ≤ i' ∧ i' - i ≤ hi - j := by
  fun_induction partitionLoop cmp pivot hi arr i j with
  | case1 => cases h
  | case2 => cases h
  | case3 arr i j hlt a ha hle arr1 hswap ih =>
    have hrec := ih (by omega) h
    omega
  | case4 arr i j hlt a ha hgt ih =>
    have hrec := ih (by omega) h
    omega
  | case5 arr i j hend =>
    cases h
    omega

theorem partition_bounds {arr arr' : List Ptr} {lo hi p : ℤ} (hlt : lo < hi)
    (h : partition cmp arr lo hi = some (arr', p)) : lo ≤ p ∧ p ≤ hi := by
  simp only [partition, Option.bind_eq_bind, Option.bind_eq_some_iff, Option.pure_def,
    Option.some.injEq, Prod.mk.injEq] at h
  obtain ⟨_, -, arr1, -, pivot, -, ⟨arr2, i⟩, hloop, _, -, -, hp⟩ := h
  have hb := partitionLoop_bounds cmp (Int.le_of_lt hlt) hloop
  dsimp only at hp hb
  omega

/-- The loop of the source goes on with the larger part, which is a call here. -/
def quickSortRec (arr : List Ptr) (lo hi : ℤ) : Option (List Ptr) :=
  if hlt : lo < hi then
    if hi - lo < 12 then insertionSort cmp lo hi arr (lo + 1)
    else
      match hpart : partition cmp arr lo hi with
      | none => none
      | some (arr, p) =>
        have := partition_bounds cmp hlt hpart
        if p - lo < hi - p then do
          let arr ← quickSortRec arr lo (p - 1)
          quickSortRec arr (p + 1) hi
        else do
          let arr ← quickSortRec arr (p + 1) hi
          quickSortRec arr lo (p - 1)
  else some arr
termination_by (hi - lo).toNat
decreasing_by all_goals omega

/-! ### Reading and writing -/

theorem load_at {i : ℤ} {A B : List Ptr} {x : Ptr} (h : i = A.length) :
    load (A ++ x :: B) i = some x := by
  subst h
  simp [load]

theorem storeAt_at {i : ℤ} {A B : List Ptr} {x : Ptr} (h : i = A.length) (v : Ptr) :
    storeAt (A ++ x :: B) i v = some (A ++ v :: B) := by
  subst h
  simp [storeAt, store]

theorem swapPtr_same {i : ℤ} {A B : List Ptr} {x : Ptr} (h : i = A.length) :
    swapPtr (A ++ x :: B) i i = some (A ++ x :: B) := by
  simp [swapPtr, load_at h, storeAt_at h]

theorem swapPtr_at {i j : ℤ} {A B C : List Ptr} {x y : Ptr} (hi : i = A.length)
    (hj : j = A.length + 1 + B.length) :
    swapPtr (A ++ x :: (B ++ y :: C)) i j = some (A ++ y :: (B ++ x :: C)) := by
  have hj' : ∀ v, j = ((A ++ v :: B).length : ℤ) := by
    intro v
    rw [List.length_append, List.length_cons]
    push_cast
    omega
  have hcut : ∀ v w : Ptr, A ++ v :: (B ++ w :: C) = (A ++ v :: B) ++ w :: C := by
    intro v w
    rw [List.append_assoc, List.cons_append]
  have hread : load (A ++ x :: (B ++ y :: C)) j = some y := by
    rw [hcut, load_at (hj' x)]
  have hwrite : storeAt (A ++ y :: (B ++ y :: C)) j x = some (A ++ y :: (B ++ x :: C)) := by
    rw [hcut, storeAt_at (hj' y), hcut]
  simp only [swapPtr, load_at hi, hread, storeAt_at hi, hwrite, Option.bind_eq_bind,
    Option.bind_some]

theorem swapIfAbove_at {i j : ℤ} {A B C : List Ptr} {x y : Ptr} (hi : i = A.length)
    (hj : j = A.length + 1 + B.length) :
    ∃ x' y', swapIfAbove cmp (A ++ x :: (B ++ y :: C)) i j = some (A ++ x' :: (B ++ y' :: C)) ∧
      (A ++ x' :: (B ++ y' :: C)).Perm (A ++ x :: (B ++ y :: C)) := by
  have hj' : j = ((A ++ x :: B).length : ℤ) := by
    rw [List.length_append, List.length_cons]
    push_cast
    omega
  have hread : load (A ++ x :: (B ++ y :: C)) j = some y := by
    rw [← List.cons_append, ← List.append_assoc, load_at hj']
  simp only [swapIfAbove, load_at hi, hread, Option.bind_eq_bind, Option.bind_some]
  split
  case isTrue => exact ⟨y, x, swapPtr_at hi hj, perm_exchange A B C x y⟩
  case isFalse => exact ⟨x, y, rfl, List.Perm.refl _⟩

/-! ### Partition -/

/-- An element is brought in front of the segment `G` that it follows. -/
theorem swapPtr_front {i j : ℤ} {A G : List Ptr} (hi : i = A.length)
    (hj : j = A.length + G.length) (u : Ptr) (C : List Ptr) :
    ∃ G', G'.Perm G ∧ swapPtr (A ++ (G ++ u :: C)) i j = some (A ++ u :: (G' ++ C)) := by
  cases G with
  | nil =>
    have hsame : j = i := by
      rw [hj, hi]
      simp
    refine ⟨[], List.Perm.refl _, ?_⟩
    rw [hsame]
    exact swapPtr_same hi
  | cons g G =>
    have hj' : j = A.length + 1 + G.length := by
      rw [hj, List.length_cons]
      push_cast
      omega
    refine ⟨G ++ [g], List.perm_append_singleton g G, ?_⟩
    rw [List.cons_append, swapPtr_at hi hj', List.append_assoc, List.singleton_append]

/-- The loop when `L` is not greater than the pivot, `G` is, and `U` is still to be
looked at. -/
def partitionFrom (P L G U T : List Ptr) (pivot : Ptr) : Option (List Ptr × ℤ) :=
  partitionLoop cmp pivot (P.length + L.length + G.length + U.length)
    (P ++ (L ++ (G ++ (U ++ pivot :: T)))) (P.length + L.length - 1)
    (P.length + L.length + G.length)

theorem partitionFrom_nil (P L G T : List Ptr) (pivot : Ptr) :
    partitionFrom cmp P L G [] T pivot =
      some (P ++ (L ++ (G ++ pivot :: T)), (P.length + L.length - 1 : ℤ)) := by
  rw [partitionFrom, partitionLoop, if_neg (by simp)]
  simp

section Next

variable {cmp} {P L G U T : List Ptr} {u pivot : Ptr}

theorem partitionFrom_in_bounds : (P.length : ℤ) + L.length + G.length <
    P.length + L.length + G.length + (u :: U).length := by
  rw [List.length_cons]
  push_cast
  omega

theorem partitionFrom_read : load (P ++ (L ++ (G ++ (u :: U ++ pivot :: T))))
    (P.length + L.length + G.length) = some u := by
  have hcut : P ++ (L ++ (G ++ (u :: U ++ pivot :: T))) =
      (P ++ L ++ G) ++ u :: (U ++ pivot :: T) := by simp
  rw [hcut, load_at (by simp only [List.length_append]; push_cast; rfl)]

/-- An element that is not greater goes to the end of `L`. -/
theorem partitionFrom_below (hle : cmp u pivot ≤ 0) : ∃ G1, G1.Perm G ∧
    partitionFrom cmp P L G (u :: U) T pivot = partitionFrom cmp P (L ++ [u]) G1 U T pivot := by
  have hi : (P.length : ℤ) + L.length - 1 + 1 = (P ++ L).length := by
    rw [List.length_append]
    push_cast
    omega
  have hj : (P.length : ℤ) + L.length + G.length = (P ++ L).length + G.length := by
    rw [List.length_append]
    push_cast
    omega
  obtain ⟨G1, hperm, hswap⟩ := swapPtr_front hi hj u (U ++ pivot :: T)
  refine ⟨G1, hperm, ?_⟩
  have hlen : ((L ++ [u]).length : ℤ) = L.length + 1 := by simp
  have hlen1 : (G1.length : ℤ) = G.length := by rw [hperm.length_eq]
  have harr : P ++ (L ++ (G ++ (u :: U ++ pivot :: T))) =
      P ++ L ++ (G ++ u :: (U ++ pivot :: T)) := by simp
  have harr' : P ++ L ++ u :: (G1 ++ (U ++ pivot :: T)) =
      P ++ (L ++ [u] ++ (G1 ++ (U ++ pivot :: T))) := by simp
  rw [partitionFrom, partitionLoop, if_pos partitionFrom_in_bounds, partitionFrom_read]
  dsimp only
  rw [if_pos hle, harr, hswap]
  dsimp only
  rw [harr', partitionFrom]
  congr 1
  · rw [List.length_cons]
    push_cast
    omega
  · omega
  · omega

/-- A greater one is left at the end of `G`. -/
theorem partitionFrom_above (hgt : ¬ cmp u pivot ≤ 0) :
    partitionFrom cmp P L G (u :: U) T pivot = partitionFrom cmp P L (G ++ [u]) U T pivot := by
  have hlen : ((G ++ [u]).length : ℤ) = G.length + 1 := by simp
  have harr : P ++ (L ++ (G ++ (u :: U ++ pivot :: T))) =
      P ++ (L ++ (G ++ [u] ++ (U ++ pivot :: T))) := by simp
  rw [partitionFrom, partitionLoop, if_pos partitionFrom_in_bounds, partitionFrom_read]
  dsimp only
  rw [if_neg hgt, harr, partitionFrom]
  congr 1
  · rw [List.length_cons]
    push_cast
    omega
  · omega

end Next

theorem partitionFrom_spec (P L G U T : List Ptr) (pivot : Ptr) (hL : ∀ a ∈ L, cmp a pivot ≤ 0)
    (hG : ∀ b ∈ G, 0 < cmp b pivot) :
    ∃ L' G', partitionFrom cmp P L G U T pivot =
        some (P ++ (L' ++ (G' ++ pivot :: T)), (P.length + L'.length - 1 : ℤ)) ∧
      (L' ++ G').Perm (L ++ G ++ U) ∧ (∀ a ∈ L', cmp a pivot ≤ 0) ∧
      ∀ b ∈ G', 0 < cmp b pivot := by
  induction U generalizing L G with
  | nil => exact ⟨L, G, partitionFrom_nil cmp P L G T pivot, by simp, hL, hG⟩
  | cons u U ih =>
    by_cases hle : cmp u pivot ≤ 0
    · obtain ⟨G1, hperm, hnext⟩ := partitionFrom_below (P := P) (L := L) (G := G) (U := U) (T := T)
        hle
      have hL1 : ∀ a ∈ L ++ [u], cmp a pivot ≤ 0 := by
        intro a ha
        cases List.mem_append.mp ha with
        | inl ha => exact hL a ha
        | inr ha => exact List.mem_singleton.mp ha ▸ hle
      have hG1 : ∀ b ∈ G1, 0 < cmp b pivot := fun b hb => hG b (hperm.mem_iff.mp hb)
      obtain ⟨L', G', hrun, hp, hL', hG'⟩ := ih (L ++ [u]) G1 hL1 hG1
      refine ⟨L', G', hnext.trans hrun, hp.trans ?_, hL', hG'⟩
      calc L ++ [u] ++ G1 ++ U
          ~ L ++ [u] ++ G ++ U := (hperm.append_left _).append_right _
        _ ~ L ++ G ++ u :: U := by
            simp only [List.append_assoc, List.singleton_append]
            exact List.perm_middle.symm.append_left L
    · have hG1 : ∀ b ∈ G ++ [u], 0 < cmp b pivot := by
        intro b hb
        cases List.mem_append.mp hb with
        | inl hb => exact hG b hb
        | inr hb => exact List.mem_singleton.mp hb ▸ Int.not_le.mp hle
      obtain ⟨L', G', hrun, hp, hL', hG'⟩ := ih L (G ++ [u]) hL hG1
      exact ⟨L', G', (partitionFrom_above hle).trans hrun, by simpa using hp, hL', hG'⟩

theorem medianOfThree_spec {P M N T : List Ptr} {lo mid hi : ℤ} (hlo : lo = P.length)
    (hmid : mid = P.length + 1 + M.length) (hhi : hi = P.length + 1 + M.length + 1 + N.length)
    (x y z : Ptr) :
    ∃ x' y' z', medianOfThree cmp (P ++ x :: (M ++ y :: (N ++ z :: T))) lo mid hi =
        some (P ++ x' :: (M ++ y' :: (N ++ z' :: T)), mid) ∧
      (P ++ x' :: (M ++ y' :: (N ++ z' :: T))).Perm (P ++ x :: (M ++ y :: (N ++ z :: T))) := by
  have hcut : ∀ a b c : Ptr, P ++ a :: (M ++ b :: (N ++ c :: T)) =
      P ++ a :: (M ++ b :: N ++ c :: T) := by simp
  have hcut' : ∀ a b c : Ptr, P ++ a :: (M ++ b :: (N ++ c :: T)) =
      P ++ a :: M ++ b :: (N ++ c :: T) := by simp
  have hhi1 : ∀ b, hi = (P.length : ℤ) + 1 + (M ++ b :: N).length := by
    intro b
    rw [List.length_append, List.length_cons]
    push_cast
    omega
  have hmid1 : ∀ a, mid = ((P ++ a :: M).length : ℤ) := by
    intro a
    rw [List.length_append, List.length_cons]
    push_cast
    omega
  have hhi2 : ∀ a, hi = ((P ++ a :: M).length : ℤ) + 1 + N.length := by
    intro a
    have h := hmid1 a
    omega
  obtain ⟨x1, y1, h1, p1⟩ := swapIfAbove_at cmp (C := N ++ z :: T) (x := x) (y := y) hlo hmid
  obtain ⟨x2, z2, h2, p2⟩ := swapIfAbove_at cmp (C := T) (x := x1) (y := z) hlo (hhi1 y1)
  obtain ⟨y3, z3, h3, p3⟩ := swapIfAbove_at cmp (C := T) (x := y1) (y := z2) (hmid1 x2) (hhi2 x2)
  rw [← hcut, ← hcut] at h2 p2
  rw [← hcut', ← hcut'] at h3 p3
  refine ⟨x2, y3, z3, ?_, p3.trans (p2.trans p1)⟩
  simp only [medianOfThree, h1, h2, h3, Option.bind_eq_bind, Option.bind_some, Option.pure_def]

theorem split_three {α : Type*} {S : List α} {m : ℕ} (h0 : 0 < m) (h : m + 1 < S.length) :
    ∃ x M y N z, S = x :: (M ++ y :: (N ++ [z])) ∧ M.length + 1 = m := by
  have hm : m < S.length := by omega
  obtain ⟨x, M, hfront⟩ := List.exists_cons_of_length_pos (l := S.take m) (by
    rw [List.length_take]
    omega)
  have hback : S.drop (m + 1) ≠ [] := by
    rw [← List.length_pos_iff, List.length_drop]
    omega
  have hlen := congrArg List.length hfront
  rw [List.length_take, List.length_cons] at hlen
  refine ⟨x, M, S[m], (S.drop (m + 1)).dropLast, (S.drop (m + 1)).getLast hback, ?_, by omega⟩
  rw [List.dropLast_append_getLast, ← List.cons_append, ← hfront, List.getElem_cons_drop,
    List.take_append_drop]

/-- The median goes to the end as the pivot. -/
theorem choosePivot_spec (P S T : List Ptr) (hlong : 12 < S.length) {mid hi : ℤ}
    (hmid : mid = P.length + (hi - P.length) / 2) (hhi : hi = P.length + S.length - 1) :
    ∃ arr U pivot, medianOfThree cmp (P ++ (S ++ T)) P.length mid hi = some (arr, mid) ∧
      swapPtr arr mid hi = some (P ++ (U ++ pivot :: T)) ∧ (U ++ [pivot]).Perm S := by
  obtain ⟨x, M, y, N, z, rfl, hM⟩ := split_three (S := S) (m := (S.length - 1) / 2) (by omega)
    (by omega)
  have hlen : (x :: (M ++ y :: (N ++ [z]))).length = M.length + N.length + 3 := by
    simp only [List.length_cons, List.length_append, List.length_nil]
    omega
  rw [hlen] at hM hhi
  push_cast at hhi
  have hmid' : mid = P.length + 1 + M.length := by omega
  have hhi' : hi = P.length + 1 + M.length + 1 + N.length := by omega
  have harr : P ++ (x :: (M ++ y :: (N ++ [z])) ++ T) = P ++ x :: (M ++ y :: (N ++ z :: T)) := by
    simp
  obtain ⟨x', y', z', hmedian, hperm⟩ := medianOfThree_spec cmp (P := P) (M := M) (N := N) (T := T)
    rfl hmid' hhi' x y z
  refine ⟨_, x' :: (M ++ z' :: N), y', harr ▸ hmedian, ?_, ?_⟩
  · have hA : mid = ((P ++ x' :: M).length : ℤ) := by
      rw [List.length_append, List.length_cons]
      push_cast
      omega
    have hcut : P ++ x' :: (M ++ y' :: (N ++ z' :: T)) = P ++ x' :: M ++ y' :: (N ++ z' :: T) := by
      simp
    rw [hcut, swapPtr_at hA (by rw [hhi', ← hA, hmid'])]
    simp
  · have hmoved : (x' :: (M ++ z' :: N) ++ [y']).Perm (x' :: (M ++ y' :: (N ++ [z']))) := by
      calc x' :: (M ++ z' :: N) ++ [y']
          ~ y' :: (x' :: M ++ z' :: N) := List.perm_append_singleton _ _
        _ ~ x' :: M ++ y' :: (z' :: N) := List.perm_middle.symm
        _ ~ x' :: (M ++ y' :: (N ++ [z'])) :=
            ((List.perm_append_singleton z' N).symm.cons y').append_left (x' :: M)
    have hwhole : P ++ x' :: (M ++ y' :: (N ++ z' :: T)) =
        P ++ (x' :: (M ++ y' :: (N ++ [z'])) ++ T) := by simp
    rw [hwhole, ← harr] at hperm
    exact hmoved.trans ((List.perm_append_right_iff T).mp ((List.perm_append_left_iff P).mp hperm))

/-- The loop, and the swap that brings the pivot between the two parts. -/
theorem placePivot_spec (P U T : List Ptr) (pivot : Ptr) {hi : ℤ} (hhi : hi = P.length + U.length) :
    ∃ arr i L G, partitionLoop cmp pivot hi (P ++ (U ++ pivot :: T)) (P.length - 1) P.length =
        some (arr, i) ∧
      swapPtr arr (i + 1) hi = some (P ++ (L ++ pivot :: G ++ T)) ∧ i + 1 = P.length + L.length ∧
      (L ++ pivot :: G).Perm (U ++ [pivot]) ∧ (∀ a ∈ L, cmp a pivot ≤ 0) ∧
      ∀ b ∈ G, 0 < cmp b pivot := by
  obtain ⟨L, G, hloop, hp, hL, hG⟩ := partitionFrom_spec cmp P [] [] U T pivot (by simp) (by simp)
  rw [List.nil_append, List.nil_append] at hp
  have hfrom : partitionFrom cmp P [] [] U T pivot =
      partitionLoop cmp pivot hi (P ++ (U ++ pivot :: T)) (P.length - 1) P.length := by
    simp [partitionFrom, hhi]
  rw [hfrom] at hloop
  have hsize := hp.length_eq
  rw [List.length_append] at hsize
  have hi1 : (P.length : ℤ) + L.length - 1 + 1 = ((P ++ L).length : ℤ) := by
    rw [List.length_append]
    push_cast
    omega
  have hj : hi = ((P ++ L).length : ℤ) + G.length := by
    rw [List.length_append]
    push_cast
    omega
  obtain ⟨G', hG', hlast⟩ := swapPtr_front hi1 hj pivot T
  refine ⟨_, _, L, G', hloop, ?_, by omega, ?_, hL, fun b hb => hG b (hG'.mem_iff.mp hb)⟩
  · have hcut : P ++ (L ++ (G ++ pivot :: T)) = P ++ L ++ (G ++ pivot :: T) := by simp
    rw [hcut, hlast]
    simp
  · calc L ++ pivot :: G'
        ~ pivot :: (L ++ G) := List.perm_middle.trans ((hG'.append_left L).cons pivot)
      _ ~ pivot :: U := hp.cons pivot
      _ ~ U ++ [pivot] := (List.perm_append_singleton pivot U).symm

theorem partition_spec (P S T : List Ptr) (hlong : 12 < S.length) :
    ∃ L p G, partition cmp (P ++ (S ++ T)) P.length (P.length + S.length - 1) =
        some (P ++ (L ++ p :: G ++ T), (P.length + L.length : ℤ)) ∧
      (L ++ p :: G).Perm S ∧ (∀ a ∈ L, cmp a p ≤ 0) ∧ ∀ b ∈ G, 0 < cmp b p := by
  obtain ⟨arr, U, p, hmedian, hswap, hperm⟩ := choosePivot_spec cmp P S T hlong rfl rfl
  have hsize := hperm.length_eq
  rw [List.length_append, List.length_singleton] at hsize
  have hhi : (P.length : ℤ) + S.length - 1 = P.length + U.length := by omega
  have hread : load (P ++ (U ++ p :: T)) (P.length + S.length - 1) = some p := by
    rw [hhi, ← List.append_assoc, load_at]
    rw [List.length_append]
    push_cast
    rfl
  obtain ⟨arr', i, L, G, hloop, hlast, hi, hp, hL, hG⟩ := placePivot_spec cmp P U T p hhi
  refine ⟨L, p, G, ?_, hp.trans hperm, hL, hG⟩
  rw [hi] at hlast
  simp only [partition, hmedian, hswap, hread, hloop, hlast, hi, Option.bind_eq_bind,
    Option.bind_some, Option.pure_def]

theorem quickSortRec_large {arr arr' : List Ptr} {lo hi p : ℤ} (hlong : 12 ≤ hi - lo)
    (h : partition cmp arr lo hi = some (arr', p)) :
    quickSortRec cmp arr lo hi =
      if p - lo < hi - p then
        (quickSortRec cmp arr' lo (p - 1)).bind fun arr => quickSortRec cmp arr (p + 1) hi
      else (quickSortRec cmp arr' (p + 1) hi).bind fun arr => quickSortRec cmp arr lo (p - 1) := by
  rw [quickSortRec, dif_pos (by omega), if_neg (by omega)]
  split
  case h_1 hnone =>
    rw [h] at hnone
    cases hnone
  case h_2 hsome =>
    rw [h] at hsome
    cases hsome
    rfl

theorem quickSortRec_outside {arr : List Ptr} {lo hi : ℤ} (hlong : 12 ≤ hi - lo)
    (h : partition cmp arr lo hi = none) : quickSortRec cmp arr lo hi = none := by
  rw [quickSortRec, dif_pos (by omega), if_neg (by omega)]
  split
  case h_1 => rfl
  case h_2 hsome =>
    rw [h] at hsome
    cases hsome

/-! ### Insertion sort -/

/-- Every element that is greater moves up by one place; where the last one was is
free for `keyVal`. -/
theorem slideUp_spec (P S T : List Ptr) (keyVal x : Ptr) :
    ∃ A B y, S = A ++ B ∧ (∀ b ∈ B, 0 < cmp b keyVal) ∧ (∀ a ∈ A.getLast?, cmp a keyVal ≤ 0) ∧
      slideUp cmp P.length keyVal (P ++ (S ++ x :: T)) (P.length + S.length - 1) =
        some (P ++ (A ++ y :: (B ++ T)), (P.length + A.length - 1 : ℤ)) := by
  induction S using List.reverseRecOn generalizing x T with
  | nil =>
    refine ⟨[], [], x, rfl, by simp, by simp, ?_⟩
    rw [slideUp, if_neg (by simp)]
    rfl
  | append_singleton S a ih =>
    have hlen : ((S ++ [a]).length : ℤ) = S.length + 1 := by simp
    have hidx : (P.length : ℤ) + (S ++ [a]).length - 1 = (P ++ S).length := by
      rw [hlen, List.length_append]
      push_cast
      omega
    have harr : P ++ (S ++ [a] ++ x :: T) = (P ++ S) ++ a :: (x :: T) := by simp
    have hin : (P.length : ℤ) + (S ++ [a]).length - 1 ≥ P.length := by omega
    rw [slideUp, if_pos hin, harr, load_at hidx]
    dsimp only
    by_cases hgt : cmp a keyVal > 0
    · obtain ⟨A, B, y, rfl, hB, hA, hrun⟩ := ih (a :: T) a
      have hnext : (P.length : ℤ) + (A ++ B ++ [a]).length - 1 + 1 =
          (P ++ (A ++ B) ++ [a]).length := by
        simp only [List.length_append, List.length_singleton]
        push_cast
        omega
      have hshift : P ++ (A ++ B) ++ a :: (x :: T) = (P ++ (A ++ B) ++ [a]) ++ x :: T := by simp
      have hback : (P.length : ℤ) + (A ++ B ++ [a]).length - 1 - 1 =
          P.length + (A ++ B).length - 1 := by
        rw [hlen]
        omega
      refine ⟨A, B ++ [a], y, by simp, ?_, hA, ?_⟩
      · intro b hb
        cases List.mem_append.mp hb with
        | inl hb => exact hB b hb
        | inr hb => exact List.mem_singleton.mp hb ▸ hgt
      · rw [if_pos hgt, hshift, storeAt_at hnext, hback]
        have hold : P ++ (A ++ B) ++ [a] ++ a :: T = P ++ (A ++ B ++ a :: (a :: T)) := by simp
        rw [hold]
        dsimp only
        rw [hrun]
        simp
    · refine ⟨S ++ [a], [], x, by simp, by simp, ?_, ?_⟩
      · intro b hb
        rw [List.getLast?_concat, Option.mem_some_iff] at hb
        rw [← hb]
        omega
      · rw [if_neg hgt]
        simp

variable (trans : ∀ a b c, cmp a b ≤ 0 → cmp b c ≤ 0 → cmp a c ≤ 0)
include trans

/-- The last element that is not greater bounds all of a sorted list. -/
theorem getLast_bounds {A : List Ptr} {v : Ptr} (hs : A.Pairwise fun a b => cmp a b ≤ 0)
    (hlast : ∀ a ∈ A.getLast?, cmp a v ≤ 0) : ∀ a ∈ A, cmp a v ≤ 0 := by
  induction A using List.reverseRecOn with
  | nil => simp
  | append_singleton A z _ =>
    have hz : cmp z v ≤ 0 := hlast z (by simp)
    intro a ha
    cases List.mem_append.mp ha with
    | inl ha =>
      have haz := (List.pairwise_append.mp hs).2.2 a ha z (List.mem_singleton_self z)
      exact trans a z v haz hz
    | inr ha => exact List.mem_singleton.mp ha ▸ hz

variable (total : ∀ a b, cmp a b ≤ 0 ∨ cmp b a ≤ 0)
include total

theorem insertionSort_spec (P S R T : List Ptr) (hs : S.Pairwise fun a b => cmp a b ≤ 0) :
    ∃ out, insertionSort cmp P.length (P.length + S.length + R.length - 1) (P ++ (S ++ (R ++ T)))
        (P.length + S.length) = some (P ++ (out ++ T)) ∧
      out.Perm (S ++ R) ∧ out.Pairwise fun a b => cmp a b ≤ 0 := by
  induction R generalizing S with
  | nil =>
    refine ⟨S, ?_, by simp, hs⟩
    rw [insertionSort, if_neg (by simp)]
    simp
  | cons v R ih =>
    have hin : (P.length : ℤ) + S.length ≤ P.length + S.length + (v :: R).length - 1 := by
      rw [List.length_cons]
      push_cast
      omega
    have hread : load (P ++ (S ++ (v :: R ++ T))) (P.length + S.length) = some v := by
      have hcut : P ++ (S ++ (v :: R ++ T)) = (P ++ S) ++ v :: (R ++ T) := by simp
      rw [hcut, load_at (by rw [List.length_append]; push_cast; rfl)]
    obtain ⟨A, B, y, rfl, hB, hA, hslide⟩ := slideUp_spec cmp P S (R ++ T) v v
    have hwrite : storeAt (P ++ (A ++ y :: (B ++ (R ++ T)))) (P.length + A.length - 1 + 1) v =
        some (P ++ (A ++ v :: B ++ (R ++ T))) := by
      rw [← List.append_assoc, storeAt_at (by rw [List.length_append]; push_cast; omega)]
      simp
    have hperm : (A ++ v :: B ++ R).Perm (A ++ B ++ v :: R) := by
      rw [List.append_assoc, List.append_assoc, List.cons_append]
      exact List.perm_middle.symm.append_left A
    have hsorted : (A ++ v :: B).Pairwise fun a b => cmp a b ≤ 0 := by
      obtain ⟨hsA, hsB, -⟩ := List.pairwise_append.mp hs
      refine sorted_around trans hsA hsB (getLast_bounds cmp trans hsA hA) fun b hb => ?_
      have hgt := hB b hb
      exact (total v b).resolve_right (by omega)
    obtain ⟨out, hrun, hp, hout⟩ := ih (A ++ v :: B) hsorted
    refine ⟨out, ?_, hp.trans hperm, hout⟩
    have hlen : ((A ++ v :: B).length : ℤ) = (A ++ B).length + 1 := by
      simp only [List.length_append, List.length_cons]
      push_cast
      omega
    have hnext : (P.length : ℤ) + (A ++ B).length + 1 = P.length + (A ++ v :: B).length := by
      omega
    have hend : (P.length : ℤ) + (A ++ B).length + (v :: R).length - 1 =
        P.length + (A ++ v :: B).length + R.length - 1 := by
      rw [List.length_cons]
      push_cast
      omega
    rw [insertionSort, if_pos hin, hread]
    simp only [Option.bind_eq_bind, Option.bind_some]
    rw [List.cons_append, hslide]
    simp only [Option.bind_some]
    rw [hwrite, Option.bind_some, hend, hnext, hrun]

/-! ### The recursion -/

theorem quickSortRec_small (P S T : List Ptr) (hsmall : S.length ≤ 12) :
    ∃ out, quickSortRec cmp (P ++ (S ++ T)) P.length (P.length + S.length - 1) =
        some (P ++ (out ++ T)) ∧
      out.Perm S ∧ out.Pairwise fun a b => cmp a b ≤ 0 := by
  by_cases hshort : S.length ≤ 1
  · refine ⟨S, ?_, List.Perm.refl S, ?_⟩
    · rw [quickSortRec, dif_neg (by omega)]
    · match S, hshort with
      | [], _ => exact List.Pairwise.nil
      | [a], _ => exact List.pairwise_singleton _ a
  · obtain ⟨a, R, rfl⟩ := List.exists_cons_of_length_pos (l := S) (by omega)
    rw [List.length_cons] at hshort hsmall ⊢
    obtain ⟨out, hrun, hperm, hsorted⟩ := insertionSort_spec cmp trans total P [a] R T
      (List.pairwise_singleton _ a)
    have hhi : (P.length : ℤ) + [a].length + R.length - 1 =
        P.length + ((R.length + 1 : ℕ) : ℤ) - 1 := by
      rw [List.length_singleton]
      push_cast
      omega
    rw [hhi] at hrun
    refine ⟨out, ?_, hperm, hsorted⟩
    rw [quickSortRec, dif_pos (by push_cast; omega), if_pos (by push_cast; omega)]
    exact hrun

/-- Both parts sorted, the whole is. -/
theorem sorted_parts {S L L' G G' : List Ptr} {p : Ptr} (hperm : (L ++ p :: G).Perm S)
    (hL : ∀ a ∈ L, cmp a p ≤ 0) (hG : ∀ b ∈ G, 0 < cmp b p) (hpL : L'.Perm L)
    (hsL : L'.Pairwise fun a b => cmp a b ≤ 0) (hpG : G'.Perm G)
    (hsG : G'.Pairwise fun a b => cmp a b ≤ 0) :
    (L' ++ p :: G').Perm S ∧ (L' ++ p :: G').Pairwise fun a b => cmp a b ≤ 0 := by
  refine ⟨(hpL.append (hpG.cons p)).trans hperm, sorted_around trans hsL hsG ?_ ?_⟩
  · exact fun a ha => hL a (hpL.mem_iff.mp ha)
  · intro b hb
    have hgt := hG b (hpG.mem_iff.mp hb)
    exact (total p b).resolve_right (by omega)

/-- Only the segment changes, and it is sorted. -/
theorem quickSortRec_spec (P S T : List Ptr) :
    ∃ out, quickSortRec cmp (P ++ (S ++ T)) P.length (P.length + S.length - 1) =
        some (P ++ (out ++ T)) ∧
      out.Perm S ∧ out.Pairwise fun a b => cmp a b ≤ 0 := by
  induction hn : S.length using Nat.strongRecOn generalizing P S T with
  | _ n ih =>
    subst hn
    by_cases hsmall : S.length ≤ 12
    · exact quickSortRec_small cmp trans total P S T hsmall
    · obtain ⟨L, p, G, hpart, hperm, hL, hG⟩ := partition_spec cmp P S T (by omega)
      have hlen := hperm.length_eq
      rw [List.length_append, List.length_cons] at hlen
      have hcut : P ++ (L ++ p :: G ++ T) = P ++ (L ++ (p :: G ++ T)) := by simp
      -- the part before the pivot, whatever stands behind it
      have hleft : ∀ G', ∃ L', quickSortRec cmp (P ++ (L ++ (p :: G' ++ T))) P.length
          (P.length + L.length - 1) = some (P ++ (L' ++ (p :: G' ++ T))) ∧ L'.Perm L ∧
            L'.Pairwise fun a b => cmp a b ≤ 0 := fun G' =>
        ih L.length (by omega) P L (p :: G' ++ T) rfl
      -- the part behind the pivot, whatever stands before it
      have hright : ∀ L' : List Ptr, L'.length = L.length → ∃ G', quickSortRec cmp
          (P ++ (L' ++ (p :: G ++ T))) (P.length + L.length + 1) (P.length + S.length - 1) =
            some (P ++ (L' ++ (p :: G' ++ T))) ∧ G'.Perm G ∧
              G'.Pairwise fun a b => cmp a b ≤ 0 := by
        intro L' hL'
        obtain ⟨G', hrun, hp, hs⟩ := ih G.length (by omega) (P ++ L' ++ [p]) G T rfl
        have hlo : ((P ++ L' ++ [p]).length : ℤ) = P.length + L.length + 1 := by
          simp only [List.length_append, List.length_singleton, hL']
          push_cast
          rfl
        have hhi : (P.length : ℤ) + L.length + 1 + G.length - 1 = P.length + S.length - 1 := by
          omega
        have harr : ∀ X : List Ptr, P ++ L' ++ [p] ++ (X ++ T) = P ++ (L' ++ (p :: X ++ T)) := by
          simp
        rw [hlo, hhi, harr, harr] at hrun
        exact ⟨G', hrun, hp, hs⟩
      rw [quickSortRec_large cmp (by omega) hpart, hcut]
      split
      case isTrue =>
        obtain ⟨L', hrunL, hpL, hsL⟩ := hleft G
        obtain ⟨G', hrunG, hpG, hsG⟩ := hright L' hpL.length_eq
        obtain ⟨hp, hs⟩ := sorted_parts cmp trans total hperm hL hG hpL hsL hpG hsG
        refine ⟨L' ++ p :: G', ?_, hp, hs⟩
        rw [hrunL, Option.bind_some, hrunG]
        simp
      case isFalse =>
        obtain ⟨G', hrunG, hpG, hsG⟩ := hright L rfl
        obtain ⟨L', hrunL, hpL, hsL⟩ := hleft G'
        obtain ⟨hp, hs⟩ := sorted_parts cmp trans total hperm hL hG hpL hsL hpG hsG
        refine ⟨L' ++ p :: G', ?_, hp, hs⟩
        rw [hrunG, Option.bind_some, hrunL]
        simp

end

/-- `sub_sort_quick` -/
def subSortQuick {Ptr : Type*} (p : SStrPool) (mem : Ptr → Subscriber)
    (array : Option (List Ptr)) (key : SmSortKey) : Option (Option (List Ptr)) :=
  match array with
  | none => some none
  | some array =>
    if array.length < 2 then some (some array)
    else do
      let array ← quickSortRec (fun a b => compareSubs p (mem a) (mem b) key) array 0
        (array.length - 1)
      return some array

/-- Every run comes to an end, in bounds, with the array sorted. -/
theorem subSortQuick_correct {Ptr : Type*} (p : SStrPool) (mem : Ptr → Subscriber)
    (array : List Ptr) (key : SmSortKey) :
    ∃ out, subSortQuick p mem (some array) key = some (some out) ∧ out.Perm array ∧
      out.Pairwise fun a b => compareSubs p (mem a) (mem b) key ≤ 0 := by
  by_cases hshort : array.length < 2
  · refine ⟨array, ?_, List.Perm.refl array, ?_⟩
    · rw [subSortQuick, if_pos hshort]
    · have hs : Sorts (atMost fun a b => compareSubs p (mem a) (mem b) key) array array :=
        Sorts.of_short (by omega)
      exact hs.sorted.imp fun h => of_decide_eq_true h
  · have htotal : ∀ a b, compareSubs p (mem a) (mem b) key ≤ 0 ∨
        compareSubs p (mem b) (mem a) key ≤ 0 := by
      intro a b
      have hswap := compareSubs_swap p (mem a) (mem b) key
      omega
    obtain ⟨out, hrun, hperm, hsorted⟩ := quickSortRec_spec
      (fun a b => compareSubs p (mem a) (mem b) key)
      (fun a b c => compareSubs_trans p (mem a) (mem b) (mem c) key) htotal [] array []
    have hstart : ((([] : List Ptr).length : ℕ) : ℤ) = 0 := rfl
    simp only [List.nil_append, List.append_nil, hstart, zero_add] at hrun
    refine ⟨out, ?_, hperm, hsorted⟩
    simp only [subSortQuick, if_neg hshort, hrun]
    rfl

end SubscriberMgmt
