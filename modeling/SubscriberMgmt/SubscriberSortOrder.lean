import SubscriberMgmt.SubscriberQuickSort

/-!
# Sorting twice (`subscriber.c:700-821`)

Ids differ, so there is one order by id and both sorts find it. A merge sort by
another key keeps it among equal keys.
-/

namespace SubscriberMgmt
open StableSort

section Order

variable {Ptr : Type*} (p : SStrPool) (mem : Ptr → Subscriber)

theorem subSortQuick_sorts (key : SmSortKey) (array : List Ptr) :
    ∃ out, subSortQuick p mem (some array) key = some (some out) ∧ out.Perm array ∧
      out.Pairwise fun a b => compareSubs p (mem a) (mem b) key ≤ 0 := by
  by_cases hshort : array.length < 2
  · have hs : Sorts (atMost fun a b => compareSubs p (mem a) (mem b) key) array array :=
      Sorts.of_short (by omega)
    exact ⟨array, if_pos hshort, hs.perm, hs.sorted.imp fun h => of_decide_eq_true h⟩
  · have htotal : ∀ a b, compareSubs p (mem a) (mem b) key ≤ 0 ∨
        compareSubs p (mem b) (mem a) key ≤ 0 := by
      intro a b
      have hswap := compareSubs_swap p (mem a) (mem b) key
      omega
    obtain ⟨out, hrun, hperm, hsorted⟩ := quickSortRec_spec
      (fun a b => compareSubs p (mem a) (mem b) key)
      (fun a b c => compareSubs_trans p (mem a) (mem b) (mem c) key) htotal [] array []
    have hbounds : quickSortRec (fun a b => compareSubs p (mem a) (mem b) key) array 0
        (array.length - 1) = some out := by
      simpa using hrun
    refine ⟨out, ?_, hperm, hsorted⟩
    simp only [subSortQuick, if_neg hshort, hbounds]
    rfl

/-- The order by id, strictly. -/
def IdsUp (a b : Ptr) : Prop := (mem a).subscriberId < (mem b).subscriberId

/-- The order by a key and by the id where the key is the same. -/
def KeyThenId (key : SmSortKey) (a b : Ptr) : Prop :=
  compareSubs p (mem a) (mem b) key < 0 ∨
    compareSubs p (mem a) (mem b) key = 0 ∧ IdsUp mem a b

def IdsDiffer (array : List Ptr) : Prop :=
  array.Pairwise fun a b => (mem a).subscriberId ≠ (mem b).subscriberId

variable {mem} {array array' out : List Ptr}

theorem IdsDiffer.perm (h : IdsDiffer mem array) (hperm : array.Perm out) : IdsDiffer mem out :=
  hperm.pairwise h Ne.symm

theorem IdsDiffer.idsUp (h : IdsDiffer mem out)
    (hsorted : out.Pairwise fun a b => compareSubs p (mem a) (mem b) .sortById ≤ 0) :
    out.Pairwise (IdsUp mem) := by
  refine (h.and hsorted).imp fun hab => ?_
  obtain ⟨hne, hle⟩ := hab
  simp only [compareSubs, gt_iff_lt] at hle
  split at hle
  next hlt => exact hlt
  next hnot =>
    split at hle
    next => cases hle
    next hnot' =>
      exact absurd (UInt64.le_antisymm (UInt64.not_lt.mp hnot') (UInt64.not_lt.mp hnot)) hne

theorem idsUp_unique (hperm : array.Perm array') (h : array.Pairwise (IdsUp mem))
    (h' : array'.Pairwise (IdsUp mem)) : array = array' := by
  apply List.Perm.eq_of_pairwise _ h h' hperm
  intro a b _ _ hab hba
  exact absurd hba (UInt64.lt_asymm hab)

theorem KeyThenId.asymm {key : SmSortKey} {a b : Ptr} (h : KeyThenId p mem key a b) :
    ¬ KeyThenId p mem key b a := by
  have hswap := compareSubs_swap p (mem a) (mem b) key
  rintro (hlt | ⟨heq, hup⟩)
  · rcases h with h | h <;> omega
  · rcases h with h | ⟨-, h⟩
    · omega
    · exact UInt64.lt_asymm h hup

/-- Two listings of the same subscribers, whatever their order and sort, have one order by id, and
a merge sort by another key turns it into the order by this key and the id. -/
theorem sorts_compose (hsame : array.Perm array') (hids : IdsDiffer mem array) (key : SmSortKey) :
    ∃ byId out, subSortMerge p mem true (some array) .sortById = some (some byId) ∧
      subSortQuick p mem (some array') .sortById = some (some byId) ∧
      subSortMerge p mem true (some byId) key = some (some out) ∧ out.Perm array ∧
      out.Pairwise (KeyThenId p mem key) := by
  obtain ⟨byId, hmerge, hs⟩ := subSortMerge_sorts p mem .sortById array
  obtain ⟨byId', hquick, hperm', hsorted'⟩ := subSortQuick_sorts p mem .sortById array'
  obtain ⟨out, hagain, hs'⟩ := subSortMerge_sorts p mem key byId
  have hup : byId.Pairwise (IdsUp mem) := by
    apply (hids.perm hs.perm.symm).idsUp p
    exact hs.sorted.imp fun h => of_decide_eq_true h
  have hup' : byId'.Pairwise (IdsUp mem) :=
    (hids.perm (hsame.trans hperm'.symm)).idsUp p hsorted'
  have hone : byId' = byId := idsUp_unique (hperm'.trans (hsame.symm.trans hs.perm.symm)) hup' hup
  refine ⟨byId, out, hmerge, hone ▸ hquick, hagain, hs'.perm.trans hs.perm, ?_⟩
  refine (hs'.lexicographic (atMost_total p mem key) hup).imp fun hab => ?_
  obtain ⟨hle, hties⟩ := hab
  have hcmp := of_decide_eq_true hle
  rw [tied_eq, decide_eq_true_eq] at hties
  rcases lt_or_eq_of_le hcmp with hlt | heq
  · exact Or.inl hlt
  · exact Or.inr ⟨heq, hties heq⟩

end Order

/-- A pool in which two regions have been interned. -/
def twoRegions : SStrPool := (SStrPool.start.mallocString (lit "West")).mallocString (lit "East")

/-- The subscriber of id 2 is in the second region, all others are in the first. -/
def regionSubs (id : UInt64) : Subscriber :=
  newRecord id [] [] none (some (if id = 2 then 1 else 0)) none .active 0

theorem sorts_compose_two : ∃ byId out,
    subSortMerge twoRegions regionSubs true (some [3, 2, 1]) .sortById = some (some byId) ∧
      subSortQuick twoRegions regionSubs (some [2, 1, 3]) .sortById = some (some byId) ∧
      subSortMerge twoRegions regionSubs true (some byId) .sortByRegion = some (some out) ∧
      out = [2, 1, 3] := by
  have hsame : [3, 2, 1].Perm [2, 1, (3 : UInt64)] := by decide
  have hids : IdsDiffer regionSubs [3, 2, 1] := by simp [IdsDiffer, regionSubs, newRecord]
  obtain ⟨byId, out, hmerge, hquick, hagain, hperm, hsorted⟩ :=
    sorts_compose twoRegions hsame hids .sortByRegion
  refine ⟨byId, out, hmerge, hquick, hagain, ?_⟩
  have hfirst : ∀ a ∈ [1, 3], KeyThenId twoRegions regionSubs .sortByRegion 2 a := by
    simp only [List.forall_mem_cons]
    exact ⟨Or.inl (by decide), Or.inl (by decide), List.forall_mem_nil _⟩
  have hsecond : KeyThenId twoRegions regionSubs .sortByRegion 1 3 :=
    Or.inr ⟨by decide, by simp [IdsUp, regionSubs, newRecord]⟩
  have hregions : [2, 1, (3 : UInt64)].Pairwise (KeyThenId twoRegions regionSubs .sortByRegion) :=
    .cons hfirst (List.pairwise_pair.mpr hsecond)
  refine List.Perm.eq_of_pairwise (fun a b _ _ hab hba => ?_) hsorted hregions (hperm.trans hsame)
  exact absurd hba hab.asymm

end SubscriberMgmt
