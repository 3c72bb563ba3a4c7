import Mathlib.Data.List.Nodup
import Mathlib.Data.List.Perm.Basic
import Mathlib.Logic.Function.Basic
import Mathlib.Tactic.Common

/-!
# Partial maps with unique keys

Entries under ids. Each entry has some keys, and no two entries share the value
of one of them. A listing of such a map has every entry once, in any order.
-/

structure UniqueMap (I R : Type*) {K A : Type*} (key : K → R → A) where
  get : I → Option R
  unique : ∀ k i j r q, get i = some r → get j = some q → key k r = key k q → i = j

namespace UniqueMap

variable {I R K A : Type*} {key : K → R → A}

def empty : UniqueMap I R key := ⟨fun _ => none, fun _ _ _ _ _ h => by cases h⟩

/-- No entry has a key of `r`. -/
def Free (m : UniqueMap I R key) (r : R) : Prop := ∀ k i q, m.get i = some q → key k q ≠ key k r

section Operations

variable [DecidableEq I]

theorem get_of_updated {g : I → Option R} {i j : I} {r q : R}
    (h : Function.update g i (some r) j = some q) : (j = i ∧ q = r) ∨ (j ≠ i ∧ g j = some q) := by
  by_cases hji : j = i
  · rw [hji, Function.update_self] at h
    exact Or.inl ⟨hji, (Option.some.inj h).symm⟩
  · rw [Function.update_of_ne hji] at h
    exact Or.inr ⟨hji, h⟩

theorem get_of_erased {g : I → Option R} {i j : I} {r : R}
    (h : Function.update g i none j = some r) : j ≠ i ∧ g j = some r := by
  by_cases hji : j = i
  · rw [hji, Function.update_self] at h
    cases h
  · rw [Function.update_of_ne hji] at h
    exact ⟨hji, h⟩

def insert (m : UniqueMap I R key) (i : I) (r : R) (hfree : m.Free r) : UniqueMap I R key where
  get := Function.update m.get i (some r)
  unique := by
    intro k a b x y ha hb hk
    rcases get_of_updated ha with ⟨rfl, rfl⟩ | ⟨-, ha'⟩ <;>
      rcases get_of_updated hb with ⟨rfl, rfl⟩ | ⟨-, hb'⟩
    · rfl
    · exact absurd hk.symm (hfree k b y hb')
    · exact absurd hk (hfree k a x ha')
    · exact m.unique k a b x y ha' hb' hk

def erase (m : UniqueMap I R key) (i : I) : UniqueMap I R key where
  get := Function.update m.get i none
  unique := fun k a b x y ha hb hk =>
    m.unique k a b x y (get_of_erased ha).2 (get_of_erased hb).2 hk

/-- The entry `q` of `i` becomes `r`, which has the same keys. -/
def replace (m : UniqueMap I R key) (i : I) {q : R} (r : R) (hi : m.get i = some q)
    (hkey : ∀ k, key k r = key k q) : UniqueMap I R key where
  get := Function.update m.get i (some r)
  unique := by
    have hsame : ∀ {a x}, Function.update m.get i (some r) a = some x →
        ∃ x', m.get a = some x' ∧ ∀ k, key k x = key k x' := by
      intro a x ha
      rcases get_of_updated ha with ⟨rfl, rfl⟩ | ⟨-, ha⟩
      · exact ⟨q, hi, hkey⟩
      · exact ⟨x, ha, fun _ => rfl⟩
    intro k a b x y ha hb hk
    obtain ⟨x', ha', hx⟩ := hsame ha
    obtain ⟨y', hb', hy⟩ := hsame hb
    exact m.unique k a b x' y' ha' hb' ((hx k).symm.trans (hk.trans (hy k)))

end Operations

/-- Each entry with its id, once. -/
structure Lists (m : UniqueMap I R key) (rows : List (I × R)) : Prop where
  nodup : (rows.map Prod.fst).Nodup
  mem : ∀ i r, (i, r) ∈ rows ↔ m.get i = some r

namespace Lists

variable {m : UniqueMap I R key} {rows rows' : List (I × R)} {i : I} {r : R}

theorem nil : (empty : UniqueMap I R key).Lists [] :=
  ⟨List.nodup_nil, fun _ _ => ⟨fun h => (by cases h), fun h => (by cases h)⟩⟩

theorem perm (h : m.Lists rows) (hp : rows.Perm rows') : m.Lists rows' :=
  ⟨(hp.map _).nodup_iff.mp h.nodup, fun i r => hp.mem_iff.symm.trans (h.mem i r)⟩

theorem nodup_rows (h : m.Lists rows) : rows.Nodup := List.Nodup.of_map _ h.nodup

theorem get_none (h : m.Lists rows) (habs : ∀ e ∈ rows, e.1 ≠ i) : m.get i = none := by
  cases hg : m.get i with
  | none => rfl
  | some r => exact absurd rfl (habs _ ((h.mem i r).mpr hg))

section Changed

variable [DecidableEq I]

theorem insert (h : m.Lists rows) (hnew : m.get i = none) (hfree : m.Free r) :
    (m.insert i r hfree).Lists ((i, r) :: rows) := by
  have habs : ∀ q, (i, q) ∉ rows := fun q hq => by
    rw [(h.mem i q).mp hq] at hnew
    cases hnew
  refine ⟨List.nodup_cons.mpr ⟨fun hm => ?_, h.nodup⟩, fun j q => ?_⟩
  · obtain ⟨⟨j, q⟩, he, rfl⟩ := List.mem_map.mp hm
    exact habs q he
  · rw [List.mem_cons]
    by_cases hji : j = i
    · subst hji
      have hq : (j, q) ∉ rows := habs q
      simp only [UniqueMap.insert, Function.update_self, Option.some.injEq, Prod.mk.injEq, true_and,
        hq, or_false, eq_comm]
    · simp only [UniqueMap.insert, Function.update_of_ne hji, Prod.mk.injEq, hji, false_and,
        false_or, h.mem j q]

theorem erase (h : m.Lists ((i, r) :: rows)) : (m.erase i).Lists rows := by
  obtain ⟨hi, hnodup⟩ := List.nodup_cons.mp h.nodup
  refine ⟨hnodup, fun j q => ?_⟩
  by_cases hji : j = i
  · subst hji
    refine ⟨fun hm => absurd (List.mem_map.mpr ⟨(j, q), hm, rfl⟩) hi, fun hq => ?_⟩
    exact absurd rfl (get_of_erased hq).1
  · have hmem := h.mem j q
    simp only [List.mem_cons, Prod.mk.injEq, hji, false_and, false_or] at hmem
    simp only [UniqueMap.erase, Function.update_of_ne hji, hmem]

theorem replace {q : R} (h : m.Lists ((i, q) :: rows)) (hi : m.get i = some q)
    (hkey : ∀ k, key k r = key k q) : (m.replace i r hi hkey).Lists ((i, r) :: rows) := by
  have hnodup := List.nodup_cons.mp h.nodup
  refine ⟨h.nodup, fun j x => ?_⟩
  by_cases hji : j = i
  · subst hji
    have hx : (j, x) ∉ rows := fun hm => hnodup.1 (List.mem_map.mpr ⟨(j, x), hm, rfl⟩)
    simp only [UniqueMap.replace, Function.update_self, List.mem_cons, Prod.mk.injEq, true_and, hx,
      or_false, Option.some.injEq, eq_comm]
  · have hmem := h.mem j x
    simp only [List.mem_cons, Prod.mk.injEq, hji, false_and, false_or] at hmem
    simp only [UniqueMap.replace, Function.update_of_ne hji, List.mem_cons, Prod.mk.injEq, hji,
      false_and, false_or, hmem]

end Changed

end Lists

end UniqueMap
