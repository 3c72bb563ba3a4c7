import Mathlib.Data.List.Basic
import Mathlib.Data.List.Induction
import Mathlib.Data.List.Perm.Basic
import Mathlib.Data.List.Perm.Subperm
import Mathlib.Data.List.Nodup
import Mathlib.Logic.Function.Basic
import Mathlib.Data.Nat.Notation

/-!
# List traversals of fixed arrays and bucket arrays

Two shapes of C loop over an array: a search that changes the first matching
cell and stops, and a walk over an array of chains. Both are given here with
the permutation facts their users need.
-/

namespace ListKit

open scoped List

variable {α β : Type*}

/-! ### First matching cell -/

def updateFirst (p : α → Bool) (f : α → α) : List α → List α
  | [] => []
  | a :: l => if p a then f a :: l else a :: updateFirst p f l

theorem find?_split {p : α → Bool} {l : List α} {a : α} (h : l.find? p = some a) :
    ∃ pre post, l = pre ++ a :: post ∧ (∀ x ∈ pre, p x = false) ∧ p a = true := by
  obtain ⟨ha, pre, post, hl, hpre⟩ := List.find?_eq_some_iff_append.mp h
  exact ⟨pre, post, hl, fun x hx => by simpa using hpre x hx, ha⟩

theorem updateFirst_split {p : α → Bool} (f : α → α) {pre post : List α} {a : α}
    (hpre : ∀ x ∈ pre, p x = false) (ha : p a = true) :
    updateFirst p f (pre ++ a :: post) = pre ++ f a :: post := by
  induction pre with
  | nil => simp [updateFirst, ha]
  | cons x pre ih =>
    have hx : p x = false := hpre x (List.mem_cons_self ..)
    have ht := ih fun y hy => hpre y (List.mem_cons_of_mem _ hy)
    simp [updateFirst, hx, ht]

theorem updateFirst_perm {p : α → Bool} (f : α → α) {l : List α} {a : α}
    (h : l.find? p = some a) :
    ∃ rest, l.Perm (a :: rest) ∧ (updateFirst p f l).Perm (f a :: rest) := by
  obtain ⟨pre, post, rfl, hpre, ha⟩ := find?_split h
  refine ⟨pre ++ post, List.perm_middle, ?_⟩
  rw [updateFirst_split f hpre ha]
  exact List.perm_middle

theorem eraseP_perm {p : α → Bool} {l : List α} {a : α} (h : l.find? p = some a) :
    l.Perm (a :: l.eraseP p) := by
  obtain ⟨pre, post, rfl, hpre, ha⟩ := find?_split h
  have he : (pre ++ a :: post).eraseP p = pre ++ post := by
    rw [List.eraseP_append_right _ (fun x hx => by simp [hpre x hx]), List.eraseP_cons_of_pos ha]
  rw [he]
  exact List.perm_middle

theorem mem_updateFirst {p : α → Bool} {f : α → α} {l : List α} {x : α}
    (h : x ∈ updateFirst p f l) : x ∈ l ∨ ∃ a ∈ l, p a = true ∧ x = f a := by
  induction l with
  | nil => simp [updateFirst] at h
  | cons a l ih =>
    simp only [updateFirst] at h
    cases hp : p a with
    | true =>
      simp only [hp, if_true, List.mem_cons] at h
      rcases h with h | h
      · exact Or.inr ⟨a, List.mem_cons_self .., hp, h⟩
      · exact Or.inl (List.mem_cons_of_mem _ h)
    | false =>
      simp only [hp, Bool.false_eq_true, if_false, List.mem_cons] at h
      rcases h with h | h
      · exact Or.inl (h ▸ List.mem_cons_self ..)
      · rcases ih h with h | ⟨b, hb, hpb, hx⟩
        · exact Or.inl (List.mem_cons_of_mem _ h)
        · exact Or.inr ⟨b, List.mem_cons_of_mem _ hb, hpb, hx⟩

/-! ### Arrays of chains -/

/-- All elements of the chains `b 0, …, b (n - 1)`, in walking order. -/
def chains (n : ℕ) (b : ℕ → List α) : List α := (List.range n).flatMap b

theorem mem_chains {n : ℕ} {b : ℕ → List α} {x : α} :
    x ∈ chains n b ↔ ∃ i < n, x ∈ b i := by
  simp [chains, List.mem_flatMap]

theorem chains_nil (n : ℕ) : chains n (fun _ => ([] : List α)) = [] := by
  simp [chains]

theorem chains_succ (n : ℕ) (b : ℕ → List α) : chains (n + 1) b = chains n b ++ b n := by
  simp [chains, List.range_succ]

theorem chains_congr {n : ℕ} {b c : ℕ → List α} (h : ∀ i < n, b i = c i) :
    chains n b = chains n c := by
  induction n with
  | zero => rfl
  | succ n ih =>
    rw [chains_succ, chains_succ, h n (Nat.lt_succ_self n),
      ih fun i hi => h i (Nat.lt_succ_of_lt hi)]

theorem chains_update {n i : ℕ} (hi : i < n) (b : ℕ → List α) (l : List α) :
    (chains n (Function.update b i l) ++ b i).Perm (chains n b ++ l) := by
  induction n with
  | zero => omega
  | succ n ih =>
    rw [chains_succ, chains_succ]
    by_cases hn : i = n
    · subst hn
      have hc : chains i (Function.update b i l) = chains i b :=
        chains_congr fun j hj => Function.update_of_ne (by omega) _ _
      rw [hc, Function.update_self, List.append_assoc, List.append_assoc]
      exact List.perm_append_comm.append_left _
    · have hlast : Function.update b i l n = b n := Function.update_of_ne (Ne.symm hn) _ _
      rw [hlast]
      have hrec := ih (by omega)
      calc (chains n (Function.update b i l) ++ b n ++ b i)
          ~ (chains n (Function.update b i l) ++ b i) ++ b n := by
            rw [List.append_assoc, List.append_assoc]
            exact List.perm_append_comm.append_left _
        _ ~ (chains n b ++ l) ++ b n := hrec.append_right _
        _ ~ chains n b ++ b n ++ l := by
            rw [List.append_assoc, List.append_assoc]
            exact List.perm_append_comm.append_left _

theorem chains_push {n i : ℕ} (hi : i < n) (b : ℕ → List α) (x : α) :
    (chains n (Function.update b i (x :: b i))).Perm (x :: chains n b) := by
  have h := chains_update hi b (x :: b i)
  have hm : (chains n b ++ x :: b i).Perm (x :: chains n b ++ b i) := List.perm_middle
  exact (List.perm_append_right_iff (b i)).mp (h.trans hm)

theorem chains_exchange {n i : ℕ} (hi : i < n) (b : ℕ → List α) {l rest s : List α} {x : α}
    (hold : (b i).Perm (x :: rest)) (hnew : l.Perm (s ++ rest)) :
    (x :: chains n (Function.update b i l)).Perm (s ++ chains n b) := by
  have h := chains_update hi b l
  have h1 : (chains n (Function.update b i l) ++ x :: rest).Perm (chains n b ++ (s ++ rest)) :=
    ((hold.symm.append_left _).trans h).trans (hnew.append_left _)
  have h2 : ((x :: chains n (Function.update b i l)) ++ rest).Perm
      ((s ++ chains n b) ++ rest) := by
    calc (x :: chains n (Function.update b i l)) ++ rest
        ~ chains n (Function.update b i l) ++ x :: rest := List.perm_middle.symm
      _ ~ chains n b ++ (s ++ rest) := h1
      _ ~ (s ++ chains n b) ++ rest := by
          rw [← List.append_assoc]
          exact List.perm_append_comm.append_right _
  exact (List.perm_append_right_iff rest).mp h2

/-! ### Lists by their positions -/

theorem flatMap_range (l : List α) (f : α → List β) :
    (List.range l.length).flatMap (fun k => (l[k]?).elim [] f) = l.flatMap f := by
  induction l using List.reverseRecOn with
  | nil => rfl
  | append_singleton l x ih =>
    have hold : (List.range l.length).flatMap (fun k => ((l ++ [x])[k]?).elim [] f) =
        (List.range l.length).flatMap (fun k => (l[k]?).elim [] f) :=
      List.flatMap_congr fun k hk => by
        rw [List.getElem?_append_left (List.mem_range.mp hk)]
    rw [List.length_append, List.length_singleton, List.range_succ, List.flatMap_append, hold, ih,
      List.flatMap_singleton, List.getElem?_append_right (Nat.le_refl _), Nat.sub_self, List.flatMap_append,
      List.flatMap_singleton, List.getElem?_cons_zero, Option.elim_some]

end ListKit
