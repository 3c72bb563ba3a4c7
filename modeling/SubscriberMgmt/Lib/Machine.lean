import Mathlib.Tactic.Common
import Mathlib.Algebra.Ring.Nat

/-!
# Machines and their runs

A deterministic machine takes a state and an action to a new state and an
output. Its specification may be nondeterministic: a relation between an
abstract state, an action, an output and the next abstract state.
-/

namespace Machine

variable {S T A B O : Type*}

def final (step : S → A → S × O) (s : S) : List A → S
  | [] => s
  | a :: as => final step (step s a).1 as

def outputs (step : S → A → S × O) (s : S) : List A → List O
  | [] => []
  | a :: as => (step s a).2 :: outputs step (step s a).1 as

@[simp] theorem final_nil (step : S → A → S × O) (s : S) : final step s [] = s := rfl

@[simp] theorem final_cons (step : S → A → S × O) (s : S) (a : A) (as : List A) :
    final step s (a :: as) = final step (step s a).1 as := rfl

theorem final_concat (step : S → A → S × O) (s : S) (as : List A) (a : A) :
    final step s (as ++ [a]) = (step (final step s as) a).1 := by
  induction as generalizing s with
  | nil => rfl
  | cons b as ih => exact ih _

theorem final_invariant {step : S → A → S × O} {P : S → Prop}
    (hstep : ∀ s a, P s → P (step s a).1) {s : S} (hs : P s) (as : List A) :
    P (final step s as) := by
  induction as generalizing s with
  | nil => exact hs
  | cons a as ih => exact ih (hstep s a hs)

/-- An invariant that the actions of a kind keep. -/
theorem final_keeps {step : S → A → S × O} {P : S → Prop} {Q : A → Prop}
    (hstep : ∀ s a, P s → Q a → P (step s a).1) {s : S} (hs : P s) {as : List A}
    (has : ∀ a ∈ as, Q a) : P (final step s as) := by
  induction as generalizing s with
  | nil => exact hs
  | cons a as ih =>
    exact ih (hstep s a hs (has a (List.mem_cons_self ..))) fun b hb =>
      has b (List.mem_cons_of_mem _ hb)

theorem final_append (step : S → A → S × O) (s : S) (as bs : List A) :
    final step s (as ++ bs) = final step (final step s as) bs := by
  induction as generalizing s with
  | nil => rfl
  | cons a as ih => exact ih _

theorem outputs_append (step : S → A → S × O) (s : S) (as bs : List A) :
    outputs step s (as ++ bs) = outputs step s as ++ outputs step (final step s as) bs := by
  induction as generalizing s with
  | nil => rfl
  | cons a as ih => exact congrArg _ (ih _)

/-- Every output comes from a step in some state of the run. -/
theorem mem_outputs {step : S → A → S × O} {s : S} {as : List A} {o : O}
    (h : o ∈ outputs step s as) :
    ∃ pre a post, as = pre ++ a :: post ∧ o = (step (final step s pre) a).2 := by
  induction as generalizing s with
  | nil => cases h
  | cons a as ih =>
    cases List.mem_cons.mp h with
    | inl h => exact ⟨[], a, as, rfl, h⟩
    | inr h =>
      obtain ⟨pre, b, post, has, ho⟩ := ih h
      exact ⟨a :: pre, b, post, congrArg _ has, ho⟩

/-- An invariant of a state with the actions and the log so far, for steps that
keep it while the log stays `Q`. -/
theorem log_invariant {step : S → A → S × List O} {P : List A → S → List O → Prop}
    {Q : List O → Prop} (hpre : ∀ log log', Q (log ++ log') → Q log)
    (hstep : ∀ as s log a, P as s log → Q (log ++ (step s a).2) →
      P (as ++ [a]) (step s a).1 (log ++ (step s a).2))
    {s : S} (hs : P [] s []) (as : List A) (hgood : Q (outputs step s as).flatten) :
    P as (final step s as) (outputs step s as).flatten := by
  have hfrom : ∀ pre s log, P pre s log → Q (log ++ (outputs step s as).flatten) →
      P (pre ++ as) (final step s as) (log ++ (outputs step s as).flatten) := by
    clear hgood hs
    induction as with
    | nil =>
      intro pre s log h _
      simpa [outputs] using h
    | cons a as ih =>
      intro pre s log h hgood
      simp only [outputs, List.flatten_cons, ← List.append_assoc] at hgood ⊢
      rw [List.append_cons]
      exact ih _ _ _ (hstep pre s log a h (hpre _ _ hgood)) hgood
  simpa using hfrom [] s [] hs (by simpa using hgood)

/-- Each step of the run is one that its users may take. -/
def Along (step : S → A → S × O) (may : S → A → Prop) (s : S) : List A → Prop
  | [] => True
  | a :: as => may s a ∧ Along step may (step s a).1 as

theorem Along.of_forall {step : S → A → S × O} {may : S → A → Prop} {as : List A}
    (h : ∀ a ∈ as, ∀ s, may s a) (s : S) : Along step may s as := by
  induction as generalizing s with
  | nil => trivial
  | cons a as ih =>
    have hrest : ∀ b ∈ as, ∀ s, may s b := fun b hb => h b (List.mem_cons_of_mem _ hb)
    exact ⟨h a (List.mem_cons_self ..) s, ih hrest _⟩

theorem Along.mono {step : S → A → S × O} {may may' : S → A → Prop} {s : S} {as : List A}
    (h : Along step may s as) (hle : ∀ s a, may s a → may' s a) : Along step may' s as := by
  induction as generalizing s with
  | nil => trivial
  | cons a as ih => exact ⟨hle s a h.1, ih h.2⟩

/-- A run of such steps may take the one after any of its prefixes. -/
theorem Along.at_split {step : S → A → S × O} {may : S → A → Prop} {s : S} {pre post : List A}
    {a : A} (h : Along step may s (pre ++ a :: post)) : may (final step s pre) a := by
  induction pre generalizing s with
  | nil => exact h.1
  | cons b pre ih => exact ih h.2

theorem Along.front {step : S → A → S × O} {may : S → A → Prop} {s : S} {as bs : List A}
    (h : Along step may s (as ++ bs)) : Along step may s as := by
  induction as generalizing s with
  | nil => trivial
  | cons a as ih => exact ⟨h.1, ih h.2⟩

theorem Along.rest {step : S → A → S × O} {may : S → A → Prop} {s : S} {as bs : List A}
    (h : Along step may s (as ++ bs)) : Along step may (final step s as) bs := by
  induction as generalizing s with
  | nil => exact h
  | cons a as ih => exact ih h.2

/-- An invariant for runs of such steps. -/
theorem Along.invariant {step : S → A → S × O} {may : S → A → Prop} {P : S → Prop}
    (hstep : ∀ s a, P s → may s a → P (step s a).1) {s : S} (hs : P s) {as : List A}
    (h : Along step may s as) : P (final step s as) := by
  induction as generalizing s with
  | nil => exact hs
  | cons a as ih => exact ih (hstep s a hs h.1) h.2

/-- An invariant of the state with the log so far, for runs of such steps. -/
theorem along_invariant {step : S → A → S × List O} {may : S → A → Prop} {P : S → List O → Prop}
    (hstep : ∀ s log a, P s log → may s a → P (step s a).1 (log ++ (step s a).2))
    {s : S} {log : List O} (hs : P s log) {as : List A} (h : Along step may s as) :
    P (final step s as) (log ++ (outputs step s as).flatten) := by
  induction as generalizing s log with
  | nil => simpa [outputs] using hs
  | cons a as ih =>
    have hrest := ih (hstep s log a hs h.1) h.2
    rwa [List.append_assoc] at hrest

/-- States that a run reaches by steps that its users may take. -/
inductive Reach (step : S → A → S) (may : S → A → Prop) (start : S) : S → Prop
  | start : Reach step may start start
  | step {s : S} {a : A} (h : Reach step may start s) (ha : may s a) :
      Reach step may start (step s a)

theorem Reach.invariant {step : S → A → S} {may : S → A → Prop} {start s : S} {P : S → Prop}
    (h : Reach step may start s) (hstart : P start)
    (hstep : ∀ s a, P s → may s a → P (step s a)) : P s := by
  induction h with
  | start => exact hstart
  | step _ ha ih => exact hstep _ _ ih ha

theorem Reach.mono {step : S → A → S} {may may' : S → A → Prop} {start s : S}
    (h : Reach step may start s) (hle : ∀ s a, may s a → may' s a) :
    Reach step may' start s := by
  induction h with
  | start => exact .start
  | step _ ha ih => exact .step ih (hle _ _ ha)

inductive Runs (spec : T → A → O → T → Prop) : T → List A → List O → T → Prop
  | nil (t : T) : Runs spec t [] [] t
  | cons {t t' t'' : T} {a : A} {o : O} {as : List A} {os : List O} :
      spec t a o t' → Runs spec t' as os t'' → Runs spec t (a :: as) (o :: os) t''

/-- Forward simulation: a machine whose steps match specification steps has
runs that match specification runs, with the same outputs. -/
theorem refines {step : S → A → S × O} {spec : T → A → O → T → Prop} {R : S → T → Prop}
    (hsim : ∀ s t a, R s t → ∃ t', spec t a (step s a).2 t' ∧ R (step s a).1 t')
    {s : S} {t : T} (h : R s t) (as : List A) :
    ∃ t', Runs spec t as (outputs step s as) t' ∧ R (final step s as) t' := by
  induction as generalizing s t with
  | nil => exact ⟨t, Runs.nil t, h⟩
  | cons a as ih =>
    obtain ⟨t1, hspec, h1⟩ := hsim s t a h
    obtain ⟨t2, hrun, h2⟩ := ih h1
    exact ⟨t2, Runs.cons hspec hrun, h2⟩

/-- Forward simulation where the actions have costs and steps are matched within a limit. -/
theorem refines_within {step : S → A → S × O} {spec : T → A → O → T → Prop} {cost : A → ℕ}
    {limit : ℕ} {R : ℕ → S → T → Prop}
    (hsim : ∀ n s t a, R n s t → n + cost a ≤ limit →
      ∃ t', spec t a (step s a).2 t' ∧ R (n + cost a) (step s a).1 t')
    {n : ℕ} {s : S} {t : T} (h : R n s t) (as : List A) (hle : n + (as.map cost).sum ≤ limit) :
    ∃ t', Runs spec t as (outputs step s as) t' ∧
      R (n + (as.map cost).sum) (final step s as) t' := by
  induction as generalizing n s t with
  | nil => exact ⟨t, Runs.nil t, h⟩
  | cons a as ih =>
    rw [List.map_cons, List.sum_cons, ← Nat.add_assoc] at hle ⊢
    obtain ⟨t1, hspec, h1⟩ := hsim n s t a h (Nat.le_trans (Nat.le_add_right _ _) hle)
    obtain ⟨t2, hrun, h2⟩ := ih h1 hle
    exact ⟨t2, Runs.cons hspec hrun, h2⟩

/-- The steps of a run that `obs` takes for requests, with their outputs. -/
def seen (obs : S → A → Option B) (step : S → A → S × O) (s : S) : List A → List (B × O)
  | [] => []
  | a :: as => ((obs s a).map fun b => (b, (step s a).2)).toList ++ seen obs step (step s a).1 as

/-- Forward simulation of the requests alone: the other steps keep the relation. -/
theorem refines_seen {obs : S → A → Option B} {step : S → A → S × O} {spec : T → B → O → T → Prop}
    {cost : B → ℕ} {limit : ℕ} {R : ℕ → S → T → Prop}
    (hseen : ∀ n s t a b, R n s t → obs s a = some b → n + cost b ≤ limit →
      ∃ t', spec t b (step s a).2 t' ∧ R (n + cost b) (step s a).1 t')
    (hquiet : ∀ n s t a, R n s t → obs s a = none → R n (step s a).1 t)
    {n : ℕ} {s : S} {t : T} (h : R n s t) (as : List A)
    (hle : n + ((seen obs step s as).map fun x => cost x.1).sum ≤ limit) :
    ∃ t', Runs spec t ((seen obs step s as).map Prod.fst) ((seen obs step s as).map Prod.snd) t' ∧
      R (n + ((seen obs step s as).map fun x => cost x.1).sum) (final step s as) t' := by
  induction as generalizing n s t with
  | nil => exact ⟨t, Runs.nil t, h⟩
  | cons a as ih =>
    cases hb : obs s a with
    | none =>
      simp only [seen, hb, Option.map_none, Option.toList_none, List.nil_append] at hle ⊢
      exact ih (hquiet n s t a h hb) hle
    | some b =>
      simp only [seen, hb, Option.map_some, Option.toList_some, List.singleton_append, List.map_cons,
        List.sum_cons, ← Nat.add_assoc] at hle ⊢
      obtain ⟨t1, hspec, h1⟩ := hseen n s t a b h hb (Nat.le_trans (Nat.le_add_right _ _) hle)
      obtain ⟨t2, hrun, h2⟩ := ih h1 hle
      exact ⟨t2, Runs.cons hspec hrun, h2⟩

end Machine
