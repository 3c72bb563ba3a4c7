import Mathlib.Tactic.Common
import Mathlib.Data.Nat.Notation

/-!
# A register with compare-and-set

An attempt names the value it expects and the one it writes. A log of attempts
is judged against the value that each of them finds.
-/

namespace CasRegister

variable {V : Type*}

structure Attempt (V : Type*) where
  old : V
  new : V
  ok : Bool

def Attempt.next (a : Attempt V) (v : V) : V := if a.ok then a.new else v

/-- The value after a log: the new value of the last attempt that succeeded. -/
def value (v : V) : List (Attempt V) → V
  | [] => v
  | a :: log => value (a.next v) log

/-- Every attempt that succeeds names the value it finds. -/
def Sound (v : V) : List (Attempt V) → Prop
  | [] => True
  | a :: log => (a.ok = true → a.old = v) ∧ Sound (a.next v) log

/-- Every attempt that names the value it finds succeeds. -/
def Complete (v : V) : List (Attempt V) → Prop
  | [] => True
  | a :: log => (a.old = v → a.ok = true) ∧ Complete (a.next v) log

theorem value_eq (v : V) (log : List (Attempt V)) :
    value v log = ((log.filter Attempt.ok).getLast?.map Attempt.new).getD v := by
  induction log generalizing v with
  | nil => rfl
  | cons a log ih =>
    rw [value, ih, List.filter_cons]
    cases hok : a.ok with
    | false => simp [Attempt.next, hok]
    | true =>
      rw [if_pos rfl, List.getLast?_cons]
      cases (log.filter Attempt.ok).getLast? <;> simp [Attempt.next, hok]

theorem value_append (v : V) (log log' : List (Attempt V)) :
    value v (log ++ log') = value (value v log) log' := by
  induction log generalizing v with
  | nil => rfl
  | cons a log ih => exact ih _

theorem sound_append {v : V} {log log' : List (Attempt V)} :
    Sound v (log ++ log') ↔ Sound v log ∧ Sound (value v log) log' := by
  induction log generalizing v with
  | nil => exact (iff_of_eq (true_and _)).symm
  | cons a log ih =>
    show _ ∧ Sound (a.next v) (log ++ log') ↔ (_ ∧ Sound (a.next v) log) ∧ _
    rw [ih, and_assoc]
    rfl

theorem complete_append {v : V} {log log' : List (Attempt V)} :
    Complete v (log ++ log') ↔ Complete v log ∧ Complete (value v log) log' := by
  induction log generalizing v with
  | nil => exact (iff_of_eq (true_and _)).symm
  | cons a log ih =>
    show _ ∧ Complete (a.next v) (log ++ log') ↔ (_ ∧ Complete (a.next v) log) ∧ _
    rw [ih, and_assoc]
    rfl

variable [DecidableEq V]

def wins (v : V) (log : List (Attempt V)) : ℕ := log.countP fun a => a.ok && decide (a.old = v)

/-- A value that is gone and not written again is not found. -/
theorem wins_eq_zero {v w : V} {log : List (Attempt V)} (hsound : Sound w log) (hw : w ≠ v)
    (hnew : ∀ a ∈ log, a.new ≠ v) : wins v log = 0 := by
  induction log generalizing w with
  | nil => rfl
  | cons a log ih =>
    obtain ⟨hfirst, hrest⟩ := hsound
    have hnext : a.next w ≠ v := by
      unfold Attempt.next
      split
      · exact hnew a (List.mem_cons_self ..)
      · exact hw
    have hzero := ih hrest hnext fun b hb => hnew b (List.mem_cons_of_mem _ hb)
    have hlost : (a.ok && decide (a.old = v)) = false := by
      rw [Bool.and_eq_false_imp, decide_eq_false_iff_not]
      exact fun hok hold => hw ((hfirst hok).symm.trans hold)
    rw [wins, List.countP_cons, hlost]
    exact hzero

/-- Of the attempts that name the first value, where none writes it again,
exactly one succeeds. -/
theorem wins_eq_one {v : V} {log : List (Attempt V)} (hsound : Sound v log)
    (hcomplete : Complete v log) (hnew : ∀ a ∈ log, a.new ≠ v) (hold : ∃ a ∈ log, a.old = v) :
    wins v log = 1 := by
  induction log with
  | nil =>
    obtain ⟨a, ha, -⟩ := hold
    cases ha
  | cons a log ih =>
    obtain ⟨hfirst, hrest⟩ := hsound
    obtain ⟨hmust, hrest'⟩ := hcomplete
    have hnew' : ∀ b ∈ log, b.new ≠ v := fun b hb => hnew b (List.mem_cons_of_mem _ hb)
    cases hok : a.ok with
    | true =>
      have hone : (a.ok && decide (a.old = v)) = true := by
        rw [hok, hfirst hok, decide_eq_true rfl]
        rfl
      have hgone : a.next v ≠ v := by
        rw [Attempt.next, if_pos hok]
        exact hnew a (List.mem_cons_self ..)
      have hzero := wins_eq_zero hrest hgone hnew'
      rw [wins, List.countP_cons, hone]
      exact congrArg (· + 1) hzero
    | false =>
      have hother : a.old ≠ v := fun he => by
        rw [hmust he] at hok
        cases hok
      have hsame : a.next v = v := by rw [Attempt.next, hok]; rfl
      rw [hsame] at hrest hrest'
      have hold' : ∃ b ∈ log, b.old = v := by
        obtain ⟨b, hb, hbold⟩ := hold
        rcases List.mem_cons.mp hb with rfl | hb
        · exact absurd hbold hother
        · exact ⟨b, hb, hbold⟩
      have hlost : (a.ok && decide (a.old = v)) = false := by rw [hok]; rfl
      rw [wins, List.countP_cons, hlost]
      exact ih hrest hrest' hnew' hold'

end CasRegister
