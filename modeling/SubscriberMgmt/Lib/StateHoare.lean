import Mathlib.Tactic.Common
import Mathlib.Data.Nat.Notation

/-!
# Pre- and postconditions of state programs

A program of `StateM σ` always ends, so a triple speaks of the one state it
ends in. A view of the state that a program leaves alone carries every
assertion about it across the program.
-/

namespace StateHoare

variable {σ α β γ : Type}

def Triple (P : σ → Prop) (m : StateM σ α) (Q : α → σ → Prop) : Prop :=
  ∀ s, P s → Q (m s).1 (m s).2

/-- The program keeps the assertion. -/
abbrev Keeps (P : σ → Prop) (m : StateM σ α) : Prop := Triple P m fun _ => P

/-- The program leaves the view as it is. -/
def Leaves (view : σ → γ) (m : StateM σ α) : Prop := ∀ s, view (m s).2 = view s

section Triple

variable {P P' : σ → Prop} {m : StateM σ α} {Q Q' : α → σ → Prop} {R : β → σ → Prop}

theorem Triple.pure {a : α} (h : ∀ s, P s → Q a s) : Triple P (pure a : StateM σ α) Q := h

theorem Triple.bind {f : α → StateM σ β} (hm : Triple P m Q) (hf : ∀ a, Triple (Q a) (f a) R) :
    Triple P (m >>= f) R := fun s hs => hf _ _ (hm s hs)

theorem Triple.map {f : α → β} (hm : Triple P m Q) (hf : ∀ a s, Q a s → R (f a) s) :
    Triple P (f <$> m) R := fun s hs => hf _ _ (hm s hs)

theorem Triple.conseq (hm : Triple P m Q) (hpre : ∀ s, P' s → P s)
    (hpost : ∀ a s, Q a s → Q' a s) : Triple P' m Q' := fun s hs => hpost _ _ (hm s (hpre s hs))

theorem Triple.ite {c : Prop} [Decidable c] {m' : StateM σ α} (hm : c → Triple P m Q)
    (hm' : ¬ c → Triple P m' Q) : Triple P (if c then m else m') Q := by
  split
  case isTrue hc => exact hm hc
  case isFalse hc => exact hm' hc

/-- `get` hands the state on, of which the assertion then speaks twice. -/
theorem Triple.get {f : σ → StateM σ β} (h : ∀ s, P s → Triple (· = s) (f s) R) :
    Triple P (get >>= f) R := fun s hs => h s hs s rfl

theorem Keeps.bind {f : α → StateM σ β} (hm : Keeps P m) (hf : ∀ a, Keeps P (f a)) :
    Keeps P (m >>= f) := Triple.bind hm hf

theorem Keeps.pure {a : α} : Keeps P (pure a : StateM σ α) := fun _ hs => hs

/-- Part of the state is read and the rest of the program keeps the assertion. -/
theorem Keeps.get {f : σ → StateM σ β} (h : ∀ s, P s → Keeps P (f s)) :
    Keeps P (get >>= f) := fun s hs => h s hs s hs

theorem Keeps.forM {f : α → StateM σ PUnit} (hf : ∀ a, Keeps P (f a)) (l : List α) :
    Keeps P (l.forM f) := by
  induction l with
  | nil => exact Keeps.pure
  | cons a l ih => exact Keeps.bind (hf a) fun _ => ih

end Triple

section Leaves

variable {view : σ → γ} {m : StateM σ α}

theorem Leaves.triple (h : Leaves view m) (P : γ → Prop) :
    Keeps (fun s => P (view s)) m := by
  intro s hs
  show P (view (m s).2)
  rw [h s]
  exact hs

theorem Leaves.pure {a : α} : Leaves view (pure a : StateM σ α) := fun _ => rfl

theorem Leaves.bind {f : α → StateM σ β} (hm : Leaves view m) (hf : ∀ a, Leaves view (f a)) :
    Leaves view (m >>= f) := fun s => (hf _ _).trans (hm s)

theorem Leaves.ite {c : Prop} [Decidable c] {m' : StateM σ α} (hm : Leaves view m)
    (hm' : Leaves view m') : Leaves view (if c then m else m') := by
  split
  case isTrue => exact hm
  case isFalse => exact hm'

theorem Leaves.forM {α : Type} {f : α → StateM σ PUnit} (hf : ∀ a, Leaves view (f a))
    (l : List α) : Leaves view (l.forM f) := by
  induction l with
  | nil => exact Leaves.pure
  | cons a l ih => exact Leaves.bind (hf a) fun _ => ih

end Leaves

end StateHoare
