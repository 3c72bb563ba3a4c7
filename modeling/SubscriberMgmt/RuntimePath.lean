import SubscriberMgmt.Common

/-!
# Where the menu program keeps its files (`main.c:40-94`)

A relative path is tried as it is, then next to the program. Which files open is
an input; a path that does not fit in the buffer of the caller comes out empty.
-/

namespace SubscriberMgmt

def slash : UInt8 := 47

def backslash : UInt8 := 92

def colon : UInt8 := 58

/-- `strrchr(s, c) - s` -/
def lastIndex (c : UInt8) (s : Str) : Option ℕ :=
  if c ∈ s then some (s.length - 1 - s.reverse.idxOf c) else none

/-- The length of the directory of `argv0`, up to the last separator. -/
def dirLen (argv0 : Str) : Option ℕ :=
  match lastIndex slash argv0, lastIndex backslash argv0 with
  | some i, some j => if j < i then some i else some j
  | some i, none => some i
  | none, bslash => bslash

/-- The path next to the program, if it fits in `base_dir` and `candidate`. -/
def besideProgram (input argv0 : Str) : Option Str :=
  match dirLen argv0 with
  | none => none
  | some n =>
    let candidate := argv0.take n ++ slash :: input
    if n + 1 < 512 ∧ candidate.length < 1024 then some candidate else none

def IsAbsolute (input : Str) : Prop :=
  input.head? = some slash ∨ input.head? = some backslash ∨ colon ∈ input

instance (input : Str) : Decidable (IsAbsolute input) := inferInstanceAs (Decidable (_ ∨ _))

/-- `opens` tells the paths for which `fopen(path, "r")` succeeds. -/
def resolveRuntimePath (opens : Str → Bool) (input : Str) (outLen : ℕ) (argv0 : Str) : Str :=
  if input = [] then []
  else if IsAbsolute input then input.take (outLen - 1)
  else if opens input then input.take (outLen - 1)
  else
    match (besideProgram input argv0).filter opens with
    | some candidate => if candidate.length < outLen then candidate else []
    | none => if outLen ≤ input.length then [] else input

section Resolve

variable {opens : Str → Bool} {input argv0 : Str} {outLen : ℕ}

theorem besideProgram_length {candidate : Str} (h : besideProgram input argv0 = some candidate) :
    input.length < candidate.length := by
  unfold besideProgram at h
  split at h
  · cases h
  · dsimp only at h
    split at h
    · cases h
      simp only [List.length_append, List.length_cons]
      omega
    · cases h

/-- A path that was left for the one next to the program. -/
theorem resolveRuntimePath_beside (hlen : input.length < outLen) :
    let p := resolveRuntimePath opens input outLen argv0
    p = [] ∨ p = input ∨
      besideProgram input argv0 = some p ∧ input ≠ [] ∧ ¬ IsAbsolute input := by
  intro p
  have htake : input.take (outLen - 1) = input := List.take_of_length_le (by omega)
  simp only [p, resolveRuntimePath, htake]
  split
  · exact Or.inl rfl
  next hne =>
    split
    · exact Or.inr (Or.inl rfl)
    next habs =>
      split
      · exact Or.inr (Or.inl rfl)
      · split
        next candidate hc =>
          split
          · exact Or.inr (Or.inr ⟨(Option.filter_eq_some_iff.mp hc).1, hne, habs⟩)
          · exact Or.inl rfl
        · rw [if_neg (by omega)]
          exact Or.inr (Or.inl rfl)

theorem resolveRuntimePath_length (hlen : input.length < outLen) :
    (resolveRuntimePath opens input outLen argv0).length < outLen := by
  have htake : input.take (outLen - 1) = input := List.take_of_length_le (by omega)
  simp only [resolveRuntimePath, htake]
  split
  · exact Nat.lt_of_le_of_lt (Nat.zero_le _) hlen
  · split
    · exact hlen
    · split
      · exact hlen
      · split
        · split
          · assumption
          · exact Nat.lt_of_le_of_lt (Nat.zero_le _) hlen
        · rw [if_neg (by omega)]
          exact hlen

/-- The file that a program was led to is found again, unless the relative path opens by then. -/
theorem resolveRuntimePath_again {opens' : Str → Bool} (hlen : input.length < outLen)
    (hp : resolveRuntimePath opens input outLen argv0 ≠ [])
    (hopens : opens' (resolveRuntimePath opens input outLen argv0) = true)
    (hwork : resolveRuntimePath opens input outLen argv0 = input ∨ opens' input = false) :
    resolveRuntimePath opens' input outLen argv0 = resolveRuntimePath opens input outLen argv0 := by
  have htake : input.take (outLen - 1) = input := List.take_of_length_le (by omega)
  have hcases := @resolveRuntimePath_beside opens input argv0 outLen hlen
  have hfits := @resolveRuntimePath_length opens input argv0 outLen hlen
  dsimp only at hcases
  generalize resolveRuntimePath opens input outLen argv0 = p at hp hopens hwork hcases hfits ⊢
  obtain hnil | rfl | ⟨hbeside, hinput, habs⟩ := hcases
  · exact absurd hnil hp
  · simp only [resolveRuntimePath, htake, hopens, if_true, ite_self, if_neg hp]
  · have hne : p ≠ input := by
      intro he
      have hlt := besideProgram_length hbeside
      rw [he] at hlt
      exact Nat.lt_irrefl _ hlt
    have hclosed := hwork.resolve_left hne
    simp only [resolveRuntimePath, if_neg hinput, if_neg habs, hclosed, hbeside,
      Option.filter_some, hopens, if_true, Bool.false_eq_true, if_false, if_pos hfits]

end Resolve

end SubscriberMgmt
