import SubscriberMgmt.Lib.CText
import Mathlib.Data.List.Basic

/-!
# Lines of a file and the pieces that `fgets` reads

A place in a file is an offset. A line is known by its number, the count of
newlines before it.
-/

namespace CText

/-! ### Places -/

/-- The first byte of a line stands at the offset. -/
def AtLineStart (s : Bytes) (o : ℕ) : Prop := o = 0 ∨ s[o - 1]? = some newline

instance (s : Bytes) (o : ℕ) : Decidable (AtLineStart s o) :=
  inferInstanceAs (Decidable (o = 0 ∨ s[o - 1]? = some newline))

def lineNumber (s : Bytes) (o : ℕ) : ℕ := (s.take o).count newline

theorem lineNumber_mono (s : Bytes) {o o' : ℕ} (h : o ≤ o') :
    lineNumber s o ≤ lineNumber s o' :=
  (List.take_prefix_take_left h).sublist.count_le newline

theorem lineNumber_lt {s : Bytes} {o o' : ℕ} (h : o < o') (hstart : AtLineStart s o') :
    lineNumber s o < lineNumber s o' := by
  have hend : s[o' - 1]? = some newline := hstart.resolve_left (by omega)
  have hlast : lineNumber s o' = lineNumber s (o' - 1) + 1 := by
    rw [lineNumber, show o' = o' - 1 + 1 by omega, List.take_add_one, hend, List.count_append]
    rfl
  have hle := lineNumber_mono s (show o ≤ o' - 1 by omega)
  omega

/-- Two lines of one number are one line. -/
theorem lineStart_unique {s : Bytes} {o o' : ℕ} (h : AtLineStart s o) (h' : AtLineStart s o')
    (hline : lineNumber s o = lineNumber s o') : o = o' := by
  rcases Nat.lt_trichotomy o o' with hlt | heq | hlt
  · exact absurd hline (Nat.ne_of_lt (lineNumber_lt hlt h'))
  · exact heq
  · exact absurd hline.symm (Nat.ne_of_lt (lineNumber_lt hlt h))

/-! ### Pieces -/

/-- Where the `k`-th of consecutive pieces begins. -/
def pieceOffset (pieces : List Bytes) (k : ℕ) : ℕ := (pieces.take k).flatten.length

@[simp] theorem pieceOffset_zero (pieces : List Bytes) : pieceOffset pieces 0 = 0 := by
  simp [pieceOffset]

@[simp] theorem pieceOffset_succ (piece : Bytes) (pieces : List Bytes) (k : ℕ) :
    pieceOffset (piece :: pieces) (k + 1) = piece.length + pieceOffset pieces k := by
  simp [pieceOffset]

theorem pieceOffset_lt {pieces : List Bytes} (hne : ∀ p ∈ pieces, p ≠ []) {j k : ℕ} (hjk : j < k)
    (hk : k ≤ pieces.length) : pieceOffset pieces j < pieceOffset pieces k := by
  induction pieces generalizing j k with
  | nil =>
    rw [List.length_nil] at hk
    omega
  | cons p ps ih =>
    obtain ⟨k, rfl⟩ : ∃ i, k = i + 1 := ⟨k - 1, by omega⟩
    have hpos := List.length_pos_iff.mpr (hne p (List.mem_cons_self ..))
    cases j with
    | zero =>
      rw [pieceOffset_zero, pieceOffset_succ]
      omega
    | succ j =>
      have hrest := ih (fun q hq => hne q (List.mem_cons_of_mem _ hq))
        (Nat.lt_of_succ_lt_succ hjk) (Nat.le_of_succ_le_succ hk)
      rw [pieceOffset_succ, pieceOffset_succ]
      omega

/-- Pieces that begin at lines of one number are one piece. -/
theorem pieceOffset_unique {s : Bytes} {pieces : List Bytes} (hne : ∀ p ∈ pieces, p ≠ [])
    {j k : ℕ} (hj : j < pieces.length) (hk : k < pieces.length)
    (hjs : AtLineStart s (pieceOffset pieces j)) (hks : AtLineStart s (pieceOffset pieces k))
    (hline : lineNumber s (pieceOffset pieces j) = lineNumber s (pieceOffset pieces k)) :
    j = k := by
  have heq := lineStart_unique hjs hks hline
  rcases Nat.lt_trichotomy j k with hlt | hjk | hlt
  · exact absurd heq (Nat.ne_of_lt (pieceOffset_lt hne hlt (Nat.le_of_lt hk)))
  · exact hjk
  · exact absurd heq.symm (Nat.ne_of_lt (pieceOffset_lt hne hlt (Nat.le_of_lt hj)))

/-! ### What `fgets` reads -/

theorem fgetsAll_flatten (room : ℕ) (s : Bytes) : (fgetsAll room s).flatten = s := by
  fun_induction fgetsAll room s with
  | case1 => rfl
  | case2 c t r ih => rw [List.flatten_cons, ih, fgets_append]

theorem fgetsAll_ne_nil (room : ℕ) (s : Bytes) : ∀ p ∈ fgetsAll room s, p ≠ [] := by
  fun_induction fgetsAll room s with
  | case1 => exact fun p hp => absurd hp List.not_mem_nil
  | case2 c t r ih =>
    intro p hp
    rcases List.mem_cons.mp hp with rfl | hp
    · simp only [r, fgets]
      split <;> exact List.cons_ne_nil _ _
    · exact ih p hp

/-- A piece is what stands in the file at its offset. -/
theorem fgetsAll_prefix {room : ℕ} {s p : Bytes} {k : ℕ} (h : (fgetsAll room s)[k]? = some p) :
    p <+: s.drop (pieceOffset (fgetsAll room s) k) := by
  obtain ⟨hk, hp⟩ := List.getElem?_eq_some_iff.mp h
  have hsplit : s = ((fgetsAll room s).take k).flatten ++
      (p ++ ((fgetsAll room s).drop (k + 1)).flatten) := by
    rw [← List.flatten_cons, ← List.flatten_append, ← hp, ← List.drop_eq_getElem_cons hk,
      List.take_append_drop, fgetsAll_flatten]
  refine ⟨((fgetsAll room s).drop (k + 1)).flatten, ?_⟩
  have hdrop := congrArg (List.drop (pieceOffset (fgetsAll room s) k)) hsplit
  rw [hdrop, pieceOffset, List.drop_left]

/-- The bytes of the first line, its newline among them. -/
def lineLength : Bytes → ℕ
  | [] => 0
  | c :: s => if c = newline then 1 else lineLength s + 1

theorem lineLength_le (s : Bytes) : lineLength s ≤ s.length := by
  induction s with
  | nil => exact Nat.le_refl _
  | cons c s ih =>
    simp only [lineLength, List.length_cons]
    split <;> omega

theorem fgets_eq (room : ℕ) (s : Bytes) :
    fgets room s = (s.take (min room (lineLength s)), s.drop (min room (lineLength s))) := by
  fun_induction fgets room s with
  | case1 s => simp
  | case2 room => simp [lineLength]
  | case3 room s =>
    rw [lineLength, if_pos rfl, Nat.min_eq_right (Nat.succ_pos room)]
    rfl
  | case4 room c s hc r ih =>
    have hmin : min (room + 1) (lineLength (c :: s)) = min room (lineLength s) + 1 := by
      rw [lineLength, if_neg hc, Nat.add_min_add_right]
    rw [hmin, List.take_succ_cons, List.drop_succ_cons]
    exact congrArg (fun x => (c :: x.1, x.2)) ih

/-- The line and its newline, if it has one. -/
theorem take_lineLength (s : Bytes) :
    s.take (lineLength s) = s.takeWhile (· != newline) ∧ lineLength s = s.length ∨
      s.take (lineLength s) = s.takeWhile (· != newline) ++ [newline] := by
  induction s with
  | nil => exact Or.inl ⟨rfl, rfl⟩
  | cons c s ih =>
    by_cases hc : c = newline
    · refine Or.inr ?_
      rw [lineLength, if_pos hc, List.takeWhile_cons_of_neg (by simp [hc]), hc]
      rfl
    · rw [lineLength, if_neg hc, List.takeWhile_cons_of_pos (by simpa using hc),
        List.take_succ_cons, List.length_cons]
      obtain ⟨htake, hlen⟩ | htake := ih
      · exact Or.inl ⟨by rw [htake], by rw [hlen]⟩
      · exact Or.inr (by rw [htake]; rfl)

theorem drop_lineLength (s : Bytes) :
    (s.dropWhile (· != newline)).drop 1 = s.drop (lineLength s) := by
  induction s with
  | nil => rfl
  | cons c s ih =>
    by_cases hc : c = newline
    · rw [lineLength, if_pos hc, List.dropWhile_cons_of_neg (by simp [hc])]
    · rw [lineLength, if_neg hc, List.dropWhile_cons_of_pos (by simpa using hc),
        List.drop_succ_cons, ih]

/-- A line that does not fit the buffer is cut. -/
theorem fgetsAll_full {room : ℕ} {body : Bytes} (hbody : newline ∉ body)
    (hlen : body.length = room + 1) (rest : Bytes) :
    fgetsAll room (body ++ rest) = body :: fgetsAll room rest := by
  have hcut : ∀ {n : ℕ} {b : Bytes}, newline ∉ b → b.length = n →
      fgets n (b ++ rest) = (b, rest) := by
    intro n b
    induction b generalizing n with
    | nil =>
      rintro - rfl
      cases rest <;> rfl
    | cons c b ih =>
      rintro hb rfl
      rw [List.mem_cons, not_or] at hb
      simp only [List.length_cons, List.cons_append, fgets, Ne.symm hb.1, if_false, ih hb.2 rfl]
  cases hb : body ++ rest with
  | nil =>
    rw [List.append_eq_nil_iff] at hb
    rw [hb.1] at hlen
    cases hlen
  | cons c t => rw [fgetsAll, ← hb, hcut hbody hlen]

/-! ### Lines -/

/-- The lines of a file with their newlines; the last one may have none. -/
def fileLines : Bytes → List Bytes
  | [] => []
  | c :: s =>
    if c = newline then [c] :: fileLines s
    else
      match fileLines s with
      | [] => [[c]]
      | l :: ls => (c :: l) :: ls

theorem fileLines_first {s : Bytes} (hs : s ≠ []) :
    fileLines s = s.take (lineLength s) :: fileLines (s.drop (lineLength s)) := by
  induction s with
  | nil => exact absurd rfl hs
  | cons c s ih =>
    by_cases hc : c = newline
    · simp only [fileLines, lineLength, hc, if_true]
      rfl
    · simp only [fileLines, lineLength, hc, if_false, List.take_succ_cons, List.drop_succ_cons]
      cases s with
      | nil => rfl
      | cons d s => rw [ih (List.cons_ne_nil d s)]

/-- Lines that fit the buffer are read one by one. -/
theorem fgetsAll_fileLines {room : ℕ} {s : Bytes}
    (hshort : ∀ l ∈ fileLines s, l.length ≤ room + 1) : fgetsAll room s = fileLines s := by
  fun_induction fgetsAll room s with
  | case1 => rfl
  | case2 c t r ih =>
    have hfirst := fileLines_first (List.cons_ne_nil c t)
    rw [hfirst] at hshort ⊢
    have hlen := hshort _ (List.mem_cons_self ..)
    rw [List.length_take, Nat.min_eq_left (lineLength_le _)] at hlen
    have hr : r = ((c :: t).take (lineLength (c :: t)), (c :: t).drop (lineLength (c :: t))) := by
      simp only [r, fgets_eq, Nat.min_eq_right hlen]
    rw [hr] at ih ⊢
    exact congrArg _ (ih fun l hl => hshort l (List.mem_cons_of_mem _ hl))

/-- Nothing, or text whose last line has its newline. -/
def WholeLines (s : Bytes) : Prop := s = [] ∨ s.getLast? = some newline

theorem fileLines_ne_nil {s : Bytes} (hs : s ≠ []) : fileLines s ≠ [] := by
  rw [fileLines_first hs]
  exact List.cons_ne_nil _ _

theorem fileLines_append {a : Bytes} (ha : WholeLines a) (b : Bytes) :
    fileLines (a ++ b) = fileLines a ++ fileLines b := by
  induction a with
  | nil => rfl
  | cons c a ih =>
    have hrest : WholeLines a := by
      rcases ha with ha | ha
      · cases ha
      · cases a with
        | nil => exact Or.inl rfl
        | cons d a => exact Or.inr (by rwa [List.getLast?_cons_cons] at ha)
    by_cases hc : c = newline
    · simp only [List.cons_append, fileLines, hc, if_true, ih hrest]
    · have hne : a ≠ [] := by
        rintro rfl
        rcases ha with ha | ha
        · cases ha
        · exact hc (Option.some.inj ha)
      obtain ⟨l, ls, hl⟩ := List.exists_cons_of_ne_nil (fileLines_ne_nil hne)
      simp only [List.cons_append, fileLines, hc, if_false, ih hrest, hl]

/-- A line of a file: a newline at its end and nowhere else. -/
def IsLine (l : Bytes) : Prop := ∃ body, newline ∉ body ∧ l = body ++ [newline]

theorem fileLines_line {l : Bytes} (h : IsLine l) : fileLines l = [l] := by
  obtain ⟨body, hbody, rfl⟩ := h
  induction body with
  | nil => simp [fileLines]
  | cons c body ih =>
    rw [List.mem_cons, not_or] at hbody
    simp only [List.cons_append, fileLines, Ne.symm hbody.1, if_false, ih hbody.2]

theorem fileLines_flatten {ls : List Bytes} (h : ∀ l ∈ ls, IsLine l) : fileLines ls.flatten = ls := by
  induction ls with
  | nil => rfl
  | cons l ls ih =>
    have hl := h l (List.mem_cons_self ..)
    have hwhole : WholeLines l := by
      obtain ⟨body, -, rfl⟩ := hl
      exact Or.inr (by simp)
    rw [List.flatten_cons, fileLines_append hwhole, fileLines_line hl,
      ih fun l hl => h l (List.mem_cons_of_mem _ hl)]
    rfl

end CText
