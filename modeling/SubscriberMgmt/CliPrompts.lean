import SubscriberMgmt.CliInput
import SubscriberMgmt.Lib.FileLines

/-!
# One line for each prompt (`main.c:97-150`)

`read_line` drains the rest of a line when the text that it keeps fills the buffer.
A carriage return or a NUL in a longer line makes the text shorter than that.
-/

namespace SubscriberMgmt
open CText

/-- `(int)len`; 0 when it is negative, as `fgets` then reads nothing. -/
def intSize (len : ℕ) : ℕ := if len % 2 ^ 32 < 2 ^ 31 then len % 2 ^ 32 else 0

/-- `read_line(buf, len)` for every `size_t`, with the conversion of `len`. -/
def readLineSized (len : ℕ) (stdin : Str) : Str × Str :=
  match stdin with
  | [] => ([], [])
  | _ =>
    let r := fgets (intSize len - 1) stdin
    let buf := (cString r.1).takeWhile fun c => c != carriageReturn && c != newline
    if buf.length = len - 1 then (buf, drainLine r.2) else (buf, r.2)

theorem intSize_eq {len : ℕ} (h : len < 2 ^ 31) : intSize len = len := by
  have hmod : len % 2 ^ 32 = len := Nat.mod_eq_of_lt (by omega)
  rw [intSize, hmod, if_pos h]

theorem intSize_le (len : ℕ) : intSize len ≤ len := by
  unfold intSize
  split
  · exact Nat.mod_le len _
  · exact Nat.zero_le len

/-- The buffers of the program are far below the sizes where the conversion matters. -/
theorem readLineSized_eq {len : ℕ} (h : len < 2 ^ 31) (stdin : Str) :
    readLineSized len stdin = readLineFrom len stdin := by
  unfold readLineSized
  rw [intSize_eq h]
  cases stdin <;> rfl

/-! ### One call -/

/-- What the next line should give: its first `len - 1` bytes at most, cut at the first
carriage return. -/
def answer (len : ℕ) (stdin : Str) : Str :=
  ((typedLine stdin).take (len - 1)).takeWhile (· != carriageReturn)

theorem answer_plain {len : ℕ} {stdin : Str}
    (h : carriageReturn ∉ (typedLine stdin).take (len - 1)) :
    answer len stdin = (typedLine stdin).take (len - 1) := by
  rw [answer, List.takeWhile_eq_self_iff]
  intro c hc
  rw [bne_iff_ne]
  rintro rfl
  exact h hc

/-- No NUL is kept, and the line fits the buffer with its newline or has no carriage
return in the part that fits. -/
def ReadWhole (len : ℕ) (stdin : Str) : Prop :=
  0 ∉ answer len stdin ∧ (lineLength stdin ≤ intSize len - 1 ∨
    intSize len = len ∧ carriageReturn ∉ (typedLine stdin).take (len - 1))

def kept (line : Str) : Str := line.takeWhile fun c => c != 0 && c != carriageReturn

theorem kept_eq_iff (line : Str) :
    kept line = line.takeWhile (· != carriageReturn) ↔
      0 ∉ line.takeWhile (· != carriageReturn) := by
  have hkept : kept line = (line.takeWhile (· != carriageReturn)).takeWhile (· != 0) := by
    rw [List.takeWhile_takeWhile, kept]
    refine congrArg (fun q => List.takeWhile q line) ?_
    funext c
    grind
  rw [hkept, List.takeWhile_eq_self_iff]
  constructor
  · intro h hzero
    exact absurd (h 0 hzero) (by decide)
  · intro h c hc
    exact bne_iff_ne.mpr fun hz => h (hz ▸ hc)

theorem kept_eq_self_iff (line : Str) :
    kept line = line ↔ 0 ∉ line ∧ carriageReturn ∉ line := by
  rw [kept, List.takeWhile_eq_self_iff]
  constructor
  · intro h
    exact ⟨fun hc => absurd (h _ hc) (by decide), fun hc => absurd (h _ hc) (by decide)⟩
  · intro h c hc
    rw [Bool.and_eq_true, bne_iff_ne, bne_iff_ne]
    exact ⟨fun hz => h.1 (hz ▸ hc), fun hz => h.2 (hz ▸ hc)⟩

theorem kept_length_le (line : Str) : (kept line).length ≤ line.length :=
  (List.takeWhile_prefix _).length_le

theorem kept_full_iff (line : Str) : (kept line).length = line.length ↔ kept line = line :=
  ⟨(List.takeWhile_prefix _).eq_of_length, congrArg List.length⟩

theorem newline_notMem_typedLine (stdin : Str) : newline ∉ typedLine stdin := fun h =>
  absurd (List.mem_takeWhile_imp (p := (· != newline)) h) (by decide)

theorem drainLine_eq (stdin : Str) : drainLine stdin = stdin.drop (lineLength stdin) :=
  drop_lineLength stdin

theorem drainLine_append {part : Str} (h : newline ∉ part) (rest : Str) :
    drainLine (part ++ rest) = drainLine rest := by
  have hpart : ∀ c ∈ part, (c != newline) = true := fun c hc => by
    rw [bne_iff_ne]
    rintro rfl
    exact h hc
  rw [drainLine, List.dropWhile_append_of_pos hpart, drainLine]

theorem typedLine_length (stdin : Str) :
    (typedLine stdin).length = lineLength stdin ∧ lineLength stdin = stdin.length ∨
      (typedLine stdin).length + 1 = lineLength stdin := by
  have hle := lineLength_le stdin
  obtain ⟨htake, hlen⟩ | htake := take_lineLength stdin
  · refine Or.inl ⟨?_, hlen⟩
    rw [typedLine, ← htake, List.length_take, Nat.min_eq_left hle]
  · have hlength := congrArg List.length htake
    rw [List.length_take, Nat.min_eq_left hle, List.length_append] at hlength
    exact Or.inr hlength.symm

theorem take_typedLine {room : ℕ} {stdin : Str} (h : room ≤ (typedLine stdin).length) :
    (typedLine stdin).take room = stdin.take room := by
  have hprefix : typedLine stdin <+: stdin := List.takeWhile_prefix _
  rw [List.prefix_iff_eq_take.mp hprefix, List.take_take, Nat.min_eq_left h]

theorem readLineSized_read {len : ℕ} (hlen : 2 ≤ len) (stdin : Str) :
    readLineSized len stdin =
      let buf := kept ((typedLine stdin).take (intSize len - 1))
      let rest := stdin.drop (min (intSize len - 1) (lineLength stdin))
      (buf, if buf.length = len - 1 then drainLine rest else rest) := by
  have hbuf : ∀ s, ((cString (fgets (intSize len - 1) s).1).takeWhile fun c =>
      c != carriageReturn && c != newline) = kept ((typedLine s).take (intSize len - 1)) := by
    intro s
    have hline : ∀ c ∈ (typedLine s).take (intSize len - 1), (c != newline) = true := fun c hc =>
      bne_iff_ne.mpr fun hn => newline_notMem_typedLine s (hn ▸ List.mem_of_mem_take hc)
    rw [cString, List.takeWhile_takeWhile, fgets_takeWhile _ s _ (by decide), kept,
      ← List.takeWhile_eq_self_iff.mpr hline, List.takeWhile_takeWhile]
    refine congrArg (fun q => List.takeWhile q ((typedLine s).take (intSize len - 1))) ?_
    funext c
    grind
  cases stdin with
  | nil =>
    have hempty : kept ((typedLine []).take (intSize len - 1)) = [] := by
      rw [show typedLine [] = [] from rfl, List.take_nil]
      rfl
    rw [hempty, List.drop_nil]
    show ([], []) = ([], if 0 = len - 1 then drainLine [] else [])
    rw [if_neg (by omega)]
  | cons c s =>
    have hrest := congrArg Prod.snd (fgets_eq (intSize len - 1) (c :: s))
    dsimp only at hrest
    unfold readLineSized
    dsimp only
    rw [hbuf, hrest]
    split <;> rfl

/-- A call takes the next line and keeps the right part of it exactly when the line is
read whole. -/
theorem readLineSized_iff {len : ℕ} (hlen : 2 ≤ len) (stdin : Str) :
    readLineSized len stdin = (answer len stdin, drainLine stdin) ↔ ReadWhole len stdin := by
  have hsize := intSize_le len
  have hline := typedLine_length stdin
  have hraw := lineLength_le stdin
  rw [readLineSized_read hlen, ReadWhole, drainLine_eq stdin]
  dsimp only
  generalize hroom : intSize len - 1 = room
  rcases Nat.lt_or_ge room (lineLength stdin) with hlong | hshort
  · -- the line does not fit
    rw [Nat.min_eq_left (Nat.le_of_lt hlong)]
    have htake : ((typedLine stdin).take room).length = room :=
      List.length_take_of_le (by omega)
    by_cases hfull : (kept ((typedLine stdin).take room)).length = len - 1
    · have hle := kept_length_le ((typedLine stdin).take room)
      have hlen' : room = len - 1 := by omega
      have hall : kept ((typedLine stdin).take room) = (typedLine stdin).take room :=
        (kept_full_iff _).mp (by omega)
      obtain ⟨hzero, hcr⟩ := (kept_eq_self_iff _).mp hall
      have hanswer : answer len stdin = (typedLine stdin).take room :=
        hlen' ▸ answer_plain (hlen' ▸ hcr)
      have hdrain : drainLine (stdin.drop room) = stdin.drop (lineLength stdin) := by
        have hpart : newline ∉ stdin.take room := by
          rw [← take_typedLine (by omega)]
          exact fun hn => newline_notMem_typedLine stdin (List.mem_of_mem_take hn)
        rw [← drainLine_append hpart, List.take_append_drop, drainLine_eq]
      rw [if_pos hfull, hall, hanswer, hdrain]
      exact iff_of_true rfl ⟨hzero, Or.inr ⟨by omega, hlen' ▸ hcr⟩⟩
    · rw [if_neg hfull]
      refine iff_of_false (fun h => ?_) ?_
      · have hrest := congrArg (fun r : Str × Str => r.2.length) h
        simp only [List.length_drop] at hrest
        omega
      · rintro ⟨hzero, hfits | ⟨hint, hcr⟩⟩
        · omega
        · -- the part that fits is kept as a whole, and fills the buffer
          have hlen' : room = len - 1 := by omega
          rw [answer_plain hcr, ← hlen'] at hzero
          rw [← hlen'] at hcr
          rw [(kept_eq_self_iff _).mpr ⟨hzero, hcr⟩, htake] at hfull
          exact hfull hlen'
  · -- the line fits
    rw [Nat.min_eq_right hshort, List.take_of_length_le (show (typedLine stdin).length ≤ room by
      omega)]
    have hrest : (if (kept (typedLine stdin)).length = len - 1 then
        drainLine (stdin.drop (lineLength stdin)) else stdin.drop (lineLength stdin)) =
          stdin.drop (lineLength stdin) := by
      split
      case isTrue hfull =>
        have hle := kept_length_le (typedLine stdin)
        rw [List.drop_eq_nil_of_le (show stdin.length ≤ lineLength stdin by omega)]
        rfl
      case isFalse => rfl
    have hanswer : answer len stdin = (typedLine stdin).takeWhile (· != carriageReturn) := by
      rw [answer, List.take_of_length_le (by omega)]
    rw [hrest, hanswer, Prod.mk.injEq, kept_eq_iff]
    exact ⟨fun h => ⟨h.1, Or.inl hshort⟩, fun h => ⟨h.1, rfl⟩⟩

/-! ### Calls one after the other -/

def readLines : List ℕ → Str → List Str × Str
  | [], stdin => ([], stdin)
  | len :: lens, stdin =>
    let r := readLineSized len stdin
    let rs := readLines lens r.2
    (r.1 :: rs.1, rs.2)

/-- The input from its `i`-th line on. -/
def fromLine (i : ℕ) (stdin : Str) : Str := drainLine^[i] stdin

/-- Each call takes the line of its number and delivers the right part of it. -/
def OneLinePerCall (lens : List ℕ) (stdin : Str) : Prop :=
  ∀ i len, lens[i]? = some len →
    (readLines lens stdin).1[i]? = some (answer len (fromLine i stdin)) ∧
      (readLines (lens.take (i + 1)) stdin).2 = fromLine (i + 1) stdin

theorem oneLinePerCall_cons (len : ℕ) (lens : List ℕ) (stdin : Str) :
    OneLinePerCall (len :: lens) stdin ↔
      readLineSized len stdin = (answer len stdin, drainLine stdin) ∧
        OneLinePerCall lens (drainLine stdin) := by
  constructor
  · intro h
    obtain ⟨hfirst, hleft⟩ := h 0 len rfl
    have hcall : readLineSized len stdin = (answer len stdin, drainLine stdin) :=
      Prod.ext (Option.some.inj hfirst) hleft
    refine ⟨hcall, fun i l hl => ?_⟩
    have hnext := h (i + 1) l hl
    simp only [readLines, hcall, List.take_succ_cons, List.getElem?_cons_succ] at hnext
    exact hnext
  · rintro ⟨hcall, h⟩ i l hl
    cases i with
    | zero =>
      rw [List.getElem?_cons_zero, Option.some.injEq] at hl
      subst hl
      simp only [readLines, hcall, List.take_succ_cons, List.take_zero, List.getElem?_cons_zero]
      exact ⟨rfl, rfl⟩
    | succ i =>
      simp only [readLines, hcall, List.take_succ_cons, List.getElem?_cons_succ]
      exact h i l hl

/-- Each call gets a line of its own exactly when each line is read whole by its call. -/
theorem one_line_per_call_iff (lens : List ℕ) (hlens : ∀ len ∈ lens, 2 ≤ len) (stdin : Str) :
    OneLinePerCall lens stdin ↔
      ∀ i len, lens[i]? = some len → ReadWhole len (fromLine i stdin) := by
  induction lens generalizing stdin with
  | nil => exact iff_of_true (fun i len h => by cases h) fun i len h => by cases h
  | cons len lens ih =>
    rw [oneLinePerCall_cons, readLineSized_iff (hlens len (List.mem_cons_self ..)),
      ih fun l hl => hlens l (List.mem_cons_of_mem _ hl)]
    constructor
    · rintro ⟨hwhole, hrest⟩ i l hl
      cases i with
      | zero =>
        rw [List.getElem?_cons_zero, Option.some.injEq] at hl
        exact hl ▸ hwhole
      | succ i => exact hrest i l hl
    · exact fun h => ⟨h 0 len rfl, fun i l hl => h (i + 1) l hl⟩

/-- Three answers, the second of them too long for its buffer. -/
theorem one_line_per_call_three :
    (∀ len ∈ [8, 8, 8], 2 ≤ len) ∧
      OneLinePerCall [8, 8, 8] (lit "1\nsubscribers\n2\r\n") := by
  refine ⟨by decide, (one_line_per_call_iff [8, 8, 8] (by decide) _).mpr fun i len hl => ?_⟩
  match i, hl with
  | 0, hl =>
    cases hl
    exact ⟨by decide, Or.inl (by decide)⟩
  | 1, hl =>
    cases hl
    exact ⟨by decide, Or.inr ⟨intSize_eq (by decide), by decide⟩⟩
  | 2, hl =>
    cases hl
    exact ⟨by decide, Or.inl (by decide)⟩

/-- A carriage return and 29 more bytes: the next prompt gets the 9 behind them. So does
it get an empty line when 30 digits end with a carriage return and a newline. -/
theorem answer_leaks :
    (readLines [32, 32] (lit "1\r" ++ List.replicate 29 120 ++ lit "9\n2\n")).1 =
        [lit "1", lit "9"] ∧
      ¬ OneLinePerCall [32, 32] (lit "1\r" ++ List.replicate 29 120 ++ lit "9\n2\n") ∧
      (readLines [32, 32] (List.replicate 30 49 ++ lit "\r\n2\n")).1 =
        [List.replicate 30 49, []] := by
  have hleak : (readLines [32, 32] (lit "1\r" ++ List.replicate 29 120 ++ lit "9\n2\n")).1 =
      [lit "1", lit "9"] := rfl
  refine ⟨hleak, fun h => ?_, rfl⟩
  have hsecond := (h 1 32 rfl).1
  rw [hleak] at hsecond
  exact absurd hsecond (by decide)

end SubscriberMgmt
