import SubscriberMgmt.CliLogs
import SubscriberMgmt.Logger

/-!
# What the log keeps (`logger.c:54-147`)

As long as flushes succeed, the lines of a run stand in the renamed file, in the
current one and on stderr in the order of the calls, none of them split. A renamed
file replaces the one that was renamed before it.
-/

namespace SubscriberMgmt
open CText Machine

/-! ### A stream with nothing to write -/

theorem flush_idle {f : OutStream Str} {c : Str} (hpending : f.pending = [])
    (hfile : f.disk.files f.path = some c) (o : WriteOutcome) :
    (f.flush o).2.disk.files = f.disk.files ∧ (f.flush o).2.pending = [] := by
  constructor
  · funext p
    by_cases hp : p = f.path
    · subst hp
      rw [OutStream.flush_empty hpending hfile, hfile]
    · exact OutStream.flush_files hp o
  · unfold OutStream.flush
    split <;> simp [OutStream.drain, hpending]

/-- `fflush` and `fclose` of a stream with nothing to write. -/
theorem close_idle {f : OutStream Str} {c : Str} (hpending : f.pending = [])
    (hfile : f.disk.files f.path = some c) (flush close : WriteOutcome) :
    ((f.flush flush).2.flush close).2.disk.files = f.disk.files := by
  obtain ⟨hflush, hpending'⟩ := flush_idle hpending hfile flush
  have hfile' : (f.flush flush).2.disk.files (f.flush flush).2.path = some c := by
    rw [hflush, OutStream.flush_path]
    exact hfile
  exact (flush_idle hpending' hfile' close).1.trans hflush

theorem logBackupPath_ne (path : Str) : logBackupPath path ≠ path := by
  intro h
  have hlen := congrArg List.length h
  rw [logBackupPath, List.length_append] at hlen
  exact absurd hlen (by simp [lit])

/-- Whether `maybe_rotate` comes to its `rename`. -/
def Logger.rotationDue (s : Logger) (io : RotateIo) : Bool :=
  s.gFp.isSome && decide (s.gRotateMax ≠ 0 ∧ s.gPath.chars ≠ []) &&
    io.ftell.any fun pos => decide (s.gRotateMax ≤ pos)

theorem maybeRotate_cases (s : Logger) (io : RotateIo) :
    (s.rotationDue io = false ∧ maybeRotate s io = s) ∨
      (s.rotationDue io = true ∧ ∃ f, s.gFp = some f ∧ maybeRotate s io = s.rotate f io) := by
  unfold maybeRotate Logger.rotationDue
  cases hf : s.gFp with
  | none => exact Or.inl ⟨rfl, rfl⟩
  | some f =>
    dsimp only
    split
    case isTrue hoff =>
      have hset : ¬(s.gRotateMax ≠ 0 ∧ s.gPath.chars ≠ []) := by tauto
      exact Or.inl ⟨by simp [hset], rfl⟩
    case isFalse hon =>
      cases hpos : io.ftell with
      | none => exact Or.inl ⟨by simp, rfl⟩
      | some pos =>
        dsimp only
        split
        case isTrue hbelow => exact Or.inl ⟨by simp [hbelow], rfl⟩
        case isFalse habove =>
          have hset : s.gRotateMax ≠ 0 ∧ s.gPath.chars ≠ [] := by tauto
          exact Or.inr ⟨by simp [hset, Nat.le_of_not_lt habove], f, rfl, rfl⟩

/-- Whether a call renames the file away. -/
def LogOp.rotates (s : Logger) (op : LogOp) : Bool :=
  op.emits s.gMinLevel && s.rotationDue op.io.rotate && op.io.rotate.renameOk

def rotations (s : Logger) : List LogOp → ℕ
  | [] => 0
  | op :: ops => (if op.rotates s then 1 else 0) + rotations (loggerStep s op).1 ops

/-- Whether a call of the run renames the file away, and the calls from the last such one on. -/
def sinceRotation (s : Logger) : List LogOp → Bool × List LogOp
  | [] => (false, [])
  | op :: ops =>
    match sinceRotation (loggerStep s op).1 ops with
    | (true, since) => (true, since)
    | (false, since) => (op.rotates s, op :: since)

/-! ### The files and the lines -/

/-- The log is the lines of `segs`, each renamed away in its turn, then those of the current
file, then those on stderr. -/
structure Kept (path : Str) (backup : Option Str) (err : Str) (segs : List (List Str))
    (cur aside : List Str) (s : Logger) : Prop where
  gPath : s.gPath.chars = path
  opened : ∀ f, s.gFp = some f →
    f = ⟨path, []⟩ ∧ s.disk.files path = some cur.flatten ∧ aside = []
  closed : s.gFp = none → (s.disk.files path).getD [] = cur.flatten
  backup : s.disk.files (logBackupPath path) = (segs.getLast?.map List.flatten).or backup
  stderr : s.stderr = err ++ aside.flatten

namespace Kept

variable {path : Str} {backup : Option Str} {err : Str} {segs : List (List Str)}
  {cur aside : List Str} {s : Logger}

theorem file (h : Kept path backup err segs cur aside s) :
    (s.disk.files path).getD [] = cur.flatten := by
  cases hfp : s.gFp with
  | none => exact h.closed hfp
  | some f =>
    rw [(h.opened f hfp).2.1]
    rfl

/-- The state after the `fopen` of a rotation. -/
theorem reopen (hs : s.gPath.chars = path) {disk : Disk Str} (openOk : Bool)
    (hfile : (disk.files path).getD [] = cur.flatten)
    (hbackup : disk.files (logBackupPath path) = (segs.getLast?.map List.flatten).or backup)
    (hstderr : s.stderr = err) :
    Kept path backup err segs cur [] { s with
      gFp := (openAppend disk openOk path).1
      disk := (openAppend disk openOk path).2 } := by
  have hstderr' : s.stderr = err ++ ([] : List Str).flatten := by
    rw [hstderr, List.flatten_nil, List.append_nil]
  unfold openAppend
  cases openOk with
  | false => exact ⟨hs, fun f hf => (by cases hf), fun _ => hfile, hbackup, hstderr'⟩
  | true =>
    refine ⟨hs, fun f hf => ?_, fun hf => (by cases hf), ?_, hstderr'⟩
    · obtain rfl := Option.some.inj hf
      refine ⟨rfl, ?_, rfl⟩
      cases hd : disk.files path with
      | some c =>
        rw [hd] at hfile
        simpa [hd] using hfile
      | none =>
        rw [hd] at hfile
        simpa [hd, Disk.set] using hfile.symm
    · cases hd : disk.files path with
      | some c => simpa [hd] using hbackup
      | none =>
        simp only [if_true, Disk.set]
        rw [Function.update_of_ne (logBackupPath_ne path)]
        exact hbackup

/-- A rotation. -/
theorem rotate (h : Kept path backup err segs cur aside s) {f : LogFile} (hf : s.gFp = some f)
    (io : RotateIo) :
    (io.renameOk = true → Kept path backup err (segs ++ [cur]) [] [] (s.rotate f io)) ∧
      (io.renameOk = false → Kept path backup err segs cur [] (s.rotate f io)) := by
  obtain ⟨rfl, hfile, rfl⟩ := h.opened f hf
  let stream := LogFile.stream ⟨path, []⟩ s.disk
  have hstderr : s.stderr = err := by
    rw [h.stderr, List.flatten_nil, List.append_nil]
  let disk := ((stream.flush io.flush).2.flush io.close).2.disk
  have hdisk : disk.files = s.disk.files := close_idle (f := stream) rfl hfile io.flush io.close
  have hrotate : s.rotate ⟨path, []⟩ io = { s with
      gFp := (openAppend (disk.rename io.renameOk path (logBackupPath path)).2 io.openOk path).1
      disk := (openAppend (disk.rename io.renameOk path (logBackupPath path)).2 io.openOk
        path).2 } := by
    rw [Logger.rotate, h.gPath]
  rw [hrotate]
  constructor
  · intro hok
    have hrenamed : (disk.rename io.renameOk path (logBackupPath path)).2.files =
        Function.update (Function.update s.disk.files path none) (logBackupPath path)
          (some cur.flatten) := by
      simp only [Disk.rename, hdisk, hfile, hok, if_true]
    refine reopen h.gPath io.openOk ?_ ?_ hstderr
    · rw [hrenamed, Function.update_of_ne (logBackupPath_ne path).symm, Function.update_self]
      rfl
    · rw [hrenamed, Function.update_self]
      simp
  · intro hok
    have hrenamed : (disk.rename io.renameOk path (logBackupPath path)).2.files =
        s.disk.files := by
      simp only [Disk.rename, hdisk, hfile, hok, Bool.false_eq_true, if_false]
    refine reopen h.gPath io.openOk ?_ ?_ hstderr
    · rw [hrenamed, hfile]
      rfl
    · rw [hrenamed]
      exact h.backup

/-- A line is added to the current file, or after the others on stderr. -/
theorem emit (h : Kept path backup err segs cur aside s) (line : Str) {io : LogIo}
    (hflush : io.flush.ok = true) :
    ∃ cur' aside', Kept path backup err segs cur' aside' (s.emit line io) ∧
      cur' ++ aside' = cur ++ aside ++ [line] := by
  cases hf : s.gFp with
  | none =>
    have hemit : s.emit line io = { s with stderr := s.stderr ++ line } := by
      simp only [Logger.emit, hf]
    rw [hemit]
    refine ⟨cur, aside ++ [line], ⟨h.gPath, fun f hf' => ?_, fun _ => h.closed hf, h.backup, ?_⟩,
      (List.append_assoc ..).symm⟩
    · exact absurd (hf.symm.trans hf') (by simp)
    · simp [h.stderr]
  | some f =>
    obtain ⟨rfl, hfile, rfl⟩ := h.opened f hf
    let written := ((LogFile.stream ⟨path, []⟩ s.disk).write io.write line).2
    have hemit : s.emit line io = s.setStream (written.flush io.flush).2 := by
      simp only [Logger.emit, hf, written]
    have htext : written.text = (cur ++ [line]).flatten := by
      rw [OutStream.write_text]
      simp [OutStream.text, LogFile.stream, hfile]
    obtain ⟨hwrite, hpending⟩ := OutStream.flush_file (f := written) hflush
    have hpath : (written.flush io.flush).2.path = path := OutStream.flush_path written io.flush
    rw [hemit]
    refine ⟨cur ++ [line], [], ⟨h.gPath, fun f hf' => ?_, fun hf' => (by cases hf'), ?_, h.stderr⟩,
      by simp⟩
    · obtain rfl := Option.some.inj hf'
      rw [hpath, hpending]
      exact ⟨rfl, hwrite.trans (congrArg some htext), rfl⟩
    · have hother : (written.flush io.flush).2.disk.files (logBackupPath path) =
          s.disk.files (logBackupPath path) :=
        (OutStream.flush_files (logBackupPath_ne path) io.flush).trans
          (OutStream.write_files (f := LogFile.stream ⟨path, []⟩ s.disk) (logBackupPath_ne path)
            io.write line)
      exact hother.trans h.backup

/-- One call: at most one rotation, then its line. -/
theorem step (h : Kept path backup err segs cur aside s) (op : LogOp)
    (hflush : op.io.flush.ok = true) :
    ∃ segs' cur' aside', Kept path backup err segs' cur' aside' (loggerStep s op).1 ∧
      segs'.flatten ++ (cur' ++ aside') = segs.flatten ++ (cur ++ aside) ++ (loggerStep s op).2 ∧
      segs'.length = segs.length + (if op.rotates s then 1 else 0) ∧
      cur' ++ aside' = (if op.rotates s then [] else cur ++ aside) ++ (loggerStep s op).2 := by
  unfold loggerStep loggerLog LogOp.rotates LogOp.emits
  by_cases hlevel : op.call.level.value < s.gMinLevel.value
  · exact ⟨segs, cur, aside, by simpa [hlevel] using h, by simp [hlevel], by simp [hlevel],
      by simp [hlevel]⟩
  cases hlock : op.io.lockOk with
  | false =>
    exact ⟨segs, cur, aside, by simpa [hlevel] using h, by simp, by simp, by simp⟩
  | true =>
    have hrotated : ∃ segs' cur' aside', Kept path backup err segs' cur' aside'
        (maybeRotate s op.io.rotate) ∧
        segs'.flatten ++ (cur' ++ aside') = segs.flatten ++ (cur ++ aside) ∧
        segs'.length = segs.length +
          (if s.rotationDue op.io.rotate && op.io.rotate.renameOk then 1 else 0) ∧
        cur' ++ aside' =
          if s.rotationDue op.io.rotate && op.io.rotate.renameOk then [] else cur ++ aside := by
      rcases maybeRotate_cases s op.io.rotate with ⟨hdue, heq⟩ | ⟨hdue, f, hf, heq⟩
      · rw [heq, hdue]
        exact ⟨segs, cur, aside, h, rfl, rfl, rfl⟩
      · rw [heq, hdue]
        obtain ⟨-, -, rfl⟩ := h.opened f hf
        cases hok : op.io.rotate.renameOk with
        | true => exact ⟨_, _, _, (h.rotate hf _).1 hok, by simp, by simp, rfl⟩
        | false => exact ⟨_, _, _, (h.rotate hf _).2 hok, rfl, rfl, rfl⟩
    obtain ⟨segs', cur', aside', hkept, htext, hlen, hcur⟩ := hrotated
    obtain ⟨cur'', aside'', hemitted, hline⟩ := hkept.emit op.call.lineText hflush
    refine ⟨segs', cur'', aside'', by simpa [hlevel] using hemitted, ?_, ?_, ?_⟩
    · rw [hline, ← List.append_assoc, htext]
      simp [hlevel]
    · rw [hlen]
      simp [hlevel]
    · rw [hline, hcur]
      simp [hlevel]

/-- Nothing is pending when the stream is closed. -/
theorem shutdown (h : Kept path backup err segs cur aside s) (flush close : WriteOutcome) :
    (loggerShutdown s flush close).disk.files = s.disk.files := by
  unfold loggerShutdown
  cases hf : s.gFp with
  | none => rfl
  | some f =>
    obtain ⟨rfl, hfile, -⟩ := h.opened f hf
    exact close_idle (f := LogFile.stream ⟨path, []⟩ s.disk) rfl hfile flush close

theorem init {s₀ : Logger} (hpath : path.length ≤ 511) (minLevel : SmLogLevel) (max : ℕ) :
    Kept path (s₀.disk.files (logBackupPath path)) s₀.stderr []
      [(s₀.disk.files path).getD []] [] (loggerInit s₀ (some path) minLevel max true true).2 := by
  have hfile : (s₀.disk.files path).getD [] = [(s₀.disk.files path).getD []].flatten := by simp
  have hbackup : s₀.disk.files (logBackupPath path) =
      (([] : List (List Str)).getLast?.map List.flatten).or (s₀.disk.files (logBackupPath path)) :=
    rfl
  have hname : (CharField.copy 511 path).chars = path := CharField.copy_chars hpath
  exact Kept.reopen (s := { s₀ with
    gMinLevel := minLevel, gRotateMax := max, gPath := CharField.copy 511 path
    gInitialized := true }) hname true hfile hbackup rfl

end Kept

/-! ### What calls leave alone -/

theorem loggerLog_settings (s : Logger) (c : LogCall) (io : LogIo) :
    (loggerLog s c io).gMinLevel = s.gMinLevel ∧ (loggerLog s c io).gRotateMax = s.gRotateMax := by
  have hemit : ∀ (s : Logger) line, (s.emit line io).gMinLevel = s.gMinLevel ∧
      (s.emit line io).gRotateMax = s.gRotateMax := by
    intro s line
    unfold Logger.emit
    cases s.gFp <;> exact ⟨rfl, rfl⟩
  have hrotate : (maybeRotate s io.rotate).gMinLevel = s.gMinLevel ∧
      (maybeRotate s io.rotate).gRotateMax = s.gRotateMax := by
    rcases maybeRotate_cases s io.rotate with ⟨-, heq⟩ | ⟨-, f, -, heq⟩
    · rw [heq]
      exact ⟨rfl, rfl⟩
    · rw [heq]
      exact ⟨rfl, rfl⟩
  unfold loggerLog
  split
  · exact ⟨rfl, rfl⟩
  · split
    · exact ⟨rfl, rfl⟩
    · exact ⟨(hemit _ _).1.trans hrotate.1, (hemit _ _).2.trans hrotate.2⟩

theorem loggerStep_minLevel (s : Logger) (op : LogOp) :
    (loggerStep s op).1.gMinLevel = s.gMinLevel := (loggerLog_settings s op.call op.io).1

theorem emittedLines_cons (s : Logger) (op : LogOp) (ops : List LogOp) :
    emittedLines s.gMinLevel (op :: ops) = (loggerStep s op).2 ++ emittedLines s.gMinLevel ops := by
  cases hemits : op.emits s.gMinLevel <;> simp [loggerStep, emittedLines, hemits]

/-! ### Runs -/

def renames (ops : List LogOp) : ℕ := ops.countP fun op => op.io.rotate.renameOk

theorem rotations_le (s : Logger) (ops : List LogOp) : rotations s ops ≤ renames ops := by
  induction ops generalizing s with
  | nil => exact Nat.zero_le _
  | cons op ops ih =>
    have hop : (if op.rotates s then 1 else 0) ≤ if op.io.rotate.renameOk then 1 else 0 := by
      unfold LogOp.rotates
      cases op.io.rotate.renameOk <;> simp
      split <;> omega
    have hops := ih (loggerStep s op).1
    rw [rotations, renames, List.countP_cons, Nat.add_comm]
    exact Nat.add_le_add hops hop

/-- `sinceRotation` cuts a run before the last call that renames the file away. -/
theorem sinceRotation_split (s : Logger) (ops : List LogOp) :
    (sinceRotation s ops = (false, ops) ∧ rotations s ops = 0) ∨
      ∃ before op after, ops = before ++ op :: after ∧
        sinceRotation s ops = (true, op :: after) ∧ op.rotates (final loggerStep s before) = true ∧
        rotations (final loggerStep s (before ++ [op])) after = 0 := by
  induction ops generalizing s with
  | nil => exact Or.inl ⟨rfl, rfl⟩
  | cons first ops ih =>
    rcases ih (loggerStep s first).1 with
      ⟨hsince, hnone⟩ | ⟨before, op, after, rfl, hsince, hop, hnone⟩
    · have hsince' : sinceRotation s (first :: ops) = (first.rotates s, first :: ops) := by
        rw [sinceRotation, hsince]
      cases hfirst : first.rotates s with
      | false =>
        rw [hfirst] at hsince'
        exact Or.inl ⟨hsince', by simp [rotations, hfirst, hnone]⟩
      | true =>
        rw [hfirst] at hsince'
        exact Or.inr ⟨[], first, ops, rfl, hsince', hfirst, hnone⟩
    · exact Or.inr ⟨first :: before, op, after, rfl, by rw [sinceRotation, hsince], hop, hnone⟩

theorem sinceRotation_sub (s : Logger) (ops : List LogOp) {op : LogOp}
    (h : op ∈ (sinceRotation s ops).2) : op ∈ ops := by
  rcases sinceRotation_split s ops with ⟨hsince, -⟩ | ⟨before, first, after, rfl, hsince, -⟩
  · rwa [hsince] at h
  · rw [hsince] at h
    exact List.mem_append_right _ h

/-- A run: what it renames away, and what stands in the current file and on stderr after it. -/
theorem Kept.run {path : Str} {backup : Option Str} {err : Str} {segs : List (List Str)}
    {cur aside : List Str} {s : Logger} (h : Kept path backup err segs cur aside s)
    {ops : List LogOp} (hflush : ∀ op ∈ ops, op.io.flush.ok = true) :
    ∃ segs' cur' aside', Kept path backup err segs' cur' aside' (final loggerStep s ops) ∧
      segs'.flatten ++ (cur' ++ aside') =
        segs.flatten ++ (cur ++ aside) ++ emittedLines s.gMinLevel ops ∧
      segs'.length = segs.length + rotations s ops ∧
      cur' ++ aside' = (if (sinceRotation s ops).1 then [] else cur ++ aside) ++
        emittedLines s.gMinLevel (sinceRotation s ops).2 := by
  induction ops generalizing segs cur aside s with
  | nil =>
    exact ⟨segs, cur, aside, h, (List.append_nil _).symm, rfl, (List.append_nil _).symm⟩
  | cons op ops ih =>
    obtain ⟨segs₁, cur₁, aside₁, h₁, htext₁, hlen₁, hcur₁⟩ :=
      h.step op (hflush op (List.mem_cons_self ..))
    obtain ⟨segs₂, cur₂, aside₂, h₂, htext₂, hlen₂, hcur₂⟩ :=
      ih h₁ fun later hlater => hflush later (List.mem_cons_of_mem _ hlater)
    rw [loggerStep_minLevel] at htext₂ hcur₂
    refine ⟨segs₂, cur₂, aside₂, h₂, ?_, ?_, ?_⟩
    · rw [htext₂, htext₁, emittedLines_cons, List.append_assoc]
    · rw [hlen₂, hlen₁, rotations, Nat.add_assoc]
    · rw [hcur₂, sinceRotation]
      cases hsince : sinceRotation (loggerStep s op).1 ops with
      | mk rotated since =>
        cases rotated with
        | true => rfl
        | false =>
          -- no later call renames the file: what it holds starts with this one
          simp only [Bool.false_eq_true, if_false]
          rw [hcur₁, emittedLines_cons, List.append_assoc]

section Run

variable {path : Str} (s₀ : Logger) (minLevel : SmLogLevel) (max : ℕ) {ops : List LogOp}

theorem loggerRun_kept (hpath : path.length ≤ 511)
    (hflush : ∀ op ∈ ops, op.io.flush.ok = true) :
    let s := (loggerInit s₀ (some path) minLevel max true true).2
    ∃ segs cur aside, Kept path (s₀.disk.files (logBackupPath path)) s₀.stderr segs cur aside
        (final loggerStep s ops) ∧
      segs.flatten ++ (cur ++ aside) =
        (s₀.disk.files path).getD [] :: emittedLines minLevel ops ∧
      segs.length = rotations s ops ∧
      cur ++ aside = (if (sinceRotation s ops).1 then [] else [(s₀.disk.files path).getD []]) ++
        emittedLines minLevel (sinceRotation s ops).2 := by
  intro s
  have hinit : Kept path (s₀.disk.files (logBackupPath path)) s₀.stderr []
      [(s₀.disk.files path).getD []] [] s := Kept.init hpath minLevel max
  obtain ⟨segs, cur, aside, hkept, htext, hlen, hcur⟩ := hinit.run hflush
  exact ⟨segs, cur, aside, hkept, htext, hlen.trans (Nat.zero_add _), hcur⟩

/-- After a run whose flushes succeed: the old log and the lines of the calls, in their order
and none of them split, stand in the renamed files of the run, in the current file and on
stderr. `path.1` is the last renamed file, so that a second renaming drops the first.
`logger_shutdown` has nothing left to write. -/
theorem log_text_kept (hpath : path.length ≤ 511) (hflush : ∀ op ∈ ops, op.io.flush.ok = true) :
    let s := (loggerInit s₀ (some path) minLevel max true true).2
    ∃ segs : List (List Str), ∃ cur aside : List Str,
      segs.flatten ++ (cur ++ aside) =
          (s₀.disk.files path).getD [] :: emittedLines minLevel ops ∧
        ((final loggerStep s ops).disk.files path).getD [] = cur.flatten ∧
        (final loggerStep s ops).disk.files (logBackupPath path) =
          (segs.getLast?.map List.flatten).or (s₀.disk.files (logBackupPath path)) ∧
        (final loggerStep s ops).stderr = s₀.stderr ++ aside.flatten ∧
        (aside ≠ [] → (final loggerStep s ops).gFp = none) ∧ segs.length ≤ renames ops ∧
        segs.length = rotations s ops ∧
        ∀ flush close, (loggerShutdown (final loggerStep s ops) flush close).disk.files =
          (final loggerStep s ops).disk.files := by
  intro s
  obtain ⟨segs, cur, aside, hkept, htext, hlen, -⟩ :=
    loggerRun_kept s₀ minLevel max hpath hflush
  refine ⟨segs, cur, aside, htext, hkept.file, hkept.backup, hkept.stderr, fun haside => ?_,
    hlen.trans_le (rotations_le s ops), hlen, hkept.shutdown⟩
  cases hf : (final loggerStep s ops).gFp with
  | none => rfl
  | some f => exact absurd (hkept.opened f hf).2.2 haside

end Run

/-! ### A first line -/

def startingCall : LogCall :=
  ⟨.info, some (lit "main"), some (lit "main"), 645, lit "starting", some ⟨2024, 1, 2, 3, 4, 5⟩⟩

def startingOp (pos : ℕ) (renameOk : Bool) : LogOp :=
  ⟨startingCall, true, ⟨some pos, ⟨true, 0⟩, ⟨true, 0⟩, renameOk, true⟩, ⟨true, 0⟩, ⟨true, 0⟩⟩

theorem startingCall_body : startingCall.body =
    lit "2024-01-02 03:04:05 [INFO ] [tid=0] [main::main:645] starting" := by decide +kernel

def emptyLogger : Logger := Logger.start (Disk.start fun _ => none)

/-- The first line, and a second one for which the file of the first is renamed. -/
theorem log_text_kept_starting :
    let s := (loggerInit emptyLogger (some (lit "log")) .info 16 true true).2
    ∃ segs : List (List Str), ∃ cur aside : List Str, segs.flatten ++ (cur ++ aside) =
        [[], startingCall.lineText, startingCall.lineText] ∧
      ((final loggerStep s [startingOp 0 true, startingOp 62 true]).disk.files
        (lit "log")).getD [] = cur.flatten := by
  intro s
  obtain ⟨segs, cur, aside, htext, hfile, -⟩ := log_text_kept emptyLogger .info 16
    (show (lit "log").length ≤ 511 by decide)
    (show ∀ op ∈ [startingOp 0 true, startingOp 62 true], op.io.flush.ok = true by
      simp [startingOp])
  exact ⟨segs, cur, aside, htext, hfile⟩

/-! ### The size of the files -/

/-- A call for a line of at most `width` bytes on a disk that does not fail: `ftell` reports the
size of the file, and each step of a rotation succeeds. -/
structure Sound (path : Str) (width : ℕ) (s : Logger) (op : LogOp) : Prop where
  flush : op.io.flush.ok = true
  ftell : op.io.rotate.ftell = some ((s.disk.files path).getD []).length
  rename : op.io.rotate.renameOk = true
  reopen : op.io.rotate.openOk = true
  short : op.call.lineText.length ≤ width

/-- No file of the run has reached `max + width` bytes. -/
structure Sized (path : Str) (backup : Option Str) (err : Str) (max width : ℕ) (s : Logger) :
    Prop where
  limit : s.gRotateMax = max
  isOpen : s.gFp ≠ none
  kept : ∃ segs cur, Kept path backup err segs cur [] s ∧ cur.flatten.length < max + width ∧
    ∀ seg ∈ segs, max ≤ seg.flatten.length ∧ seg.flatten.length < max + width

theorem Logger.emit_open {s : Logger} (h : s.gFp ≠ none) (line : Str) (io : LogIo) :
    (s.emit line io).gFp ≠ none := by
  unfold Logger.emit
  cases hf : s.gFp with
  | none => exact absurd hf h
  | some f => exact Option.some_ne_none _

theorem Logger.rotate_open (s : Logger) (f : LogFile) {io : RotateIo} (hopen : io.openOk = true) :
    (s.rotate f io).gFp ≠ none := by
  simp [Logger.rotate, openAppend, hopen]

namespace Sized

variable {path : Str} {backup : Option Str} {err : Str} {max width : ℕ} {s : Logger}

/-- Before its line is written, the file is below the limit. -/
theorem rotated (h : Sized path backup err max width s) (hpath : path ≠ []) (hmax : 0 < max)
    {op : LogOp} (hop : Sound path width s op) :
    (maybeRotate s op.io.rotate).gFp ≠ none ∧
      ∃ segs cur, Kept path backup err segs cur [] (maybeRotate s op.io.rotate) ∧
        cur.flatten.length < max ∧
        ∀ seg ∈ segs, max ≤ seg.flatten.length ∧ seg.flatten.length < max + width := by
  obtain ⟨hlimit, hopen, segs, cur, hkept, hcur, hsegs⟩ := h
  obtain ⟨f, hf⟩ := Option.ne_none_iff_exists'.mp hopen
  have hsize : op.io.rotate.ftell = some cur.flatten.length := by rw [hop.ftell, hkept.file]
  have hset : ¬(s.gRotateMax = 0 ∨ s.gPath.chars = []) := by
    rw [hlimit, hkept.gPath]
    exact fun h => h.elim (by omega) hpath
  have hrotate : maybeRotate s op.io.rotate =
      if cur.flatten.length < max then s else s.rotate f op.io.rotate := by
    simp only [maybeRotate, hf]
    rw [if_neg hset]
    simp only [hsize, hlimit]
  rw [hrotate]
  split
  case isTrue hbelow => exact ⟨hopen, segs, cur, hkept, hbelow, hsegs⟩
  case isFalse habove =>
    refine ⟨Logger.rotate_open s f hop.reopen, segs ++ [cur], [],
      (hkept.rotate hf _).1 hop.rename, hmax, fun seg hseg => ?_⟩
    rcases List.mem_append.mp hseg with hseg | hseg
    · exact hsegs seg hseg
    · rw [List.mem_singleton.mp hseg]
      exact ⟨Nat.le_of_not_lt habove, hcur⟩

theorem step (h : Sized path backup err max width s) (hpath : path ≠ []) (hmax : 0 < max)
    {op : LogOp} (hop : Sound path width s op) :
    Sized path backup err max width (loggerStep s op).1 := by
  have hsettings := loggerLog_settings s op.call op.io
  suffices hrest : (loggerStep s op).1.gFp ≠ none ∧
      ∃ segs cur, Kept path backup err segs cur [] (loggerStep s op).1 ∧
        cur.flatten.length < max + width ∧
        ∀ seg ∈ segs, max ≤ seg.flatten.length ∧ seg.flatten.length < max + width from
    ⟨hsettings.2.trans h.limit, hrest.1, hrest.2⟩
  unfold loggerStep loggerLog
  by_cases hlevel : op.call.level.value < s.gMinLevel.value
  · simp only [hlevel, if_true]
    exact ⟨h.isOpen, h.kept⟩
  cases hlock : op.io.lockOk with
  | false =>
    simp only [hlevel, if_false, Bool.not_false, if_true]
    exact ⟨h.isOpen, h.kept⟩
  | true =>
    simp only [hlevel, if_false, Bool.not_true, Bool.false_eq_true]
    obtain ⟨hopen, segs, cur, hkept, hcur, hsegs⟩ := h.rotated hpath hmax hop
    obtain ⟨cur', aside', hemitted, hlines⟩ := hkept.emit op.call.lineText hop.flush
    have hopen' := Logger.emit_open hopen op.call.lineText op.io
    obtain ⟨f, hf⟩ := Option.ne_none_iff_exists'.mp hopen'
    obtain rfl := (hemitted.opened f hf).2.2
    refine ⟨hopen', segs, cur', hemitted, ?_, hsegs⟩
    rw [List.append_nil, List.append_nil] at hlines
    rw [hlines, List.flatten_append, List.length_append]
    simp only [List.flatten_cons, List.flatten_nil, List.append_nil]
    have hline := hop.short
    omega

end Sized

/-- On a disk that does not fail, with lines of at most `width` bytes, the current file stays below
`max + width` bytes; so does the renamed one, which had reached `max`. -/
theorem log_size_bounded {path : Str} (s₀ : Logger) (minLevel : SmLogLevel) {max width : ℕ}
    {ops : List LogOp} (hpath : path.length ≤ 511) (hne : path ≠ []) (hmax : 0 < max)
    (hold : ((s₀.disk.files path).getD []).length < max + width)
    (hsound : Along loggerStep (Sound path width)
      (loggerInit s₀ (some path) minLevel max true true).2 ops) :
    let s := final loggerStep (loggerInit s₀ (some path) minLevel max true true).2 ops
    ((s.disk.files path).getD []).length < max + width ∧
      (s.disk.files (logBackupPath path) = s₀.disk.files (logBackupPath path) ∨
        ∃ c, s.disk.files (logBackupPath path) = some c ∧ max ≤ c.length ∧
          c.length < max + width) := by
  intro s
  have hstart : Sized path (s₀.disk.files (logBackupPath path)) s₀.stderr max width
      (loggerInit s₀ (some path) minLevel max true true).2 := by
    refine ⟨rfl, Option.some_ne_none _, [], _, Kept.init hpath minLevel max, ?_, fun _ h => ?_⟩
    · simpa using hold
    · cases h
  have hrun : Sized path (s₀.disk.files (logBackupPath path)) s₀.stderr max width s :=
    hsound.invariant (fun _ _ h hop => h.step hne hmax hop) hstart
  obtain ⟨-, -, segs, cur, hkept, hcur, hsegs⟩ := hrun
  refine ⟨by rwa [hkept.file], ?_⟩
  rw [hkept.backup]
  cases hlast : segs.getLast? with
  | none => exact Or.inl rfl
  | some seg =>
    have hmem := List.mem_of_getLast? hlast
    exact Or.inr ⟨seg.flatten, rfl, hsegs seg hmem⟩

theorem log_size_bounded_starting :
    let s := final loggerStep (loggerInit emptyLogger (some (lit "log")) .info 16 true true).2
      [startingOp 0 true, startingOp 62 true]
    ((s.disk.files (lit "log")).getD []).length < 16 + 62 := by
  intro s
  have hlen : startingCall.lineText.length = 62 := by
    rw [LogCall.lineText, startingCall_body]
    rfl
  have hsecond : some 62 = some ([] ++ startingCall.lineText).length := congrArg some hlen.symm
  have hsound : Along loggerStep (Sound (lit "log") 62)
      (loggerInit emptyLogger (some (lit "log")) .info 16 true true).2
      [startingOp 0 true, startingOp 62 true] :=
    ⟨⟨rfl, rfl, rfl, rfl, hlen.le⟩, ⟨rfl, hsecond, rfl, rfl, hlen.le⟩, trivial⟩
  exact (log_size_bounded emptyLogger .info (by decide) (by decide) (by decide) (by decide)
    hsound).1

/-! ### What an administrator sees of the log -/

/-- A call whose line is one line for `action_view_logs`. -/
structure LogCall.Plain (c : LogCall) : Prop where
  newline : newline ∉ c.body
  nul : 0 ∉ c.body
  short : c.body.length + 1 < smMaxLineLen

theorem LogCall.Plain.line {c : LogCall} (h : c.Plain) :
    IsLine c.lineText ∧ 0 ∉ c.lineText ∧ c.lineText.length < smMaxLineLen := by
  refine ⟨⟨c.body, h.newline, rfl⟩, ?_, ?_⟩
  · rw [LogCall.lineText, List.mem_append, not_or]
    exact ⟨h.nul, by decide⟩
  · rw [LogCall.lineText, List.length_append]
    exact h.short

theorem emittedLines_plain (minLevel : SmLogLevel) {ops : List LogOp}
    (h : ∀ op ∈ ops, op.call.Plain) :
    ∀ l ∈ emittedLines minLevel ops, IsLine l ∧ 0 ∉ l ∧ l.length < smMaxLineLen := by
  intro l hl
  obtain ⟨op, hop, rfl⟩ := List.mem_map.mp hl
  exact (h op (List.mem_of_mem_filter hop)).line

/-- The lines of a file that starts with the old log, or with the first line of a call. -/
theorem fileLines_started {old : Str} (hold : WholeLines old) {lines : List Str}
    (hlines : ∀ l ∈ lines, IsLine l) (rotated : Bool) :
    fileLines ((if rotated then [] else [old]) ++ lines).flatten =
      (if rotated then [] else fileLines old) ++ lines := by
  cases rotated with
  | true => exact fileLines_flatten hlines
  | false =>
    rw [List.flatten_append]
    simp only [Bool.false_eq_true, if_false, List.flatten_singleton]
    rw [fileLines_append hold, fileLines_flatten hlines]

/-- `action_view_logs` on the file that the logger writes: it shows the last lines of those that
were logged since the last call that renamed the file away, that call included, or of all. -/
theorem view_logs_shows_logged {path : Str} (s₀ : Logger) (minLevel : SmLogLevel) (max : ℕ)
    {ops : List LogOp} {c : CliState} {token : Str} {user : AuthUser} (hpath : path.length ≤ 511)
    (hflush : ∀ op ∈ ops, op.io.flush.ok = true) (hplain : ∀ op ∈ ops, op.call.Plain)
    (hwhole : WholeLines ((s₀.disk.files path).getD []))
    (hold : ∀ l ∈ fileLines ((s₀.disk.files path).getD []), 0 ∉ l ∧ l.length < smMaxLineLen)
    (hallowed : (authorize token .viewLogs c).1 = .ok user)
    (hlog : (c.outside (c.tick + 1)).log = (final loggerStep
      (loggerInit s₀ (some path) minLevel max true true).2 ops).disk.files path)
    (hopen : (final loggerStep
      (loggerInit s₀ (some path) minLevel max true true).2 ops).gFp ≠ none) :
    let since := sinceRotation (loggerInit s₀ (some path) minLevel max true true).2 ops
    let shown := (if since.1 then [] else fileLines ((s₀.disk.files path).getD [])) ++
      emittedLines minLevel since.2
    (actionViewLogs token c).2.stdout =
      c.stdout ++ tailReport (shown.drop (shown.length - smLogTailLines)) := by
  intro since shown
  obtain ⟨segs, cur, aside, hkept, -, -, hcur⟩ := loggerRun_kept s₀ minLevel max hpath hflush
  obtain ⟨f, hf⟩ := Option.ne_none_iff_exists'.mp hopen
  obtain ⟨-, hfile, rfl⟩ := hkept.opened f hf
  rw [List.append_nil] at hcur
  have hsub : ∀ op ∈ since.2, op.call.Plain := fun op hop => hplain op (sinceRotation_sub _ ops hop)
  have hlines := emittedLines_plain minLevel hsub
  have hshown : fileLines cur.flatten = shown := by
    rw [hcur]
    exact fileLines_started hwhole (fun l hl => (hlines l hl).1) since.1
  have hall : ∀ l ∈ shown, 0 ∉ l ∧ l.length < smMaxLineLen := by
    intro l hl
    rcases List.mem_append.mp hl with hl | hl
    · split at hl
      · cases hl
      · exact hold l hl
    · exact (hlines l hl).2
  rw [← hshown] at hall
  rw [actionViewLogs_stdout hallowed (hlog.trans hfile) fun l hl => (hall l hl).2, ← hshown]
  congr 2
  refine (List.map_congr_left fun l hl => ?_).trans (List.map_id _)
  exact List.takeWhile_eq_self_iff.mpr fun b hb => bne_iff_ne.mpr fun hz =>
    (hall l (List.mem_of_mem_drop hl)).1 (hz ▸ hb)

/-! ### A log of two files -/

def stoppingCall : LogCall := ⟨.info, some (lit "main"), some (lit "main"), 678,
  lit "shutting down", some ⟨2024, 1, 2, 3, 4, 6⟩⟩

theorem stoppingCall_body : stoppingCall.body =
    lit "2024-01-02 03:04:06 [INFO ] [tid=0] [main::main:678] shutting down" := by decide +kernel

def stoppingOp (pos : ℕ) (renameOk : Bool) : LogOp :=
  ⟨stoppingCall, true, ⟨some pos, ⟨true, 0⟩, ⟨true, 0⟩, renameOk, true⟩, ⟨true, 0⟩, ⟨true, 0⟩⟩

def oldLogger : Logger :=
  Logger.start (Disk.start fun p => if p = lit "log" then some (lit "old\n") else none)

/-- The third call renames away the old line and the first two; the fourth finds the limit
reached again, and its `rename` fails. -/
def rotatingOps : List LogOp :=
  [startingOp 4 true, stoppingOp 66 false, startingOp 133 true, stoppingOp 62 false]

theorem sinceRotation_rotating :
    sinceRotation (loggerInit oldLogger (some (lit "log")) .info 16 true true).2 rotatingOps =
      (true, [startingOp 133 true, stoppingOp 62 false]) := by
  rfl

theorem rotating_file :
    (final loggerStep (loggerInit oldLogger (some (lit "log")) .info 16 true true).2
      rotatingOps).disk.files (lit "log") =
      some (startingCall.lineText ++ stoppingCall.lineText) := by decide +kernel

theorem view_logs_shows_rotated : ∃ db, subdbCreate Alloc.all = .ok db ∧
    (actionViewLogs (lit "token")
      (viewingAdmin db (startingCall.lineText ++ stoppingCall.lineText))).2.stdout =
      tailReport [startingCall.lineText, stoppingCall.lineText] := by
  have hplain : ∀ op ∈ rotatingOps, op.call.Plain := by
    have hstarting : startingCall.Plain := by
      refine ⟨?_, ?_, ?_⟩ <;> rw [startingCall_body] <;> decide
    have hstopping : stoppingCall.Plain := by
      refine ⟨?_, ?_, ?_⟩ <;> rw [stoppingCall_body] <;> decide
    simp [rotatingOps, startingOp, stoppingOp, hstarting, hstopping]
  refine ⟨_, rfl, ?_⟩
  have hshown db := view_logs_shows_logged oldLogger .info 16
    (c := viewingAdmin db (startingCall.lineText ++ stoppingCall.lineText))
    (show (lit "log").length ≤ 511 by decide)
    (show ∀ op ∈ rotatingOps, op.io.flush.ok = true by simp [rotatingOps, startingOp, stoppingOp])
    hplain (Or.inr rfl) (by decide) (viewingAdmin_allowed db _) rotating_file.symm (by decide)
  simp only [sinceRotation_rotating] at hshown
  exact hshown _

end SubscriberMgmt
