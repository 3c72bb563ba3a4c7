import SubscriberMgmt.Cli
import SubscriberMgmt.Lib.FileLines
import SubscriberMgmt.Lib.RingBuffer

/-!
# The last lines of the log (`main.c:441-476`)

`action_view_logs` reads the whole log into a ring of its last lines and shows them
from the oldest on.
-/

namespace SubscriberMgmt
open CText

/-! ### The ring -/

def LogRing.ring (r : LogRing) : RingBuffer Str := ⟨r.lines, r.count, r.next⟩

theorem LogRing.ring_push (r : LogRing) (buf : Str) :
    (r.push buf).ring = r.ring.push smLogTailLines (cString buf) := rfl

theorem LogRing.ring_foldl (r : LogRing) (pieces : List Str) :
    (pieces.foldl LogRing.push r).ring =
      (pieces.map cString).foldl (RingBuffer.push smLogTailLines) r.ring := by
  induction pieces generalizing r with
  | nil => rfl
  | cons piece pieces ih =>
    rw [List.foldl_cons, List.map_cons, List.foldl_cons, ← LogRing.ring_push]
    exact ih _

theorem LogRing.tail_ring (r : LogRing) : r.tail = r.ring.contents smLogTailLines := rfl

/-- The last lines, whatever the static array holds from an earlier call. -/
theorem logRing_tail (lines : ℕ → Str) (pieces : List Str) :
    (pieces.foldl LogRing.push ⟨lines, 0, 0⟩).tail =
      (pieces.drop (pieces.length - smLogTailLines)).map cString := by
  have hring := LogRing.ring_foldl ⟨lines, 0, 0⟩ pieces
  rw [LogRing.tail_ring, hring]
  have hcontents := RingBuffer.contents_pushes smLogTailLines lines (pieces.map cString)
  rw [List.length_map, ← List.map_drop] at hcontents
  exact hcontents

theorem logRing_count (lines : ℕ → Str) (pieces : List Str) :
    (pieces.foldl LogRing.push ⟨lines, 0, 0⟩).count = min pieces.length smLogTailLines := by
  have hlen := congrArg List.length (logRing_tail lines pieces)
  simp only [LogRing.tail, List.length_map, List.length_range, List.length_drop] at hlen
  omega

/-! ### The report -/

def tailReport (shown : List Str) : Str :=
  lit "\n===== Last " ++ decimal shown.length ++ lit " log line(s) =====\n" ++ shown.flatten ++
    lit "================================\n"

/-- The last `smLogTailLines` lines of a file, or all of them. -/
def lastLines (content : Str) : List Str :=
  (fileLines content).drop ((fileLines content).length - smLogTailLines)

theorem lastLines_length (content : Str) :
    (lastLines content).length = min (fileLines content).length smLogTailLines := by
  rw [lastLines, List.length_drop]
  omega

/-- The rest of `action_view_logs` for a user who may see the log. -/
def showLog : Option Str → Cli Unit
  | none => puts "No log file found yet.\n"
  | some content => do
    let ring := logRing content
    print (lit "\n===== Last " ++ decimal ring.count ++ lit " log line(s) =====\n")
    print ring.tail.flatten
    puts "================================\n"

section Allowed

variable {s : CliState} {token : Str} {user : AuthUser} {content : Str}

theorem actionViewLogs_allowed (h : (authorize token .viewLogs s).1 = .ok user) :
    actionViewLogs token s =
      showLog (s.outside (s.tick + 1)).log (interact (authorize token .viewLogs s).2).2 := by
  have htick : (authorize token .viewLogs s).2.outside (authorize token .viewLogs s).2.tick =
      s.outside (s.tick + 1) := rfl
  cases hrun : authorize token .viewLogs s with
  | mk result s' =>
    rw [hrun] at h htick
    have hresult : result = .ok user := h
    rw [← htick]
    simp only [actionViewLogs, bind, StateT.bind, hrun, hresult]
    rfl

theorem showLog_stdout (hshort : ∀ l ∈ fileLines content, l.length < smMaxLineLen) :
    (showLog (some content) s).2.stdout =
      s.stdout ++ tailReport ((lastLines content).map cString) := by
  have hpieces : fgetsAll (smMaxLineLen - 2) content = fileLines content :=
    fgetsAll_fileLines fun l hl => Nat.le_of_lt_succ (hshort l hl)
  have hring : logRing content = (fileLines content).foldl LogRing.push ⟨fun _ => [], 0, 0⟩ := by
    rw [logRing, hpieces]
  have htail := logRing_tail (fun _ => []) (fileLines content)
  have hcount := logRing_count (fun _ => []) (fileLines content)
  rw [← hring] at htail hcount
  show s.stdout ++ (lit "\n===== Last " ++ decimal (logRing content).count ++
    lit " log line(s) =====\n") ++ (logRing content).tail.flatten ++
      lit "================================\n" = _
  rw [htail, hcount, tailReport, List.length_map, lastLines_length, lastLines]
  simp only [List.append_assoc]

theorem actionViewLogs_stdout (hallowed : (authorize token .viewLogs s).1 = .ok user)
    (hlog : (s.outside (s.tick + 1)).log = some content)
    (hshort : ∀ l ∈ fileLines content, l.length < smMaxLineLen) :
    (actionViewLogs token s).2.stdout =
      s.stdout ++ tailReport ((lastLines content).map cString) := by
  rw [actionViewLogs_allowed hallowed, hlog, showLog_stdout hshort]
  rfl

/-- The report has the last lines of the log, each once and in the order of the file, a
line with a NUL only up to it. -/
theorem view_logs_tail (hallowed : (authorize token .viewLogs s).1 = .ok user)
    (hlog : (s.outside (s.tick + 1)).log = some content)
    (hshort : ∀ l ∈ fileLines content, l.length < smMaxLineLen) :
    (actionViewLogs token s).2.stdout =
        s.stdout ++ tailReport ((lastLines content).map cString) ∧
      (lastLines content).length = min (fileLines content).length smLogTailLines ∧
      ((∀ l ∈ lastLines content, 0 ∉ l) →
        (actionViewLogs token s).2.stdout = s.stdout ++ tailReport (lastLines content)) := by
  have hprint := actionViewLogs_stdout hallowed hlog hshort
  refine ⟨hprint, lastLines_length content, fun hplain => ?_⟩
  have hwhole : (lastLines content).map cString = lastLines content := by
    refine (List.map_congr_left fun l hl => ?_).trans (List.map_id _)
    exact List.takeWhile_eq_self_iff.mpr fun c hc => bne_iff_ne.mpr fun hz => hplain l hl (hz ▸ hc)
  rw [hprint, hwhole]

end Allowed

/-! ### An administrator looks at the log -/

def adminSession : Session :=
  ⟨lit "token", ⟨CharField.copy _ (lit "admin"), .admin⟩, 1000⟩

def viewingAdmin (db : SubscriberDb) (log : Str) : CliState :=
  .start { AuthState.start fun _ => none with sessions := fun _ => ⟨true, adminSession⟩ }
    SStrPool.start db (Disk.start fun _ => none) []
    fun _ => ⟨0, fun _ => 0, false, Alloc.all, Vector.replicate _ 0, Vector.replicate _ 0, true,
      UserIo.all, UserIo.all, SaveIo.all, true, none, some log⟩

theorem viewingAdmin_allowed (db : SubscriberDb) (log : Str) :
    (authorize (lit "token") .viewLogs (viewingAdmin db log)).1 = .ok adminSession.user := rfl

/-- A log of 52 lines, the last of them without a newline. -/
def longLog : Str := (List.replicate 51 (lit "a\n")).flatten ++ lit "b"

theorem fileLines_longLog : fileLines longLog = List.replicate 51 (lit "a\n") ++ [lit "b"] := rfl

theorem view_logs_tail_long : ∃ db, subdbCreate Alloc.all = .ok db ∧
    (∀ l ∈ fileLines longLog, l.length < smMaxLineLen) ∧
    (actionViewLogs (lit "token") (viewingAdmin db longLog)).2.stdout =
      tailReport (List.replicate 49 (lit "a\n") ++ [lit "b"]) := by
  have hlast : lastLines longLog = List.replicate 49 (lit "a\n") ++ [lit "b"] := rfl
  have hline : ∀ l ∈ fileLines longLog, l = lit "a\n" ∨ l = lit "b" := by
    intro l hl
    rw [fileLines_longLog, List.mem_append, List.mem_singleton] at hl
    exact hl.imp_left List.eq_of_mem_replicate
  have hshort : ∀ l ∈ fileLines longLog, l.length < smMaxLineLen := by
    intro l hl
    rcases hline l hl with rfl | rfl <;> decide
  have hplain : ∀ l ∈ lastLines longLog, 0 ∉ l := by
    intro l hl
    rcases hline l (List.mem_of_mem_drop hl) with rfl | rfl <;> decide
  refine ⟨_, rfl, hshort, ?_⟩
  rw [(view_logs_tail (viewingAdmin_allowed _ longLog) rfl hshort).2.2 hplain, hlast]
  rfl

def nulLog : Str := [97, 0, 98, newline]

/-- Its rest is not shown. -/
theorem nul_line_cut : ∃ db, subdbCreate Alloc.all = .ok db ∧ lastLines nulLog = [nulLog] ∧
    (actionViewLogs (lit "token") (viewingAdmin db nulLog)).2.stdout ≠
      tailReport (lastLines nulLog) := by
  refine ⟨_, rfl, rfl, fun h => ?_⟩
  have hshort : ∀ l ∈ fileLines nulLog, l.length < smMaxLineLen := by decide
  rw [actionViewLogs_stdout (viewingAdmin_allowed _ nulLog) rfl hshort] at h
  have hlen := congrArg List.length h
  exact absurd hlen (by decide)

end SubscriberMgmt
