import SubscriberMgmt.Common
import SubscriberMgmt.Lib.CText
import SubscriberMgmt.Lib.Disk
import SubscriberMgmt.Lib.Machine

/-!
# The logger (`logger.c`)

The log file is an append stream. What the operating system does in a call is an
input: the locks, what `ftell` reports, and the outcomes of writes, flushes and of
a rotation. Each call holds `g_lock`, so calls of different threads come one after
the other.
-/

namespace SubscriberMgmt
open CText

inductive SmLogLevel where
  | debug
  | info
  | warning
  | error
  | fatal
  | other (code : ℕ)
  deriving DecidableEq, Repr

def SmLogLevel.value : SmLogLevel → ℕ
  | .debug => 0
  | .info => 1
  | .warning => 2
  | .error => 3
  | .fatal => 4
  | .other code => code

def levelName : SmLogLevel → Str
  | .debug => lit "DEBUG"
  | .info => lit "INFO"
  | .warning => lit "WARN"
  | .error => lit "ERROR"
  | .fatal => lit "FATAL"
  | .other _ => lit "UNKNOWN"

/-- The single-threaded build has one execution id. -/
def getTid : ℤ := 0

/-! ### State -/

/-- The stream behind `g_fp`; `pending` is what its buffer holds. -/
structure LogFile where
  path : Str
  pending : Str
  deriving DecidableEq

structure Logger where
  gFp : Option LogFile
  gPath : CharField 511
  gMinLevel : SmLogLevel
  gRotateMax : ℕ
  gInitialized : Bool
  disk : Disk Str
  stderr : Str

/-- The static variables of `logger.c` before `logger_init`. -/
def Logger.start (disk : Disk Str) : Logger :=
  ⟨none, CharField.copy 511 [], .info, 0, false, disk, []⟩

def LogFile.stream (f : LogFile) (disk : Disk Str) : OutStream Str := ⟨disk, f.path, f.pending⟩

/-- The stream moved on. -/
def Logger.setStream (s : Logger) (f : OutStream Str) : Logger :=
  { s with disk := f.disk, gFp := some ⟨f.path, f.pending⟩ }

/-- `fopen(path, "a")`: a file that does not exist is made. -/
def openAppend (d : Disk Str) (ok : Bool) (path : Str) : Option LogFile × Disk Str :=
  if ok then
    (some ⟨path, []⟩, match d.files path with
      | some _ => d
      | none => d.set path (some []))
  else (none, d)

/-- What a rotation meets: the position that `ftell` reports, if any, the flush, the close,
the `rename` and the `fopen`. -/
structure RotateIo where
  ftell : Option ℕ
  flush : WriteOutcome
  close : WriteOutcome
  renameOk : Bool
  openOk : Bool

def logBackupPath (path : Str) : Str := path ++ lit ".1"

/-- `maybe_rotate` from the flush on. -/
def Logger.rotate (s : Logger) (f : LogFile) (io : RotateIo) : Logger :=
  let flushed := ((f.stream s.disk).flush io.flush).2
  let closed := (flushed.flush io.close).2
  let renamed := closed.disk.rename io.renameOk s.gPath.chars (logBackupPath s.gPath.chars)
  let opened := openAppend renamed.2 io.openOk s.gPath.chars
  { s with gFp := opened.1, disk := opened.2 }

def maybeRotate (s : Logger) (io : RotateIo) : Logger :=
  match s.gFp with
  | none => s
  | some f =>
    if s.gRotateMax = 0 ∨ s.gPath.chars = [] then s
    else
      match io.ftell with
      | none => s
      | some pos => if pos < s.gRotateMax then s else s.rotate f io

/-! ### The line -/

structure Tm where
  year : ℤ
  month : ℕ
  day : ℕ
  hour : ℕ
  minute : ℕ
  second : ℕ
  deriving DecidableEq

def twoDigits (n : ℕ) : Str := if n < 10 then digit 0 :: decimal n else decimal n

/-- `strftime` with `"%Y-%m-%d %H:%M:%S"`. -/
def Tm.text (t : Tm) : Str :=
  signedDecimal t.year ++ lit "-" ++ twoDigits t.month ++ lit "-" ++ twoDigits t.day ++ lit " " ++
    twoDigits t.hour ++ lit ":" ++ twoDigits t.minute ++ lit ":" ++ twoDigits t.second

/-- The level under `%-5s`. -/
def levelColumn (l : SmLogLevel) : Str :=
  levelName l ++ List.replicate (5 - (levelName l).length) 32

/-- A call of `logger_log`; `text` is what the format and its arguments give, and `time` the
result of `gmtime_r`. -/
structure LogCall where
  level : SmLogLevel
  module : Option Str
  func : Option Str
  line : ℤ
  text : Str
  time : Option Tm

def LogCall.timebuf (c : LogCall) : Str := (c.time.map Tm.text).getD (lit "unknown-time")

/-- `vsnprintf` into `msg[1024]`. -/
def LogCall.msg (c : LogCall) : Str := c.text.take 1023

/-- The line without its newline. -/
def LogCall.body (c : LogCall) : Str :=
  c.timebuf ++ lit " [" ++ levelColumn c.level ++ lit "] [tid=" ++
    signedDecimal getTid ++ lit "] [" ++ c.module.getD (lit "?") ++ lit "::" ++
    c.func.getD (lit "?") ++ lit ":" ++ signedDecimal c.line ++ lit "] " ++ c.msg

def LogCall.lineText (c : LogCall) : Str := c.body ++ [newline]

/-! ### Calls -/

structure LogIo where
  lockOk : Bool
  rotate : RotateIo
  write : WriteOutcome
  flush : WriteOutcome

def Logger.emit (s : Logger) (line : Str) (io : LogIo) : Logger :=
  match s.gFp with
  | none => { s with stderr := s.stderr ++ line }
  | some f =>
    let written := ((f.stream s.disk).write io.write line).2
    s.setStream (written.flush io.flush).2

def loggerLog (s : Logger) (c : LogCall) (io : LogIo) : Logger :=
  if c.level.value < s.gMinLevel.value then s
  else if !io.lockOk then s
  else (maybeRotate s io.rotate).emit c.lineText io

/-- `logger_init`. A stream that is open is not closed. -/
def loggerInit (s : Logger) (path : Option Str) (minLevel : SmLogLevel) (rotateMaxBytes : ℕ)
    (lockOk openOk : Bool) : SmStatus × Logger :=
  if !lockOk then (.errLockFailed, s)
  else
    let s := { s with gMinLevel := minLevel, gRotateMax := rotateMaxBytes }
    match path with
    | none => (.ok, { s with gFp := none, gInitialized := true })
    | some path =>
      let opened := openAppend s.disk openOk path
      let s := { s with
        gPath := CharField.copy 511 path
        gFp := opened.1
        disk := opened.2 }
      match opened.1 with
      | none => (.errIo, s)
      | some _ => (.ok, { s with gInitialized := true })

def loggerShutdown (s : Logger) (flush close : WriteOutcome) : Logger :=
  match s.gFp with
  | none => { s with gInitialized := false }
  | some f =>
    let flushed := ((f.stream s.disk).flush flush).2
    { s with disk := (flushed.flush close).2.disk, gFp := none, gInitialized := false }

/-! ### Runs -/

structure LogOp where
  call : LogCall
  io : LogIo

/-- Whether the call comes to its line. -/
def LogOp.emits (minLevel : SmLogLevel) (op : LogOp) : Bool :=
  !decide (op.call.level.value < minLevel.value) && op.io.lockOk

/-- A call of `logger_log`, and the line it writes. -/
def loggerStep (s : Logger) (op : LogOp) : Logger × List Str :=
  (loggerLog s op.call op.io, if op.emits s.gMinLevel then [op.call.lineText] else [])

/-- The lines of the calls at the level or above it whose lock succeeded. -/
def emittedLines (minLevel : SmLogLevel) (ops : List LogOp) : List Str :=
  (ops.filter fun op => op.emits minLevel).map fun op => op.call.lineText

end SubscriberMgmt
