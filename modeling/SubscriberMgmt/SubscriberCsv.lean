import SubscriberMgmt.Subscriber
import SubscriberMgmt.Lib.Disk

/-!
# The CSV file of the database (`subscriber.c:823-996`)

What the file system does is an input: the outcome of each file operation of a
save, and the contents that a load finds under each path.
-/

namespace SubscriberMgmt
open CText

/-! ### Saving -/

def csvHeader : Str :=
  lit "subscriber_id,imsi,msisdn,name,region,plan,status,created_at,updated_at\n"

/-- The `fprintf` of one record; the texts are read when it is called. -/
def csvLine (strs : SStrPool) (s : Subscriber) : Str :=
  decimal s.subscriberId.toNat ++ comma :: (s.imsi.chars ++ comma :: (s.msisdn.chars ++
    comma :: (sstrCstr strs s.name ++ comma :: (sstrCstr strs s.region ++
    comma :: (sstrCstr strs s.plan ++ comma :: (subStatusToStr s.status ++
    comma :: (signedDecimal s.createdAt.toInt ++
    comma :: (signedDecimal s.updatedAt.toInt ++ [newline]))))))))

/-- `snprintf(tmp_path, 600, "%s.tmp", path)` -/
def tmpPath (path : Str) : Str := (path ++ lit ".tmp").take 599

/-- Outcomes of the file operations of one save. At most one of the clean-up
calls `remove(tmp_path)` is reached. -/
structure SaveIo where
  openOk : Bool
  header : WriteOutcome
  lines : ℕ → WriteOutcome
  flush : WriteOutcome
  close : WriteOutcome
  removeOk : Bool
  renameOk : Bool
  cleanupOk : Bool

def SaveIo.all : SaveIo :=
  ⟨true, ⟨true, 0⟩, fun _ => ⟨true, 0⟩, ⟨true, 0⟩, ⟨true, 0⟩, true, true, true⟩

/-- The temporary file takes the place of `path`; ENOENT of the `remove` is
not an error. -/
def replaceFile (d : Disk Str) (io : SaveIo) (tmp path : Str) : SmStatus × Disk Str :=
  match d.remove io.removeOk path with
  | (.failed, d) => (.errIo, (d.remove io.cleanupOk tmp).2)
  | (_, d) =>
    match d.rename io.renameOk tmp path with
    | (false, d) => (.errIo, (d.remove io.cleanupOk tmp).2)
    | (true, d) => (.ok, d)

def writeRecords (fp : OutStream Str) (io : SaveIo) (lines : List Str) : Bool × Disk Str :=
  let w := fp.writeAll io.lines lines
  let f := w.2.flush io.flush
  (w.1 && f.1, (f.2.flush io.close).2.disk)

def subdbSaveCsv (strs : SStrPool) (db : SubscriberDb) (path : Option Str) (io : SaveIo)
    (a : Alloc) (d : Disk Str) : SmStatus × SStrPool × Disk Str :=
  match path with
  | none => (.errNullParam, strs, d)
  | some path =>
    let tmp := tmpPath path
    match d.openWrite io.openOk tmp with
    | none => (.errIo, strs, d)
    | some fp =>
      match fp.write io.header csvHeader with
      -- the temporary file stays behind
      | (false, fp) => (.errIo, strs, (fp.flush io.close).2.disk)
      | (true, fp) =>
        match subdbListAll strs db a with
        | (.error st, strs) =>
          (st, strs, ((fp.flush io.close).2.disk.remove io.cleanupOk tmp).2)
        | (.ok all, strs) =>
          match writeRecords fp io (all.map (csvLine strs)) with
          | (false, d) =>
            (.errIo, subdbFreeResults strs all, (d.remove io.cleanupOk tmp).2)
          | (true, d) =>
            let r := replaceFile d io tmp path
            (r.1, subdbFreeResults strs all, r.2)

/-! ### Loading -/

structure CsvFields where
  idS : Str
  imsi : Str
  msisdn : Str
  name : Str
  region : Str
  plan : Str
  statusS : Str
  created : ℤ
  updated : ℤ

def longMin : ℤ := -2 ^ 63
def longMax : ℤ := 2 ^ 63 - 1

def scanField (width : ℕ) (s : Str) : Option (Str × Str) := scanSet width (· != comma) s

/-- The `sscanf` of a line; `none` when fewer than nine fields are assigned. -/
def scanRecord (line : Str) : Option CsvFields := do
  let (idS, s) ← scanField 31 line
  let s ← scanChar comma s
  let (imsi, s) ← scanField 15 s
  let s ← scanChar comma s
  let (msisdn, s) ← scanField 15 s
  let s ← scanChar comma s
  let (name, s) ← scanField 64 s
  let s ← scanChar comma s
  let (region, s) ← scanField 64 s
  let s ← scanChar comma s
  let (plan, s) ← scanField 64 s
  let s ← scanChar comma s
  let (statusS, s) ← scanField 15 s
  let s ← scanChar comma s
  let (created, s) ← scanInt longMin longMax s
  let s ← scanChar comma s
  let (updated, _) ← scanInt longMin longMax s
  return ⟨idS, imsi, msisdn, name, region, plan, statusS, created, updated⟩

/-- What the loop does with a line: it is empty, it is skipped for one of three
reasons, or a record is added. -/
inductive LineOutcome where
  | blank
  | malformed
  | invalid
  | refused (st : SmStatus)
  | added (id : UInt64)
  deriving DecidableEq

def AddResult.outcome (r : AddResult) : LineOutcome :=
  match r.status with
  | .ok => .added (r.id.getD 0)
  | st => .refused st

def chompLine (piece : Str) : Str :=
  let line := cString piece
  if line.getLast? = some newline then line.dropLast else line

/-- The body of the loop; `now` is the clock of the `subdb_add`. The values
`created_at` and `updated_at` of the line are not used. -/
def loadLine (strs : SStrPool) (db : SubscriberDb) (piece : Str) (now : Int64) (a : Alloc) :
    LineOutcome × SStrPool × SubscriberDb :=
  let line := chompLine piece
  if line.isEmpty then (.blank, strs, db)
  else
    match scanRecord line with
    | none => (.malformed, strs, db)
    | some f =>
      if !(subValidateImsi f.imsi && subValidateMsisdn f.msisdn && subValidateName f.name &&
          subValidateName f.region && subValidateName f.plan) then (.invalid, strs, db)
      else
        let r := subdbAdd strs db (some f.imsi) (some f.msisdn) (some f.name) (some f.region)
          (some f.plan) (subStatusFromStr f.statusS) true now a
        (r.outcome, r.strs, r.db)

/-- The loop over the lines after the header, the `i`-th one first; each line
has a clock value and twenty allocations of its own. -/
def loadLines (strs : SStrPool) (db : SubscriberDb) (clock : ℕ → Int64) (a : Alloc) (i : ℕ) :
    List Str → List LineOutcome × SStrPool × SubscriberDb
  | [] => ([], strs, db)
  | piece :: pieces =>
    let r := loadLine strs db piece (clock i) (a.skip (20 * i))
    let rs := loadLines r.2.1 r.2.2 clock a (i + 1) pieces
    (r.1 :: rs.1, rs.2)

structure LoadResult where
  status : SmStatus
  lines : List LineOutcome
  strs : SStrPool
  db : SubscriberDb

/-- `subdb_load_csv`; `files` is what can be opened and read, by path. -/
def subdbLoadCsv (strs : SStrPool) (db : SubscriberDb) (path : Option Str)
    (files : Str → Option Str) (clock : ℕ → Int64) (a : Alloc) : LoadResult :=
  match path with
  | none => ⟨.errNullParam, [], strs, db⟩
  | some path =>
    match files path with
    | none => ⟨.errIo, [], strs, db⟩
    | some content =>
      match fgetsAll (smMaxLineLen - 2) content with
      | [] => ⟨.errCorruptData, [], strs, db⟩
      | header :: pieces =>
        if (cString header).take 14 ≠ lit "subscriber_id," then ⟨.errCorruptData, [], strs, db⟩
        else
          let r := loadLines strs db clock a 0 pieces
          ⟨.ok, r.1, r.2.1, r.2.2⟩

/-- `subdb_restore` merges into a database that is not empty. -/
def subdbRestore (strs : SStrPool) (db : SubscriberDb) (backupPath : Option Str)
    (files : Str → Option Str) (clock : ℕ → Int64) (a : Alloc) : LoadResult :=
  subdbLoadCsv strs db backupPath files clock a

end SubscriberMgmt
