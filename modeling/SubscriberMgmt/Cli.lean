import SubscriberMgmt.CliInput
import SubscriberMgmt.Auth
import Mathlib.Data.List.Range

/-!
# The menu program (`main.c:150-627`)

One thread reads lines and calls the library. Time passes at every line that is
read and at every call; what happens outside of the program meanwhile is a
sequence of inputs, one for each of these interactions. The log of `logger.c`
is not written here.
-/

namespace SubscriberMgmt
open CText

/-! ### State -/

/-- The outside during one interaction: the clock, a signal, allocations, random
bytes and the file system. `clock` is for calls that read the time more than once;
`stamp` is `none` when `localtime` fails. -/
structure Outside where
  now : ℤ
  clock : ℕ → Int64
  signal : Bool
  alloc : Alloc
  salt : Salt
  token : Vector UInt8 smAuthTokenBytes
  lockOk : Bool
  recoverySave : UserIo
  userSave : UserIo
  save : SaveIo
  readable : Bool
  stamp : Option Str
  log : Option Str

/-- A call that may change the database or write a backup of it: what it was
authorized as and when, and the sessions and the clock when it is made. -/
structure StoreCall where
  token : Str
  action : SmAction
  authorizedAt : ℤ
  now : ℤ
  auth : AuthState

/-- The globals, `sm_app_state_t` with `none` for not logged in, standard input
and output, the disk of the subscriber files, and the calls made so far.
`authorizedAt` is the time of the last successful `auth_authorize`. -/
structure CliState where
  auth : AuthState
  strs : SStrPool
  db : SubscriberDb
  disk : Disk Str
  session : Option Session
  shutdownRequested : Bool
  stdin : Str
  stdout : Str
  outside : ℕ → Outside
  tick : ℕ
  authorizedAt : ℤ
  calls : List StoreCall

abbrev Cli := StateM CliState

def CliState.start (auth : AuthState) (strs : SStrPool) (db : SubscriberDb) (disk : Disk Str)
    (stdin : Str) (outside : ℕ → Outside) : CliState :=
  ⟨auth, strs, db, disk, none, false, stdin, [], outside, 0, 0, []⟩

/-- A signal during the interaction is only noticed later. -/
def interact : Cli Outside := fun s =>
  let o := s.outside s.tick
  (o, { s with tick := s.tick + 1, shutdownRequested := s.shutdownRequested || o.signal })

def print (text : Str) : Cli Unit := modify fun s => { s with stdout := s.stdout ++ text }

def puts (text : String) : Cli Unit := print (lit text)

/-! ### Input helpers -/

def readLine (len : ℕ) : Cli Str := do
  let _ ← interact
  fun s =>
    let r := readLineFrom len s.stdin
    (r.1, { s with stdin := r.2 })

def readPassword (len : ℕ) : Cli Str := readLine len

def readMenuChoice : Cli ℤ := do
  let raw ← readLine 32
  return menuChoice raw

def readId : Cli UInt64 := do
  let raw ← readLine 32
  return typedId raw

/-- A prompt and the line that answers it. -/
def ask (prompt : String) (len : ℕ) : Cli Str := do
  puts prompt
  readLine len

/-- `%-ns` -/
def padRight (n : ℕ) (t : Str) : Str := t ++ List.replicate (n - t.length) 32

def subscriberLine (strs : SStrPool) (s : Subscriber) : Str :=
  lit "  id=" ++ padRight 6 (decimal s.subscriberId.toNat) ++ lit " imsi=" ++
    padRight 15 s.imsi.chars ++ lit " msisdn=" ++ padRight 15 s.msisdn.chars ++ lit " name=" ++
    padRight 16 (sstrCstr strs s.name) ++ lit " region=" ++ padRight 10 (sstrCstr strs s.region) ++
    lit " plan=" ++ padRight 14 (sstrCstr strs s.plan) ++ lit " status=" ++
    subStatusToStr s.status ++ lit "\n"

def printSubscriber (sub : Subscriber) : Cli Unit := do
  let s ← get
  print (subscriberLine s.strs sub)

/-! ### Calls of the library -/

def login (username password : Str) : Cli (Except SmStatus Session) := do
  let o ← interact
  fun s =>
    let r := authLogin s.auth (some username) (some password) true
      ⟨o.now, o.salt, o.token, o.recoverySave, o.userSave⟩
    (r.1, { s with auth := r.2 })

def logout (token : Str) : Cli Unit := do
  let _ ← interact
  modify fun s => { s with auth := (authLogout s.auth (some token)).2 }

def verifySession (token : Str) : Cli (Except SmStatus AuthUser) := do
  let o ← interact
  fun s =>
    let r := authVerifySession s.auth (some token) o.now
    (r.1, { s with auth := r.2 })

def authorize (token : Str) (action : SmAction) : Cli (Except SmStatus AuthUser) := do
  let o ← interact
  fun s =>
    let r := authAuthorize s.auth (some token) action o.now
    (r.1, { s with
      auth := r.2
      authorizedAt := if r.1.isOk then o.now else s.authorizedAt })

def changePassword (token oldPassword newPassword : Str) : Cli SmStatus := do
  let o ← interact
  fun s =>
    let r := authChangePassword s.auth (some token) (some oldPassword) (some newPassword) o.now
      o.salt o.lockOk o.userSave
    (r.1, { s with auth := r.2 })

/-- A call on the database that only reads it. -/
def query {α : Type} (f : Outside → SStrPool → SubscriberDb → α × SStrPool) : Cli α := do
  let o ← interact
  fun s =>
    let r := f o s.strs s.db
    (r.1, { s with strs := r.2 })

/-- A call on the database that is authorized as `action`. -/
def change {α : Type} (token : Str) (action : SmAction)
    (f : Outside → SStrPool → SubscriberDb → Disk Str → α × SStrPool × SubscriberDb × Disk Str) :
    Cli α := do
  let o ← interact
  fun s =>
    let r := f o s.strs s.db s.disk
    (r.1, { s with
      strs := r.2.1
      db := r.2.2.1
      disk := r.2.2.2
      calls := s.calls ++ [⟨token, action, s.authorizedAt, o.now, s.auth⟩] })

/-! ### Login and logout -/

def loginRefusal : SmStatus → Str
  | .errUnauthorized => lit "Invalid credentials or account locked.\n"
  | .errNotFound => lit "Unknown user.\n"
  | st => lit "Login error: " ++ smStatusStr st ++ lit "\n"

/-- The attempts that are left. -/
def loginAttempts : ℕ → Cli Unit
  | 0 => puts "Too many failed login attempts.\n"
  | attempts + 1 => do
    let username ← ask "Username: " (smAuthMaxUsername + 1)
    puts "Password: "
    let password ← readPassword 128
    match ← login username password with
    | .ok session =>
      modify fun s => { s with session := some session }
      print (lit "Login successful. Role: " ++ smRoleToStr session.user.role ++ lit "\n")
    | .error st =>
      print (loginRefusal st)
      loginAttempts attempts

def actionLogin : Cli Unit := do
  match (← get).session with
  | some session =>
    print (lit "Already logged in as '" ++ session.user.username.chars ++ lit "' (role=" ++
      smRoleToStr session.user.role ++ lit "). Logout first to switch users.\n")
  | none => loginAttempts 3

def actionLogout : Cli Unit := do
  match (← get).session with
  | none => puts "You are not logged in.\n"
  | some session =>
    logout session.token
    print (lit "User '" ++ session.user.username.chars ++ lit "' logged out.\n")
    modify fun s => { s with session := none }

/-- `require_login` in front of an action. -/
def requireLogin (action : Str → Cli Unit) : Cli Unit := do
  match (← get).session with
  | none => puts "Please log in first (option 1).\n"
  | some session => action session.token

/-! ### Actions on the database -/

def outcome (what : String) (st : SmStatus) : Str :=
  lit what ++ lit " -> " ++ smStatusStr st ++ lit "\n"

/-- The call of `action_add`. -/
def addTyped (strs : SStrPool) (db : SubscriberDb) (imsi msisdn name region plan : Str)
    (now : Int64) (a : Alloc) : AddResult :=
  subdbAdd strs db (some imsi) (some msisdn) (some name) (some region) (some plan) .active true
    now a

def addOutcome (st : SmStatus) (id : Option UInt64) : Str :=
  lit "add -> " ++ smStatusStr st ++
    (if st = .ok then lit " (id=" ++ decimal (id.getD 0).toNat ++ lit ")" else []) ++ lit "\n"

def actionAdd (token : Str) : Cli Unit := do
  match ← authorize token .subAdd with
  | .error _ => puts "Permission denied: your role cannot add subscribers.\n"
  | .ok _ =>
    let imsi ← ask "IMSI: " 32
    let msisdn ← ask "MSISDN: " 32
    let name ← ask "Name: " 64
    let region ← ask "Region: " 32
    let plan ← ask "Plan: " 32
    let r ← change token .subAdd fun o strs db disk =>
      let r := addTyped strs db imsi msisdn name region plan (Int64.ofInt o.now) o.alloc
      ((r.status, r.id), r.strs, r.db, disk)
    print (addOutcome r.1 r.2)

def searchById (id : UInt64) : Cli (Except SmStatus Subscriber) :=
  query fun o strs db => subdbSearchById strs db id o.alloc

def freeOne (sub : Subscriber) : Cli Unit :=
  query fun _ strs _ => ((), subdbFreeOne strs sub)

/-- The search that was chosen in `action_search`. -/
def searchTyped (how : ℤ) : Cli (Except SmStatus Subscriber) :=
  if how = 2 then do
    let imsi ← ask "IMSI: " 32
    query fun o strs db => subdbSearchByImsi strs db (some imsi) o.alloc
  else if how = 3 then do
    let msisdn ← ask "MSISDN: " 32
    query fun o strs db => subdbSearchByMsisdn strs db (some msisdn) o.alloc
  else do
    puts "Subscriber ID: "
    let id ← readId
    searchById id

def actionSearch (token : Str) : Cli Unit := do
  match ← authorize token .subSearch with
  | .error _ => puts "Permission denied: your role cannot search subscribers.\n"
  | .ok _ =>
    puts "Search by: 1) ID  2) IMSI  3) MSISDN\nChoice: "
    let how ← readMenuChoice
    match ← searchTyped how with
    | .ok sub =>
      printSubscriber sub
      freeOne sub
    | .error st => print (outcome "search" st)

/-- A text that was left blank is not changed. -/
def typedText (text : Str) : Option Str := if text.isEmpty then none else some text

/-- The call of `action_update`. -/
def updateTyped (strs : SStrPool) (db : SubscriberDb) (id : UInt64)
    (name region plan statusBuf : Str) (now : Int64) (a : Alloc) :
    SmStatus × SStrPool × SubscriberDb :=
  subdbUpdate strs db id (typedText name) (typedText region) (typedText plan)
    ((typedText statusBuf).map subStatusFromStr) now a

def actionUpdate (token : Str) : Cli Unit := do
  match ← authorize token .subUpdate with
  | .error _ => puts "Permission denied: your role cannot update subscribers.\n"
  | .ok _ =>
    puts "Subscriber ID to update: "
    let id ← readId
    match ← searchById id with
    | .error _ => print (outcome "update" .errNotFound)
    | .ok existing =>
      puts "Current: "
      printSubscriber existing
      freeOne existing
      let name ← ask "New name (blank = keep): " 64
      let region ← ask "New region (blank = keep): " 32
      let plan ← ask "New plan (blank = keep): " 32
      let statusBuf ← ask "New status ACTIVE/SUSPENDED/TERMINATED (blank = keep): " 16
      let st ← change token .subUpdate fun o strs db disk =>
        let r := updateTyped strs db id name region plan statusBuf (Int64.ofInt o.now) o.alloc
        (r.1, r.2.1, r.2.2, disk)
      print (outcome "update" st)

def actionDelete (token : Str) : Cli Unit := do
  match ← authorize token .subDelete with
  | .error _ => puts "Permission denied: your role cannot delete subscribers.\n"
  | .ok _ =>
    puts "Subscriber ID to delete: "
    let id ← readId
    let st ← change token .subDelete fun _ strs db disk =>
      let r := subdbDelete strs db id
      (r.1, r.2.1, r.2.2, disk)
    print (outcome "delete" st)

def actionList (token : Str) : Cli Unit := do
  match ← authorize token .subList with
  | .error _ => puts "Permission denied: your role cannot list subscribers.\n"
  | .ok _ =>
    let found ← query fun o strs db => subdbListAll strs db o.alloc
    let all := found.toOption.getD []
    print (decimal all.length ++ lit " subscriber(s):\n")
    all.forM printSubscriber
    query fun _ strs _ => ((), subdbFreeResults strs all)

/-! ### Reports -/

def reportStatuses : List (SubStatus × Str) :=
  [(.active, lit "ACTIVE"), (.suspended, lit "SUSPENDED"), (.terminated, lit "TERMINATED")]

/-- The number of records with a status as the report counts them: 0 when the
search fails. -/
def countByStatus (strs : SStrPool) (db : SubscriberDb) (status : SubStatus) (a : Alloc) :
    ℕ × SStrPool :=
  match subdbSearchByStatus strs db status a with
  | (.ok arr, strs) => (arr.length, subdbFreeResults strs arr)
  | (.error _, strs) => (0, strs)

def actionReport (token : Str) : Cli Unit := do
  match ← authorize token .reportGenerate with
  | .error _ => puts "Permission denied: your role cannot generate reports.\n"
  | .ok _ =>
    let total ← query fun _ strs db => (subdbCount db, strs)
    puts "\n===== Subscriber Report =====\n"
    print (lit "Total subscribers : " ++ decimal total ++ lit "\n")
    puts "-- By status --\n"
    reportStatuses.forM fun (status, label) => do
      let cnt ← query fun o strs db => countByStatus strs db status o.alloc
      print (lit "  " ++ padRight 10 label ++ lit " : " ++ decimal cnt ++ lit "\n")
    puts "==============================\n"

/-! ### Backup and restore -/

/-- The path that `subdb_backup` builds in a buffer of `outPathLen` bytes. -/
def backupPath (backupDir : Str) (stamp : Option Str) (outPathLen : ℕ) : Str :=
  (backupDir ++ lit "/subscribers_" ++ stamp.getD (lit "unknown_time") ++ lit ".csv").take
    (outPathLen - 1)

def actionBackup (token : Str) : Cli Unit := do
  match ← authorize token .dbBackup with
  | .error _ => puts "Permission denied: your role cannot back up the database.\n"
  | .ok _ =>
    let r ← change token .dbBackup fun o strs db disk =>
      let path := backupPath (lit "data/backups") o.stamp 256
      let r := subdbSaveCsv strs db (some path) o.save o.alloc disk
      ((r.1, path), r.2.1, db, r.2.2)
    print (lit "backup -> " ++ smStatusStr r.1 ++ lit " (" ++ r.2 ++ lit ")\n")

def actionRestore (token : Str) : Cli Unit := do
  match ← authorize token .dbRestore with
  | .error _ => puts "Permission denied: your role cannot restore the database.\n"
  | .ok _ =>
    let path ← ask "Backup CSV path to restore from: " 256
    let st ← change token .dbRestore fun o strs db disk =>
      let r := subdbRestore strs db (some path)
        (fun p => if o.readable then disk.files p else none)
        o.clock o.alloc
      (r.status, r.strs, r.db, disk)
    print (outcome "restore" st)

/-! ### Logs and statistics -/

def smLogTailLines : ℕ := 50

/-- The ring of the last lines in `action_view_logs`. -/
structure LogRing where
  lines : ℕ → Str
  count : ℕ
  next : ℕ

def LogRing.push (r : LogRing) (buf : Str) : LogRing :=
  ⟨Function.update r.lines r.next (cString buf),
    if r.count < smLogTailLines then r.count + 1 else r.count, (r.next + 1) % smLogTailLines⟩

def logRing (content : Str) : LogRing :=
  (fgetsAll (smMaxLineLen - 2) content).foldl LogRing.push ⟨fun _ => [], 0, 0⟩

def LogRing.tail (r : LogRing) : List Str :=
  let start := if r.count < smLogTailLines then 0 else r.next
  (List.range r.count).map fun i => r.lines ((start + i) % smLogTailLines)

def actionViewLogs (token : Str) : Cli Unit := do
  match ← authorize token .viewLogs with
  | .error _ => puts "Permission denied: only admins can view system logs.\n"
  | .ok _ =>
    let o ← interact
    match o.log with
    | none => puts "No log file found yet.\n"
    | some content =>
      let ring := logRing content
      print (lit "\n===== Last " ++ decimal ring.count ++ lit " log line(s) =====\n")
      print ring.tail.flatten
      puts "================================\n"

def memoryReport (p : MemPool) : Str :=
  lit "\n===== Memory Pool Statistics =====\n" ++
    lit "Block size        : " ++ decimal p.blockSize ++ lit " bytes\n" ++
    lit "Total blocks      : " ++ decimal p.totalBlocks ++ lit "\n" ++
    lit "Used blocks       : " ++ decimal p.usedBlocks ++ lit "\n" ++
    lit "Peak blocks       : " ++ decimal p.peakBlocks ++ lit "\n" ++
    lit "Allocations       : " ++ decimal p.allocCount ++ lit "\n" ++
    lit "Frees             : " ++ decimal p.freeCount ++ lit "\n" ++
    lit "Alloc failures    : " ++ decimal p.allocFailures ++ lit "\n" ++
    lit "Approx. bytes used: " ++ decimal (p.blockSize * p.usedBlocks % sizeRange) ++ lit "\n" ++
    lit "===================================\n"

def actionMemoryStats (token : Str) : Cli Unit := do
  match ← authorize token .viewStats with
  | .error _ => puts "Permission denied: your role cannot view memory statistics.\n"
  | .ok _ =>
    let report ← query fun _ strs db => (memoryReport db.pool, strs)
    print report

/-- `sstr_pool_get_stats`: strings, references, bytes, and bytes without
interning; `none` for a pool that is not initialized. -/
def sstrPoolGetStats (p : SStrPool) : Option (ℕ × ℕ × ℕ × ℕ) :=
  if !p.initialized then none
  else
    let strings := p.table.nodes.map fun n => p.cells n.value
    let refs := (strings.map fun s => s.refcount.toNat).sum % sizeRange
    let bytes := (strings.map fun s => s.len + 1).sum % sizeRange
    some (strings.length, refs, bytes,
      if 0 < strings.length then refs * (bytes / strings.length) % sizeRange else 0)

def sharedStringReport (distinct refs bytes without : ℕ) : Str :=
  lit "\n===== Shared String Pool Statistics =====\n" ++
    lit "Distinct strings           : " ++ decimal distinct ++ lit "\n" ++
    lit "Total references           : " ++ decimal refs ++ lit "\n" ++
    lit "Bytes for distinct strings : " ++ decimal bytes ++ lit "\n" ++
    lit "Bytes without interning    : " ++ decimal without ++ lit "\n" ++
    (if bytes < without then
      lit "Bytes saved by interning   : " ++ decimal (without - bytes) ++ lit "\n" else []) ++
    lit "===========================================\n"

def actionSharedStringStats (token : Str) : Cli Unit := do
  match ← authorize token .viewStats with
  | .error _ => puts "Permission denied: your role cannot view shared string statistics.\n"
  | .ok _ =>
    let stats ← query fun _ strs _ => (sstrPoolGetStats strs, strs)
    match stats with
    | none => puts "Could not read shared string pool statistics.\n"
    | some (distinct, refs, bytes, without) =>
      print (sharedStringReport distinct refs bytes without)

/-! ### Password -/

def actionChangePassword (token : Str) : Cli Unit := do
  puts "Current password: "
  let oldPw ← readPassword 128
  puts "New password (min 8 chars): "
  let newPw ← readPassword 128
  puts "Confirm new password: "
  let confirmPw ← readPassword 128
  if newPw ≠ confirmPw then puts "New password and confirmation do not match.\n"
  else do
    let st ← changePassword token oldPw newPw
    print (outcome "change_password" st)

/-! ### Menu -/

def menuText : String :=
  "\n========== Telecom Subscriber Management ==========\n" ++
  " 1. Login\n" ++
  " 2. Add Subscriber\n" ++
  " 3. Search Subscriber\n" ++
  " 4. Update Subscriber\n" ++
  " 5. Delete Subscriber\n" ++
  " 6. Display All Subscribers\n" ++
  " 7. Generate Reports\n" ++
  " 8. Backup Subscriber Data\n" ++
  " 9. Restore Subscriber Data\n" ++
  "10. View System Logs\n" ++
  "11. Memory Usage Statistics\n" ++
  "12. Shared String Statistics\n" ++
  "13. Change Password\n" ++
  "14. Logout\n" ++
  "15. Exit\n" ++
  "=====================================================\n" ++
  "Enter your choice: "

/-- The session is verified again before each menu. -/
def recheckSession : Cli Unit := do
  match (← get).session with
  | none => pure ()
  | some session =>
    match ← verifySession session.token with
    | .ok _ => pure ()
    | .error _ =>
      puts "Session expired. Please log in again.\n"
      modify fun s => { s with session := none }

/-- The `switch` of `run_menu`; false ends the program. -/
def menuAction (choice : ℤ) : Cli Bool :=
  if choice = 1 then do actionLogin; return true
  else if choice = 2 then do requireLogin actionAdd; return true
  else if choice = 3 then do requireLogin actionSearch; return true
  else if choice = 4 then do requireLogin actionUpdate; return true
  else if choice = 5 then do requireLogin actionDelete; return true
  else if choice = 6 then do requireLogin actionList; return true
  else if choice = 7 then do requireLogin actionReport; return true
  else if choice = 8 then do requireLogin actionBackup; return true
  else if choice = 9 then do requireLogin actionRestore; return true
  else if choice = 10 then do requireLogin actionViewLogs; return true
  else if choice = 11 then do requireLogin actionMemoryStats; return true
  else if choice = 12 then do requireLogin actionSharedStringStats; return true
  else if choice = 13 then do requireLogin actionChangePassword; return true
  else if choice = 14 then do actionLogout; return true
  else if choice = 15 then do puts "Exiting. Goodbye.\n"; return false
  else do puts "Unknown choice. Please enter a number from 1-15.\n"; return true

def runMenu : Cli Bool := do
  recheckSession
  if (← get).shutdownRequested then return false
  else do
    puts menuText
    let choice ← readMenuChoice
    if (← get).shutdownRequested then return false
    else menuAction choice

/-- At most `n` rounds of the menu. At the end of the input the menu goes on
being printed until a signal arrives. -/
def menuRounds : ℕ → Cli Unit
  | 0 => pure ()
  | n + 1 => do
    if ← runMenu then menuRounds n
    else pure ()

end SubscriberMgmt
