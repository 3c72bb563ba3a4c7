import SubscriberMgmt.AuthSteps
import SubscriberMgmt.CliResources
import SubscriberMgmt.RuntimePath
import SubscriberMgmt.SavedAccounts

/-!
# The menu program from start to exit (`main.c:629-687`)

`main` finds its files, starts the three modules, runs the menu until it ends,
saves the subscribers and gives everything back. Its loop has a bound on the
rounds here, since nothing but a choice or a signal ends it.
-/

namespace SubscriberMgmt
open StateHoare

/-! ### The program -/

def usersPath : Str := lit "data/users.csv"

/-- What one process depends on: its name, the paths that open for reading if
there is a file, and the calls before, in and after the menu. `authOk` of `start`
is not looked at. -/
structure Launch where
  argv0 : Str
  readable : Str → Bool
  authInit : InitInput
  start : StartInput
  stdin : Str
  outside : ℕ → Outside
  save : SaveIo
  saveAlloc : Alloc
  destroyAlloc : Alloc
  shutdown : UserIo

def Launch.opened (x : Launch) (files : Str → Option Str) : Str → Option Str := fun path =>
  if x.readable path then files path else none

/-- A path of the program in a buffer of 512 bytes. -/
def Launch.path (x : Launch) (files : Str → Option Str) (input : Str) : Str :=
  resolveRuntimePath (fun path => (x.opened files path).isSome) input 512 x.argv0

/-- `main` up to the menu, `none` if it returns before. -/
def mainStart (userFiles files : Str → Option Str) (x : Launch) : Option CliState :=
  let r := authInit (.start userFiles) (some (x.path userFiles usersPath)) x.authInit
  (startUp .cli (x.path files subscribersPath) (x.opened files)
    { x.start with authOk := decide (r.1 = .ok) }).map fun s =>
      .start r.2 s.1 s.2 (Disk.start files) x.stdin x.outside

/-- The loop of `main`, `false` if it is not over after `n` rounds. -/
def menuLoop : ℕ → Cli Bool
  | 0 => pure false
  | n + 1 => do
    if ← runMenu then menuLoop n
    else pure true

/-- What `main` leaves: the status of the last save, the globals of `auth.c`, the
strings that `sstr_pool_shutdown` finds and the files. -/
structure MainEnd where
  saved : SmStatus
  auth : AuthState
  strs : SStrPool
  files : Str → Option Str

/-- `main` after its loop. -/
def mainExit (path : Str) (x : Launch) (s : CliState) : MainEnd :=
  let auth := s.session.elim s.auth fun session => (authLogout s.auth (some session.token)).2
  let r := subdbSaveCsv s.strs s.db (some path) x.save x.saveAlloc (Disk.start s.disk.files)
  ⟨r.1, authShutdown auth x.shutdown, subdbDestroy r.2.1 s.db x.destroyAlloc, r.2.2.files⟩

/-- `main`: the state after the menu and what is left; `none` if it returns before
the menu or is still in it after `rounds` rounds. -/
def cliMain (rounds : ℕ) (userFiles files : Str → Option Str) (x : Launch) :
    Option (CliState × MainEnd) :=
  match mainStart userFiles files x with
  | none => none
  | some s =>
    let r := menuLoop rounds s
    if r.1 then some (r.2, mainExit (x.path files subscribersPath) x r.2) else none

/-! ### Rounds -/

theorem menuLoop_succ (n : ℕ) (s : CliState) :
    menuLoop (n + 1) s =
      if (runMenu s).1 then menuLoop n (runMenu s).2 else (true, (runMenu s).2) := by
  show (if (runMenu s).1 = true then menuLoop n else pure true : Cli Bool) (runMenu s).2 = _
  split <;> rfl

theorem menuRounds_succ (n : ℕ) (s : CliState) :
    menuRounds (n + 1) s =
      if (runMenu s).1 then menuRounds n (runMenu s).2 else ((), (runMenu s).2) := by
  show (if (runMenu s).1 = true then menuRounds n else pure () : Cli Unit) (runMenu s).2 = _
  split <;> rfl

theorem menuLoop_rounds (n : ℕ) (s : CliState) : (menuLoop n s).2 = (menuRounds n s).2 := by
  induction n generalizing s with
  | zero => rfl
  | succ n ih =>
    rw [menuLoop_succ, menuRounds_succ]
    split
    · exact ih _
    · rfl

theorem menuLoop_add {m : ℕ} {s : CliState} (h : (menuLoop m s).1 = false) (n : ℕ) :
    menuLoop (m + n) s = menuLoop n (menuLoop m s).2 := by
  induction m generalizing s with
  | zero => rw [Nat.zero_add]; rfl
  | succ m ih =>
    rw [Nat.succ_add, menuLoop_succ, menuLoop_succ]
    rw [menuLoop_succ] at h
    split
    next hmenu =>
      rw [if_pos hmenu] at h
      exact ih h
    next hmenu =>
      rw [if_neg hmenu] at h
      cases h

/-- A menu that is over stays so. -/
theorem menuLoop_over {m : ℕ} {s : CliState} (h : (menuLoop m s).1 = true) (n : ℕ) :
    menuLoop (m + n) s = menuLoop m s := by
  induction m generalizing s with
  | zero => cases h
  | succ m ih =>
    rw [Nat.succ_add, menuLoop_succ, menuLoop_succ]
    rw [menuLoop_succ] at h
    split
    next hmenu =>
      rw [if_pos hmenu] at h
      exact ih h
    next => rfl

theorem mainStart_cases {userFiles files : Str → Option Str} {x : Launch} {s : CliState}
    (h : mainStart userFiles files x = some s) :
    ∃ t st auth, authInit (.start userFiles) (some (x.path userFiles usersPath)) x.authInit =
        (st, auth) ∧
      startUp .cli (x.path files subscribersPath) (x.opened files)
        { x.start with authOk := decide (st = .ok) } = some t ∧
      s = .start auth t.1 t.2 (Disk.start files) x.stdin x.outside := by
  unfold mainStart at h
  dsimp only at h
  obtain ⟨t, ht, he⟩ := Option.map_eq_some_iff.mp h
  exact ⟨t, _, _, rfl, ht, he.symm⟩

theorem cliMain_cases {rounds : ℕ} {userFiles files : Str → Option Str} {x : Launch}
    {r : CliState × MainEnd} (h : cliMain rounds userFiles files x = some r) :
    ∃ s, mainStart userFiles files x = some s ∧ r.1 = (menuRounds rounds s).2 ∧
      r.2 = mainExit (x.path files subscribersPath) x r.1 := by
  unfold cliMain at h
  split at h
  · cases h
  next s hs =>
    dsimp only at h
    split at h
    · cases h
      exact ⟨s, hs, menuLoop_rounds rounds s, rfl⟩
    · cases h

/-! ### Runs of the program -/

theorem saveable_law : StoreLaw fun _ p db => Saveable (p, db) where
  add {p db} h imsi msisdn name region plan now a := by
    have hrun := Saveable.run h (.cliAdd imsi msisdn name region plan now a)
    exact hrun
  delete {p db} h id := by
    have hrun := Saveable.run h (.other (.delete id) rfl)
    exact hrun
  update {p db} h id name region plan statusBuf now a := by
    have hrun := Saveable.run h (.cliUpdate id name region plan statusBuf now a)
    exact hrun
  load {p db} h path files clock a := by
    have hrun := Saveable.run h (.load path files clock a)
    exact hrun
  search h q a := h.strings (Query.keeps _ _ a q)
  free h := h.strings (SStrPool.keeps_tracks.freeResults _ _)

def CliState.accounts (s : CliState) : List SubscriberFields := dbAccounts s.store

section Runs

variable {rounds : ℕ} {userFiles files : Str → Option Str} {x : Launch} {s : CliState}
  {e : MainEnd}

/-- What holds when the menu is over: the store is in order, the sessions are those of the
program, and nothing but the end of `main` follows. -/
theorem cliMain_ended (h : cliMain rounds userFiles files x = some (s, e)) :
    Accounted [] s.strs s.db ∧ Saveable s.store ∧ s.access.Sound ∧
      e = mainExit (x.path files subscribersPath) x s := by
  obtain ⟨s₀, hs₀, hend, hexit⟩ := cliMain_cases h
  obtain ⟨t, st, auth, hauth, hstart, rfl⟩ := mainStart_cases hs₀
  dsimp only at hend hexit
  rw [hend]
  have haccounted := menuRounds_held accounted_law rounds
    (.start auth t.1 t.2 (Disk.start files) x.stdin x.outside) (startUp_accounted hstart)
  have hsaveable := menuRounds_held saveable_law rounds
    (.start auth t.1 t.2 (Disk.start files) x.stdin x.outside) (startUp_saveable hstart)
  have hsound := menuRounds_sound rounds _
    (CliState.start_sound hauth t.1 t.2 (Disk.start files) x.stdin x.outside)
  rw [hend] at hexit
  exact ⟨haccounted, hsaveable, hsound, hexit⟩

/-- A program that ended with its file saved is continued by the next one that finds this file:
it takes the same path and has the same accounts, whatever was typed and whatever failed in
between. -/
theorem restart_keeps_accounts (hrun : cliMain rounds userFiles files x = some (s, e))
    (hsaved : e.saved = .ok) (hpath : x.path files subscribersPath ≠ [])
    {userFiles' files' : Str → Option Str} {x' : Launch} (hargv : x'.argv0 = x.argv0)
    (hfile : x'.opened files' (x.path files subscribersPath) =
      e.files (x.path files subscribersPath))
    (hwork : x.path files subscribersPath = subscribersPath ∨
      x'.opened files' subscribersPath = none)
    (hmem : x'.start.HasMemory) {t : CliState} (hnext : mainStart userFiles' files' x' = some t) :
    x'.path files' subscribersPath = x.path files subscribersPath ∧
      t.accounts.Perm s.accounts := by
  obtain ⟨haccounted, hsaveable, -, rfl⟩ := cliMain_ended hrun
  have hcontent := subdbSaveCsv_file hsaved
  have hopen : x'.opened files' (x.path files subscribersPath) = some (csvFile s.strs s.db) :=
    hfile.trans hcontent
  have hsame : x'.path files' subscribersPath = x.path files subscribersPath := by
    unfold Launch.path at hpath hopen hwork ⊢
    rw [hargv]
    apply resolveRuntimePath_again (by decide) hpath
    · rw [hopen]
      rfl
    · exact hwork.imp_right fun hnone => by rw [hnone]; rfl
  obtain ⟨u, st, auth, -, hstart, rfl⟩ := mainStart_cases hnext
  rw [hsame] at hstart
  have hmem' : ({ x'.start with authOk := decide (st = .ok) } : StartInput).HasMemory :=
    ⟨hmem.pool, hmem.load⟩
  obtain ⟨listed, live, bound, hinv, -⟩ := haccounted.blocks
  exact ⟨hsame, hsaveable.restart hinv hopen hmem' hstart⟩

/-- A credential file under every path. -/
def adminAnywhere : Str → Option Str := fun _ => adminFile 48 (lit "0") (lit "u.csv")

/-- A login, an add and the exit. -/
def annLaunch : Launch :=
  ⟨lit "build/sm", fun _ => true, plainInit, easyStart,
    lit "1\nadmin\nx\n2\n310150000000001\n14155550101\nAnn\nNorth\nGold\n15\n",
    calmOutside fun _ => 7, SaveIo.all, Alloc.all, Alloc.all, UserIo.all⟩

theorem annLaunch_ends : ∃ s e, cliMain 3 adminAnywhere (fun _ => none) annLaunch = some (s, e) ∧
    e.saved = .ok ∧ s.accounts.length = 1 ∧ s.db.pool.peakBlocks ≤ refLimit ∧
      s.db.pool.allocCount ≤ 2 ^ 64 ∧
      (mainStart adminAnywhere e.files annLaunch).isSome = true := by
  have hrun : ((cliMain 3 adminAnywhere (fun _ => none) annLaunch).any fun r =>
      r.2.saved = .ok ∧ r.1.accounts.length = 1 ∧ r.1.db.pool.peakBlocks ≤ refLimit ∧
        r.1.db.pool.allocCount ≤ 2 ^ 64 ∧
        (mainStart adminAnywhere r.2.files annLaunch).isSome = true) = true := by decide +kernel
  obtain ⟨r, hr, hall⟩ := (Option.any_eq_true _ _).mp hrun
  exact ⟨r.1, r.2, hr, of_decide_eq_true hall⟩

theorem restart_keeps_accounts_ann : ∃ s e t,
    cliMain 3 adminAnywhere (fun _ => none) annLaunch = some (s, e) ∧ s.accounts.length = 1 ∧
      mainStart adminAnywhere e.files annLaunch = some t ∧ t.accounts.Perm s.accounts := by
  obtain ⟨s, e, hrun, hsaved, hone, -, -, hagain⟩ := annLaunch_ends
  obtain ⟨t, hnext⟩ := Option.isSome_iff_exists.mp hagain
  have hpath : annLaunch.path (fun _ => none) subscribersPath = subscribersPath := by
    decide +kernel
  have hagain := restart_keeps_accounts hrun hsaved (by rw [hpath]; decide) rfl rfl (Or.inl hpath)
    ⟨rfl, rfl⟩ hnext
  exact ⟨s, e, t, hrun, hone, hnext, hagain.2⟩

/-- Logging out leaves no session of the program. -/
theorem mainExit_sessions (h : s.access.Sound) (path : Str) (j : SlotIndex) :
    ((mainExit path x s).auth.sessions j).inUse = false := by
  have hshutdown : ∀ a : AuthState, (authShutdown a x.shutdown).sessions = a.sessions := by
    intro a
    simp only [authShutdown]
    split <;> rfl
  have hempty : ∀ a : AuthState, OnlySession a none → (a.sessions j).inUse = false := by
    intro a ha
    have hnone := ha.empty j
    by_contra huse
    rw [Bool.not_eq_false] at huse
    have hsome := SessionSlot.entry_eq_some.mpr ⟨huse, rfl⟩
    rw [AuthState.table, hsome] at hnone
    cases hnone
  have honly := h.1
  simp only [mainExit, hshutdown]
  simp only [Access.token, CliState.access] at honly
  cases hs : s.session with
  | none =>
    rw [hs] at honly
    exact hempty _ honly
  | some session =>
    rw [hs] at honly
    exact hempty _ honly.logout

/-- When `main` returns no session is left. If the pool never held more blocks than the counts of
references allow for, and the array for the last records is allocated, no string is left to
`sstr_pool_shutdown` either, which would not free it. -/
theorem main_leaves_nothing (h : cliMain rounds userFiles files x = some (s, e)) :
    (∀ j, (e.auth.sessions j).inUse = false) ∧
      (s.db.pool.peakBlocks ≤ refLimit → s.db.pool.allocCount ≤ 2 ^ 64 → x.destroyAlloc 0 = true →
        e.strs.table.nodes = [] ∧ ∀ i, (e.strs.cells i).live = false) := by
  obtain ⟨haccounted, -, hsound, rfl⟩ := cliMain_ended h
  refine ⟨mainExit_sessions hsound _, fun hpeak hallocs ha => ?_⟩
  have hsave := accounted_law.save haccounted (some (x.path files subscribersPath)) x.save
    x.saveAlloc (Disk.start s.disk.files)
  obtain ⟨listed, live, bound, hinv, hbound⟩ := hsave.blocks
  have hrefs : (mainExit (x.path files subscribersPath) x s).strs.Refs [] :=
    subdbDestroy_refs hinv (hinv.young (by omega)).1 (hsave.nil_refs hpeak) ha
  constructor
  · apply List.eq_nil_iff_forall_not_mem.mpr
    intro n hn
    exact absurd ((hrefs.entry n.value).mpr ⟨n, hn, rfl⟩) List.not_mem_nil
  · intro i
    rw [Bool.eq_false_iff]
    intro hlive
    exact absurd ((hrefs.live i).mp hlive) List.not_mem_nil

theorem main_leaves_nothing_ann : ∃ s e,
    cliMain 3 adminAnywhere (fun _ => none) annLaunch = some (s, e) ∧ s.accounts.length = 1 ∧
      e.strs.table.nodes = [] := by
  obtain ⟨s, e, hrun, -, hone, hpeak, hallocs, -⟩ := annLaunch_ends
  exact ⟨s, e, hrun, hone, ((main_leaves_nothing hrun).2 hpeak hallocs rfl).1⟩

end Runs

/-! ### Closed input -/

/-- Nothing is left to read and no signal arrives any more. -/
def CliState.Silent (s : CliState) : Prop :=
  s.stdin = [] ∧ s.shutdownRequested = false ∧ ∀ k, s.tick ≤ k → (s.outside k).signal = false

/-- A silent state with the store, the accounts and all files of another one; sessions may be
over. -/
def Idle (t s : CliState) : Prop :=
  s.Silent ∧ s.store = t.store ∧ s.disk = t.disk ∧ s.auth.users = t.auth.users ∧
    s.auth.disk = t.auth.disk

section Silent

variable {t : CliState}

theorem interact_idle : Keeps (Idle t) interact := by
  intro s hs
  obtain ⟨⟨hin, hshut, hsig⟩, hstore⟩ := hs
  refine ⟨⟨hin, ?_, fun k hk => hsig k (Nat.le_of_succ_le hk)⟩, hstore⟩
  show (s.shutdownRequested || (s.outside s.tick).signal) = false
  rw [hshut, hsig s.tick le_rfl]
  rfl

theorem print_idle (text : Str) : Keeps (Idle t) (print text) := fun _ hs => hs

theorem readLine_idle (len : ℕ) : Triple (Idle t) (readLine len) fun raw s =>
    raw = [] ∧ Idle t s := by
  refine Triple.bind interact_idle fun _ s hs => ?_
  show (readLineFrom len s.stdin).1 = [] ∧ Idle t { s with stdin := (readLineFrom len s.stdin).2 }
  rw [hs.1.1]
  exact ⟨rfl, ⟨rfl, hs.1.2⟩, hs.2⟩

theorem readMenuChoice_idle :
    Triple (Idle t) readMenuChoice fun choice s => choice = -1 ∧ Idle t s := by
  refine Triple.bind (readLine_idle 32) fun raw s hs => ?_
  obtain ⟨rfl, hidle⟩ := hs
  exact ⟨rfl, hidle⟩

theorem recheckSession_idle : Keeps (Idle t) recheckSession := by
  apply Keeps.get
  intro s _
  cases s.session with
  | none => exact Keeps.pure
  | some session =>
    have hverify : Keeps (Idle t) (verifySession session.token) := by
      apply Keeps.bind interact_idle
      intro o s hs
      obtain ⟨hsilent, hstore, hdisk, husers, hauth⟩ := hs
      have hsame := (authVerifySession_accounts s.auth (some session.token) o.now).1
      have hfile := authVerifySession_disk s.auth (some session.token) o.now
      exact ⟨hsilent, hstore, hdisk, hsame.trans husers, hfile.trans hauth⟩
    apply Keeps.bind hverify
    intro r
    cases r with
    | ok user => exact Keeps.pure
    | error st => exact Keeps.bind (print_idle _) fun _ _ hs => hs

theorem unlessShutdown_idle {k : Cli Bool}
    (hk : Triple (Idle t) k fun again s => again = true ∧ Idle t s) :
    Triple (Idle t) (get >>= fun s => if s.shutdownRequested then return false else k)
      fun again s => again = true ∧ Idle t s := by
  intro s hs
  show _ ∧ _
  have hno : s.shutdownRequested = false := hs.1.2.1
  have hrun : (get >>= fun s => if s.shutdownRequested then return false else k : Cli Bool) s =
      k s := by
    show (if s.shutdownRequested = true then pure false else k : Cli Bool) s = k s
    rw [if_neg (by rw [hno]; exact Bool.false_ne_true)]
  rw [hrun]
  exact hk s hs

/-- A round at the end of the input prints the menu and is followed by another one. -/
theorem runMenu_idle : Triple (Idle t) runMenu fun again s => again = true ∧ Idle t s := by
  refine Triple.bind recheckSession_idle fun _ => unlessShutdown_idle ?_
  refine Triple.bind (print_idle _) fun _ => ?_
  refine Triple.bind readMenuChoice_idle fun choice => ?_
  intro s hs
  obtain ⟨rfl, hidle⟩ := hs
  refine unlessShutdown_idle (k := menuAction (-1)) ?_ s hidle
  exact Triple.bind (print_idle _) fun _ => Triple.pure fun _ hs => ⟨rfl, hs⟩

theorem menuLoop_idle {s : CliState} (h : Idle t s) (n : ℕ) :
    (menuLoop n s).1 = false ∧ Idle t (menuLoop n s).2 := by
  induction n generalizing s with
  | zero => exact ⟨rfl, h⟩
  | succ n ih =>
    obtain ⟨hagain, hidle⟩ := runMenu_idle s h
    rw [menuLoop_succ, if_pos hagain]
    exact ih hidle

end Silent

/-- Once the input is at its end and no signal arrives any more, a menu that is still printed is
printed for ever: `main` does not return, what is in the store is not saved, and no file changes,
that of the accounts included. -/
theorem closed_input_never_returns {userFiles files : Str → Option Str} {x : Launch} {s : CliState}
    (hstart : mainStart userFiles files x = some s) {m : ℕ} (hmenu : (menuLoop m s).1 = false)
    (hsilent : (menuLoop m s).2.Silent) (n : ℕ) :
    cliMain n userFiles files x = none ∧
      (menuLoop (m + n) s).2.store = (menuLoop m s).2.store ∧
      (menuLoop (m + n) s).2.disk = (menuLoop m s).2.disk ∧
      (menuLoop (m + n) s).2.auth.users = (menuLoop m s).2.auth.users ∧
      (menuLoop (m + n) s).2.auth.disk = (menuLoop m s).2.auth.disk := by
  have hlater : ∀ k, (menuLoop (m + k) s).1 = false ∧
      Idle (menuLoop m s).2 (menuLoop (m + k) s).2 := by
    intro k
    rw [menuLoop_add hmenu]
    exact menuLoop_idle ⟨hsilent, rfl, rfl, rfl, rfl⟩ k
  have hnot : (menuLoop n s).1 = false := by
    rw [Bool.eq_false_iff]
    intro hover
    have hstill := (hlater n).1
    rw [Nat.add_comm, menuLoop_over hover, hover] at hstill
    cases hstill
  refine ⟨?_, (hlater n).2.2⟩
  simp only [cliMain, hstart, hnot, Bool.false_eq_true, if_false]

theorem closed_input_never_returns_closed :
    cliMain 1000 adminAnywhere (fun _ => none) { annLaunch with stdin := [] } = none := by
  have hstart : (mainStart adminAnywhere (fun _ => none)
      { annLaunch with stdin := [] }).isSome = true := by decide +kernel
  obtain ⟨s, hs⟩ := Option.isSome_iff_exists.mp hstart
  have hsilent : (menuLoop 0 s).2.Silent := by
    obtain ⟨t, st, auth, -, -, rfl⟩ := mainStart_cases hs
    exact ⟨rfl, rfl, fun _ _ => rfl⟩
  exact (closed_input_never_returns hs rfl hsilent 1000).1

end SubscriberMgmt
