import SubscriberMgmt.AuthCalls

/-!
# The password of an account as a register (`auth.c:457-504, 706-759`)

The second section of `auth_change_password` is a compare-and-set of the
password, so that no change is lost whatever runs beside it.
-/

namespace SubscriberMgmt
open CText CasRegister

/-! ### Changes of one account -/

def HasPassword (name password : Str) (s : AuthState) : Prop :=
  ∃ i u, findUserLocked s.users name = some (i, u) ∧ u.role ≠ .admin ∧
    hashPassword u.salt password = u.hash

/-- The account found under the name is not ADMIN, and what it stores was
computed from the password and the salt. -/
def StoredPassword (name : Str) (salt : Salt) (password : Str) (users : List UserRecord) : Prop :=
  ∃ i u, findUserLocked users name = some (i, u) ∧ u.role ≠ .admin ∧ u.salt = salt ∧
    u.hash = hashPassword salt password

theorem StoredPassword.hasPassword {name password : Str} {salt : Salt} {s : AuthState}
    (h : StoredPassword name salt password s.users) : HasPassword name password s := by
  obtain ⟨i, u, hfind, hrole, rfl, hhash⟩ := h
  exact ⟨i, u, hfind, hrole, hhash.symm⟩

def ChangeCall.isOf (name : Str) (c : ChangeCall) : Bool :=
  decide (c.caller.username.chars = name.take smAuthMaxUsername)

def ChangeResult.attempt (r : ChangeResult) : CasRegister.Attempt Str :=
  ⟨r.call.oldPassword, r.call.newPassword, decide (r.status = .ok)⟩

/-- The changes that ended, of the account of that name. -/
def changesOf (name : Str) (log : List ChangeResult) : List (CasRegister.Attempt Str) :=
  (log.filter fun r => r.call.isOf name).map ChangeResult.attempt

theorem changesOf_append (name : Str) (log log' : List ChangeResult) :
    changesOf name (log ++ log') = changesOf name log ++ changesOf name log' := by
  rw [changesOf, List.filter_append, List.map_append]
  rfl

/-! ### Runs -/

/-- Every file operation succeeds. -/
def UserIo.Good (io : UserIo) : Prop :=
  io.mkdirOk = true ∧ io.openOk = true ∧ io.header.ok = true ∧ (∀ i, (io.lines i).ok = true) ∧
    io.flush.ok = true ∧ io.close.ok = true ∧ io.renameOk = true

theorem UserIo.all_good : UserIo.all.Good := ⟨rfl, rfl, rfl, fun _ => rfl, rfl, rfl, rfl⟩

theorem AuthState.save_good {s : AuthState} (hpath : s.usersPath.chars ≠ []) {io : UserIo}
    (h : io.Good) : (s.save io).1 = .ok := by
  obtain ⟨hmk, hopen, hhead, hlines, hflush, hclose, hren⟩ := h
  exact (s.save_ok_iff io).mpr
    ⟨hpath, fun _ => hmk, hopen, hhead, fun i _ => hlines i, hflush, hclose, hren⟩

/-- The account is not deleted, and the saves of changes succeed. -/
def CallOp.Keeps (name : Str) : CallOp → Prop
  | .call (.deleteUser (some username) _) =>
    name.take smAuthMaxUsername ≠ username.take smAuthMaxUsername
  | .changeEnd _ _ _ io => io.Good
  | _ => True

def CallOp.Locks : CallOp → Prop
  | .changeEnd _ _ lockOk _ => lockOk = true
  | _ => True

/-- Two of the passwords have one hash. -/
def Collides (passwords : List Str) : Prop :=
  ∃ p ∈ passwords, ∃ q ∈ passwords, p ≠ q ∧ ∃ salt, hashPassword salt p = hashPassword salt q

def namedPasswords (log : List (CasRegister.Attempt Str)) : List Str :=
  log.flatMap fun a => [a.old, a.new]

/-! ### One step -/

section Step

variable {name password : Str} {s : AuthState}

theorem HasPassword.congr {s' : AuthState} (h : HasPassword name password s)
    (hs : s'.users = s.users) : HasPassword name password s' := by
  rw [HasPassword, hs]
  exact h

theorem authCreateUser_stored {role : SmRole} {salt : Salt} {io : UserIo} (hrole : role ≠ .admin)
    (hok : (authCreateUser s (some name) (some password) role salt io).1 = .ok) :
    StoredPassword name salt password
      (authCreateUser s (some name) (some password) role salt io).2.users := by
  simp only [authCreateUser] at hok ⊢
  split at hok
  case isTrue => cases hok
  case isFalse harg =>
    split at hok
    case h_1 => cases hok
    case h_2 hnew =>
      split at hok
      case isTrue => cases hok
      case isFalse hroom =>
        rw [if_neg harg, if_neg hroom]
        refine ⟨s.users.length, ⟨true, CharField.copy _ name, salt, hashPassword salt password,
          role, 0, 0⟩, ?_, hrole, rfl, rfl⟩
        refine (findUserLocked_append_none hnew).trans (if_pos ?_)
        rw [UserRecord.answers_iff]
        exact ⟨rfl, rfl⟩

theorem authCreateUser_password {role : SmRole} {salt : Salt} {io : UserIo} (hrole : role ≠ .admin)
    (hok : (authCreateUser s (some name) (some password) role salt io).1 = .ok) :
    HasPassword name password (authCreateUser s (some name) (some password) role salt io).2 :=
  (authCreateUser_stored hrole hok).hasPassword

/-- Sections other than a change leave the password. -/
theorem HasPassword.call (h : HasPassword name password s) {op : AuthOp}
    (hruns : (CallOp.call op).Runs) (hkeeps : (CallOp.call op).Keeps name) :
    HasPassword name password (authStep s op).1 := by
  have hpath : op.path = none := by
    cases op with
    | init => exact hruns.elim
    | _ => rfl
  obtain ⟨i, u, hfind, hrole, hhash⟩ := h
  have hstep := authStep_account s op hpath name
  rw [hfind] at hstep
  generalize hnew : findUserLocked (authStep s op).1.users name = new at hstep
  cases hstep with
  | kept => exact ⟨i, u, hnew, hrole, hhash⟩
  | failed => exact ⟨i, _, hnew, hrole, hhash⟩
  | accepted => exact ⟨i, _, hnew, hrole, hhash⟩
  | recovered hname hrec => exact absurd (isRecovery_role hrec).1 hrole
  | rewritten => exact hruns.elim
  | deleted hname => exact absurd hname hkeeps

/-- The second section of a change, if the passwords it compares do not collide,
is a compare-and-set. -/
theorem HasPassword.change (h : HasPassword name password s) (hpath : s.usersPath.chars ≠ [])
    {c : ChangeCall} (hown : c.isOf name = true)
    (hcollide : ∀ salt, hashPassword salt c.oldPassword = hashPassword salt password →
      c.oldPassword = password)
    (salt : Salt) (lockOk : Bool) {io : UserIo} (hio : io.Good) :
    let r := changePasswordLocked s c.caller c.oldPassword c.newPassword salt lockOk io
    let a : CasRegister.Attempt Str := ⟨c.oldPassword, c.newPassword, decide (r.1 = .ok)⟩
    HasPassword name (a.next password) r.2 ∧ (a.ok = true → a.old = password) ∧
      (lockOk = true → a.old = password → a.ok = true) := by
  intro r a
  obtain ⟨i, u, hfind, hrole, hhash⟩ := h
  have hcaller : c.caller.username.chars = name.take smAuthMaxUsername := of_decide_eq_true hown
  have htake : name.take smAuthMaxUsername = c.caller.username.chars.take smAuthMaxUsername := by
    rw [hcaller, List.take_take, Nat.min_self]
  have hfind' : findUserLocked s.users c.caller.username.chars = some (i, u) :=
    (findUserLocked_same htake).symm.trans hfind
  have refused : r.2 = s → r.1 ≠ .ok → (lockOk = true → c.oldPassword ≠ password) →
      HasPassword name (a.next password) r.2 ∧ (a.ok = true → a.old = password) ∧
        (lockOk = true → a.old = password → a.ok = true) := by
    intro hs hst hno
    have hok : a.ok = false := decide_eq_false hst
    rw [CasRegister.Attempt.next, hok, hs]
    exact ⟨⟨i, u, hfind, hrole, hhash⟩, fun h => (by cases h), fun hl he => absurd he (hno hl)⟩
  cases lockOk with
  | false =>
    refine refused rfl (fun h => (by cases h)) fun h => (by cases h)
  | true =>
    by_cases hold : hashPassword u.salt c.oldPassword = u.hash
    · have hr : r = (s.setUser i (u.withPassword salt c.newPassword)).save io :=
        change_accepted hfind' hold c.newPassword salt io
      have hsaved : ((s.setUser i (u.withPassword salt c.newPassword)).save io).1 = .ok :=
        AuthState.save_good (s := s.setUser i (u.withPassword salt c.newPassword)) hpath hio
      have hok : a.ok = true := decide_eq_true (by rw [hr]; exact hsaved)
      rw [CasRegister.Attempt.next, if_pos hok, hr]
      refine ⟨⟨i, u.withPassword salt c.newPassword, ?_, hrole, rfl⟩, fun _ => ?_, fun _ _ => hok⟩
      · exact findUserLocked_set hfind rfl rfl rfl
      · exact hcollide u.salt (hold.trans hhash.symm)
    · have hwrong : consttimeEq (hashPassword u.salt c.oldPassword) u.hash = false := by
        rw [← Bool.not_eq_true, consttimeEq_iff]
        exact hold
      have hr : r = (.errUnauthorized, s) := by
        simp only [r, changePasswordLocked, hfind', hwrong, Bool.not_true, Bool.false_eq_true,
          if_false, Bool.not_false, if_true]
      refine refused (by rw [hr]) (by rw [hr]; exact fun h => (by cases h)) fun _ he => hold ?_
      rw [he, hhash]

/-- A change of another account leaves the password. -/
theorem HasPassword.other (h : HasPassword name password s) {c : ChangeCall}
    (hother : c.isOf name = false) (salt : Salt) (lockOk : Bool) (io : UserIo) :
    HasPassword name password
      (changePasswordLocked s c.caller c.oldPassword c.newPassword salt lockOk io).2 := by
  obtain ⟨i, u, hfind, hrole, hhash⟩ := h
  have hstep := authStep_account s
    (.rewrite c.caller c.oldPassword c.newPassword salt lockOk io) rfl name
  rw [hfind] at hstep
  simp only [authStep] at hstep
  generalize changePasswordLocked s c.caller c.oldPassword c.newPassword salt lockOk io = r
    at hstep ⊢
  generalize hnew : findUserLocked r.2.users name = new at hstep
  cases hstep with
  | kept => exact ⟨i, u, hnew, hrole, hhash⟩
  | rewritten hname =>
    rw [ChangeCall.isOf, decide_eq_false_iff_not] at hother
    exact absurd hname.symm hother

end Step

/-! ### Runs of sections -/

/-- One section against the register, where the passwords of `ps` do not collide. -/
theorem callStep_register {name password : Str} {ps : List Str} (hps : ¬ Collides ps)
    (hmem : password ∈ ps) {s : Calls} (h : HasPassword name password s.auth)
    (hpath : s.auth.usersPath.chars ≠ []) {op : CallOp} (hruns : op.Runs) (hkeeps : op.Keeps name)
    (hnamed : ∀ p ∈ namedPasswords (changesOf name (callStep s op).2), p ∈ ps) :
    HasPassword name (value password (changesOf name (callStep s op).2)) (callStep s op).1.auth ∧
      Sound password (changesOf name (callStep s op).2) ∧
      (op.Locks → Complete password (changesOf name (callStep s op).2)) ∧
      (callStep s op).1.auth.usersPath.chars ≠ [] := by
  cases op with
  | call op =>
    have hop : op.path = none := by
      cases op with
      | init => exact hruns.elim
      | _ => rfl
    refine ⟨h.call hruns hkeeps, trivial, fun _ => trivial, ?_⟩
    have hsame := authStep_path s.auth op
    rw [hop] at hsame
    exact (congrArg CharField.chars hsame).trans_ne hpath
  | changeBegin thread token oldPassword newPassword now =>
    simp only [callStep]
    split
    case h_2 => exact ⟨h, trivial, fun _ => trivial, hpath⟩
    case h_1 =>
      obtain ⟨husers, hsame⟩ := changeBegin_users s thread token oldPassword newPassword now
      exact ⟨h.congr husers, trivial, fun _ => trivial, by rw [hsame]; exact hpath⟩
  | changeEnd thread salt lockOk io =>
    simp only [callStep] at hnamed ⊢
    cases hc : s.pending thread with
    | none => exact ⟨h, trivial, fun _ => trivial, hpath⟩
    | some c =>
      simp only [hc] at hnamed ⊢
      have hsame := authStep_path s.auth
        (.rewrite c.caller c.oldPassword c.newPassword salt lockOk io)
      have hpath' := (congrArg CharField.chars hsame).trans_ne hpath
      cases hown : c.isOf name with
      | false =>
        have hnone : changesOf name [⟨c, (changePasswordLocked s.auth c.caller c.oldPassword
            c.newPassword salt lockOk io).1⟩] = [] := by
          simp [changesOf, hown]
        rw [hnone]
        exact ⟨h.other hown salt lockOk io, trivial, fun _ => trivial, hpath'⟩
      | true =>
        have hone : changesOf name [⟨c, (changePasswordLocked s.auth c.caller c.oldPassword
            c.newPassword salt lockOk io).1⟩] = [⟨c.oldPassword, c.newPassword,
              decide ((changePasswordLocked s.auth c.caller c.oldPassword c.newPassword salt lockOk
                io).1 = .ok)⟩] := by
          simp [changesOf, hown, ChangeResult.attempt]
        rw [hone] at hnamed ⊢
        have hold : c.oldPassword ∈ ps := hnamed _ (List.mem_cons_self ..)
        have hcollide : ∀ salt, hashPassword salt c.oldPassword = hashPassword salt password →
            c.oldPassword = password := by
          intro salt he
          by_contra hne
          exact hps ⟨_, hold, _, hmem, hne, salt, he⟩
        obtain ⟨hnext, hsound, hcomplete⟩ := h.change hpath hown hcollide salt lockOk hkeeps
        exact ⟨hnext, ⟨hsound, trivial⟩, fun hl => ⟨hcomplete hl, trivial⟩, hpath'⟩

theorem namedPasswords_append (log log' : List (CasRegister.Attempt Str)) :
    namedPasswords (log ++ log') = namedPasswords log ++ namedPasswords log' := List.flatMap_append

theorem value_mem (password : Str) (log : List (CasRegister.Attempt Str)) {ps : List Str}
    (hmem : password ∈ ps) (hnamed : ∀ p ∈ namedPasswords log, p ∈ ps) :
    value password log ∈ ps := by
  induction log generalizing password with
  | nil => exact hmem
  | cons a log ih =>
    refine ih _ ?_ fun p hp => hnamed p (List.mem_append_right _ hp)
    unfold CasRegister.Attempt.next
    split
    · exact hnamed _ (List.mem_append_left _ (by simp))
    · exact hmem

def changeLog (name : Str) (s : Calls) (ops : List CallOp) : List (CasRegister.Attempt Str) :=
  changesOf name (Machine.outputs callStep s ops).flatten

theorem run_register {name password : Str} {ps : List Str} (hps : ¬ Collides ps)
    (hmem : password ∈ ps) {s : Calls} (h : HasPassword name password s.auth)
    (hpath : s.auth.usersPath.chars ≠ []) {ops : List CallOp}
    (hops : ∀ op ∈ ops, op.Runs ∧ op.Keeps name)
    (hnamed : ∀ p ∈ namedPasswords (changeLog name s ops), p ∈ ps) :
    HasPassword name (value password (changeLog name s ops))
        (Machine.final callStep s ops).auth ∧
      Sound password (changeLog name s ops) ∧
      ((∀ op ∈ ops, op.Locks) → Complete password (changeLog name s ops)) := by
  induction ops generalizing s password with
  | nil => exact ⟨h, trivial, fun _ => trivial⟩
  | cons op ops ih =>
    have hlog : changeLog name s (op :: ops) =
        changesOf name (callStep s op).2 ++ changeLog name (callStep s op).1 ops := by
      rw [changeLog, Machine.outputs, List.flatten_cons, changesOf_append]
      rfl
    rw [hlog] at hnamed ⊢
    rw [namedPasswords_append] at hnamed
    obtain ⟨hruns, hkeeps⟩ := hops op (List.mem_cons_self ..)
    have hfirst : ∀ p ∈ namedPasswords (changesOf name (callStep s op).2), p ∈ ps := fun p hp =>
      hnamed p (List.mem_append_left _ hp)
    obtain ⟨h1, hsound, hcomplete, hpath1⟩ := callStep_register hps hmem h hpath hruns hkeeps hfirst
    obtain ⟨h2, hsound2, hcomplete2⟩ := ih (value_mem _ _ hmem hfirst) h1 hpath1
      (fun op hop => hops op (List.mem_cons_of_mem _ hop))
      (fun p hp => hnamed p (List.mem_append_right _ hp))
    rw [value_append, sound_append, complete_append]
    refine ⟨h2, ⟨hsound, hsound2⟩, fun hl => ⟨hcomplete (hl op (List.mem_cons_self ..)), ?_⟩⟩
    exact hcomplete2 fun op hop => hl op (List.mem_cons_of_mem _ hop)

/-- From any state in which an account that is not ADMIN has a password, with any
changes in progress: each call of the account that begins with a valid session and
ends is in the log with what it returned. Unless two of the passwords named have one
hash, the password is the new one of the last change that returned SM_OK, each of
these named the password it found, and of the changes that name the first password,
while none brings it back, exactly one returns SM_OK. -/
theorem password_updates_not_lost (name password : Str) (s : Calls) (ops : List CallOp)
    (hpass : HasPassword name password s.auth) (hpath : s.auth.usersPath.chars ≠ [])
    (hops : ∀ op ∈ ops, op.Runs ∧ op.Keeps name) :
    let log := changeLog name s ops
    (∀ c st, Ended s ops c st → c.isOf name = true →
        ⟨c.oldPassword, c.newPassword, decide (st = .ok)⟩ ∈ log) ∧
      (Collides (password :: namedPasswords log) ∨
        HasPassword name (((log.filter CasRegister.Attempt.ok).getLast?.map
          CasRegister.Attempt.new).getD password)
            (Machine.final callStep s ops).auth ∧
          Sound password log ∧
          ((∀ op ∈ ops, op.Locks) → (∀ a ∈ log, a.new ≠ password) →
            (∃ a ∈ log, a.old = password) → wins password log = 1)) := by
  intro log
  refine ⟨fun c st hended hof => ?_, ?_⟩
  · exact List.mem_map.mpr ⟨⟨c, st⟩, List.mem_filter.mpr ⟨hended.logged, hof⟩, rfl⟩
  by_cases hps : Collides (password :: namedPasswords log)
  · exact Or.inl hps
  · right
    obtain ⟨hnow, hsound, hcomplete⟩ := run_register hps (List.mem_cons_self ..) hpass hpath hops
      fun p hp => List.mem_cons_of_mem _ hp
    rw [value_eq] at hnow
    exact ⟨hnow, hsound, fun hl hnew hold => wins_eq_one hsound (hcomplete hl) hnew hold⟩

def operatorBob (hash : Digest) : UserRecord :=
  ⟨true, CharField.copy _ (lit "bob"), Vector.replicate _ 7, hash, .operator, 0, 0⟩

/-- An ADMIN and an OPERATOR with that hash, after `auth_init`. -/
def bobState (hash : Digest) : AuthState :=
  loadedState (adminFile 48 (lit "0")) [adminRecord 0 0, operatorBob hash]

def bobLogin : AuthOp :=
  .login (some (lit "bob")) (some (lit "password")) true (zeroLogin 0)

/-- Two threads change the password at the same time. -/
def bobChanges : List CallOp :=
  [.call bobLogin,
    .changeBegin 0 (some (List.replicate 64 48)) (some (lit "password")) (some (lit "first one")) 0,
    .changeBegin 1 (some (List.replicate 64 48)) (some (lit "password")) (some (lit "another")) 0,
    .changeEnd 1 (Vector.replicate _ 8) true UserIo.all,
    .changeEnd 0 (Vector.replicate _ 9) true UserIo.all]

/-- The call of the thread that ends last. -/
def bobCall : ChangeCall :=
  ⟨List.replicate 64 48, ⟨CharField.copy _ (lit "bob"), .operator⟩, lit "password",
    lit "first one"⟩

theorem bob_verified {hash : Digest}
    (hhash : hashPassword (Vector.replicate _ 7) (lit "password") = hash) :
    (authVerifySession (authStep (bobState hash) bobLogin).1 (some bobCall.token) 0).1 =
      .ok bobCall.caller := by
  have hfind : findUserLocked (bobState hash).users (lit "bob") = some (1, operatorBob hash) := rfl
  have hlogin : authLogin (bobState hash) (some (lit "bob")) (some (lit "password")) true
      (zeroLogin 0) = openSession ((bobState hash).setUser 1 (operatorBob hash).cleared)
        (operatorBob hash).cleared (zeroLogin 0) :=
    login_accepted hfind rfl rfl (Or.inr hhash)
  show (authVerifySession (authLogin _ _ _ true _).2 _ 0).1 = _
  rw [hlogin]
  rfl

theorem bobCall_ended {hash : Digest}
    (hhash : hashPassword (Vector.replicate _ 7) (lit "password") = hash) :
    ∃ st, Ended ⟨bobState hash, fun _ => none⟩ bobChanges bobCall st := by
  refine ⟨_, [.call bobLogin], [.changeBegin 1 _ _ _ 0, .changeEnd 1 _ true UserIo.all], [], 0, 0,
    _, _, _, rfl, rfl, by decide, bob_verified hhash, fun _ _ _ hm => ?_, rfl⟩
  simp at hm

theorem password_updates_not_lost_bob :
    let s : Calls :=
      ⟨bobState (hashPassword (Vector.replicate _ 7) (lit "password")), fun _ => none⟩
    let log := changeLog (lit "bob") s bobChanges
    (∃ ok, ⟨bobCall.oldPassword, bobCall.newPassword, ok⟩ ∈ log) ∧
      (Collides (lit "password" :: namedPasswords log) ∨
        HasPassword (lit "bob")
            (((log.filter CasRegister.Attempt.ok).getLast?.map CasRegister.Attempt.new).getD
              (lit "password"))
            (Machine.final callStep s bobChanges).auth ∧
          Sound (lit "password") log ∧ wins (lit "password") log = 1) := by
  obtain ⟨hash, hhash⟩ : ∃ hash, hashPassword (Vector.replicate _ 7) (lit "password") = hash :=
    ⟨_, rfl⟩
  rw [hhash]
  intro s log
  have hpass : HasPassword (lit "bob") (lit "password") s.auth :=
    ⟨1, operatorBob hash, rfl, fun h => (by cases h), hhash⟩
  have hkeeps : ∀ op ∈ bobChanges, op.Runs ∧ op.Keeps (lit "bob") ∧ op.Locks := by
    intro op hop
    simp only [bobChanges, List.mem_cons, List.not_mem_nil, or_false] at hop
    rcases hop with rfl | rfl | rfl | rfl | rfl
    · exact ⟨trivial, trivial, trivial⟩
    · exact ⟨trivial, trivial, trivial⟩
    · exact ⟨trivial, trivial, trivial⟩
    · exact ⟨trivial, UserIo.all_good, rfl⟩
    · exact ⟨trivial, UserIo.all_good, rfl⟩
  have hnew : ∀ a ∈ log, a.new ≠ lit "password" := by
    intro a ha
    obtain ⟨r, hr, rfl⟩ := List.mem_map.mp ha
    obtain ⟨thread, now, hm⟩ := logged_begun (fun _ => rfl) (List.mem_of_mem_filter hr)
    have hnames : r.call.newPassword = lit "first one" ∨ r.call.newPassword = lit "another" := by
      simp [bobChanges] at hm
      tauto
    have hdiff : lit "first one" ≠ lit "password" ∧ lit "another" ≠ lit "password" := by decide
    rcases hnames with he | he
    · exact he.trans_ne hdiff.1
    · exact he.trans_ne hdiff.2
  obtain ⟨hlogged, hrun⟩ := password_updates_not_lost (lit "bob") (lit "password") s bobChanges
    hpass (show lit "u.csv" ≠ [] by decide) fun op hop => ⟨(hkeeps op hop).1, (hkeeps op hop).2.1⟩
  obtain ⟨st, hended⟩ := bobCall_ended hhash
  have hmem := hlogged bobCall st hended rfl
  refine ⟨⟨_, hmem⟩, hrun.imp_right fun ⟨hnow, hsound, hwins⟩ => ⟨hnow, hsound, ?_⟩⟩
  exact hwins (fun op hop => (hkeeps op hop).2.2) hnew ⟨_, hmem, rfl⟩

end SubscriberMgmt
