import SubscriberMgmt.AuthStore
import Mathlib.Data.Fintype.Basic
import Mathlib.Data.List.FinRange

/-!
# Authentication (`auth.c`)

Every function is a step on the global state of the module. The clock is an
integer of seconds; `fill_random` does not fail on the buffers it is given, so
its branches are left out.
-/

namespace SubscriberMgmt
open CText

structure AuthUser where
  username : CharField smAuthMaxUsername
  role : SmRole
  deriving DecidableEq

structure Session where
  token : Str
  user : AuthUser
  expiresAt : ℤ
  deriving DecidableEq

structure SessionSlot where
  inUse : Bool
  session : Session

abbrev SlotIndex := Fin smAuthMaxSessions

/-- The globals of `auth.c`, and the disk they are saved to. `users` are the
first `g_user_count` entries of `g_users`. -/
structure AuthState where
  users : List UserRecord
  sessions : SlotIndex → SessionSlot
  usersPath : CharField 511
  initialized : Bool
  disk : Disk Str

def clearedSessions : SlotIndex → SessionSlot := fun _ =>
  ⟨false, [], ⟨⟨[], Nat.zero_le _⟩, .admin⟩, 0⟩

def AuthState.start (files : Str → Option Str) : AuthState :=
  ⟨[], clearedSessions, ⟨[], Nat.zero_le _⟩, false, Disk.start files⟩

def strncmpEq (n : ℕ) (a b : Str) : Bool := a.take n = b.take n

/-- `find_user_locked`: index and record of the first live account. -/
def findUserLocked (users : List UserRecord) (username : Str) : Option (ℕ × UserRecord) :=
  users.zipIdx.findSome? fun e =>
    if e.1.inUse && strncmpEq smAuthMaxUsername e.1.username.chars username then some (e.2, e.1)
    else none

def AuthState.setUser (s : AuthState) (i : ℕ) (u : UserRecord) : AuthState :=
  { s with users := s.users.set i u }

def AuthState.save (s : AuthState) (io : UserIo) : SmStatus × AuthState :=
  let r := saveUsersLocked s.users s.usersPath.chars io s.disk
  (r.1, { s with disk := r.2 })

def AuthState.setSlot (s : AuthState) (j : SlotIndex) (slot : SessionSlot) : AuthState :=
  { s with sessions := Function.update s.sessions j slot }

def AuthState.findSlot (s : AuthState) (p : SessionSlot → Bool) : Option SlotIndex :=
  (List.finRange smAuthMaxSessions).find? fun j => p (s.sessions j)

/-! ### Start and end (`auth.c:370-440`) -/

def smAuthDefaultAdminPassword : Str := lit "Ap39wb6301@@"

/-- Bytes drawn for one seeded account: those of a random password and the salt. -/
structure SeedDraw where
  password : Vector UInt8 9
  salt : Salt

def seedUser (name : Str) (role : SmRole) (password : Str) (salt : Salt) : UserRecord :=
  ⟨true, CharField.copy _ name, salt, hashPassword salt password, role, 0, 0⟩

/-- `seed_default_users_locked` on an empty table. -/
def seedDefaultUsersLocked (adminSalt : Salt) (operator viewer : SeedDraw) : List UserRecord :=
  [seedUser (lit "admin") .admin smAuthDefaultAdminPassword adminSalt,
    seedUser (lit "operator") .operator (smHexEncode operator.password.toList) operator.salt,
    seedUser (lit "viewer") .viewer (smHexEncode viewer.password.toList) viewer.salt]

/-- What `auth_init` depends on besides its argument: whether the file can be
opened, the stale bytes of each line, the random bytes and the first save. -/
structure InitInput where
  readOk : Bool
  stale : ℕ → Str × Str
  adminSalt : Salt
  operator : SeedDraw
  viewer : SeedDraw
  save : UserIo

/-- `load_users_locked(path)`; `none` when the file cannot be opened. -/
def readUsers (files : Str → Option Str) (path : Str) (input : InitInput) :
    Option (List UserRecord) :=
  if input.readOk then (files path).map (loadUsersLocked input.stale) else none

def authInit (s : AuthState) (usersCsvPath : Option Str) (input : InitInput) :
    SmStatus × AuthState :=
  match usersCsvPath with
  | none => (.errNullParam, s)
  | some path =>
    let s := { s with usersPath := CharField.copy 511 path, sessions := clearedSessions }
    match readUsers s.disk.files path input with
    | some users => (.ok, { s with users := users, initialized := true })
    | none =>
      let users := seedDefaultUsersLocked input.adminSalt input.operator input.viewer
      let r := saveUsersLocked users path input.save s.disk
      (r.1, { s with users := users, initialized := decide (r.1 = .ok), disk := r.2 })

def authShutdown (s : AuthState) (io : UserIo) : AuthState :=
  let s := if s.initialized then (s.save io).2 else s
  { s with initialized := false }

/-! ### Login (`auth.c:444-542`) -/

/-- What a login depends on besides its arguments: the clock, the salt of a
recovery, the bytes of the token, and the saves. -/
structure LoginInput where
  now : ℤ
  salt : Salt
  token : Vector UInt8 smAuthTokenBytes
  recoverySave : UserIo
  save : UserIo

def isRecovery (u : UserRecord) (password : Str) : Bool :=
  u.role == .admin && password == smAuthDefaultAdminPassword

def isLocked (u : UserRecord) (now : ℤ) : Bool :=
  u.lockedUntil != 0 && decide (now < u.lockedUntil)

def recoverAdmin (s : AuthState) (i : ℕ) (u : UserRecord) (password : Str) (input : LoginInput) :
    UserRecord × AuthState :=
  let u := { u with
    failedAttempts := 0
    lockedUntil := 0
    salt := input.salt
    hash := hashPassword input.salt password }
  (u, ((s.setUser i u).save input.recoverySave).2)

/-- A failed attempt is counted, and the fifth one locks the account. -/
def countFailure (u : UserRecord) (now : ℤ) : UserRecord :=
  let failed := u.failedAttempts + 1
  { u with
    failedAttempts := failed
    lockedUntil := if smAuthMaxAttempts ≤ failed then now + smAuthLockoutSeconds
      else u.lockedUntil }

/-- `auth_login` up to the session: the account whose credentials are accepted.
An account with role ADMIN is accepted with any password. -/
def checkCredentials (s : AuthState) (username password : Str) (input : LoginInput) :
    Except SmStatus UserRecord × AuthState :=
  match findUserLocked s.users username with
  | none => (.error .errNotFound, s)
  | some (i, u) =>
    if isLocked u input.now && !isRecovery u password then (.error .errUnauthorized, s)
    else
      let recovered := isRecovery u password
      let r := if recovered then recoverAdmin s i u password input else (u, s)
      let u := r.1
      let s := r.2
      if u.role != .admin && !consttimeEq (hashPassword u.salt password) u.hash && !recovered then
        (.error .errUnauthorized, ((s.setUser i (countFailure u input.now)).save input.save).2)
      else
        let u := { u with failedAttempts := 0, lockedUntil := 0 }
        (.ok u, s.setUser i u)

def SessionSlot.takeable (now : ℤ) (slot : SessionSlot) : Bool :=
  !slot.inUse || decide (slot.session.expiresAt < now)

def newSession (u : UserRecord) (input : LoginInput) : Session :=
  ⟨smHexEncode input.token.toList, ⟨u.username, u.role⟩, input.now + smAuthSessionSeconds⟩

/-- `auth_login` from the search for a slot on. -/
def openSession (s : AuthState) (u : UserRecord) (input : LoginInput) :
    Except SmStatus Session × AuthState :=
  match s.findSlot (SessionSlot.takeable input.now) with
  | none => (.error .errCapacity, s)
  | some j =>
    let session := newSession u input
    (.ok session, ((s.setSlot j ⟨true, session⟩).save input.save).2)

/-- `auth_login`; `outSession` says whether `out_session` is non-NULL. -/
def authLogin (s : AuthState) (username password : Option Str) (outSession : Bool)
    (input : LoginInput) : Except SmStatus Session × AuthState :=
  match username, password, outSession with
  | some username, some password, true =>
    match checkCredentials s username password input with
    | (.error st, s) => (.error st, s)
    | (.ok u, s) => openSession s u input
  | _, _, _ => (.error .errNullParam, s)

/-! ### Sessions (`auth.c:544-634`) -/

def SessionSlot.hasToken (token : Str) (slot : SessionSlot) : Bool :=
  slot.inUse && strncmpEq (2 * smAuthTokenBytes + 1) slot.session.token token

def authLogout (s : AuthState) (token : Option Str) : SmStatus × AuthState :=
  match token with
  | none => (.errNullParam, s)
  | some token =>
    match s.findSlot (SessionSlot.hasToken token) with
    | none => (.errNotFound, s)
    | some j => (.ok, s.setSlot j { s.sessions j with inUse := false })

def authVerifySession (s : AuthState) (token : Option Str) (now : ℤ) :
    Except SmStatus AuthUser × AuthState :=
  match token with
  | none => (.error .errNullParam, s)
  | some token =>
    match s.findSlot (SessionSlot.hasToken token) with
    | none => (.error .errUnauthorized, s)
    | some j =>
      let slot := s.sessions j
      if slot.session.expiresAt < now then
        (.error .errUnauthorized, s.setSlot j { slot with inUse := false })
      else
        (.ok slot.session.user, s.setSlot j
          { slot with session := { slot.session with expiresAt := now + smAuthSessionSeconds } })

inductive SmAction where
  | subAdd
  | subUpdate
  | subDelete
  | subSearch
  | subList
  | dbBackup
  | dbRestore
  | userManage
  | reportGenerate
  | viewLogs
  | viewStats
  deriving DecidableEq, Repr

def authRoleAllows : SmRole → SmAction → Bool
  | .admin, _ => true
  | .operator, action =>
    match action with
    | .subAdd | .subUpdate | .subSearch | .subList | .reportGenerate | .viewStats => true
    | .subDelete | .dbBackup | .dbRestore | .userManage | .viewLogs => false
  | .viewer, action =>
    match action with
    | .subSearch | .subList | .reportGenerate | .viewStats => true
    | _ => false
  | _, _ => false

def checkRole (action : SmAction) (verified : Except SmStatus AuthUser) :
    Except SmStatus AuthUser :=
  match verified with
  | .error st => .error st
  | .ok user => if authRoleAllows user.role action then .ok user else .error .errUnauthorized

def authAuthorize (s : AuthState) (token : Option Str) (action : SmAction) (now : ℤ) :
    Except SmStatus AuthUser × AuthState :=
  let r := authVerifySession s token now
  (checkRole action r.1, r.2)

/-! ### Accounts (`auth.c:657-777`) -/

def isNameChar (c : UInt8) : Bool :=
  isDigit c || (65 ≤ c && c ≤ 90) || (97 ≤ c && c ≤ 122) || c == 95 || c == 46 || c == 45

def validUsername (username : Str) : Bool :=
  decide (username.length ≠ 0) && decide (username.length ≤ smAuthMaxUsername) &&
    username.all isNameChar

def authCreateUser (s : AuthState) (username password : Option Str) (role : SmRole) (salt : Salt)
    (io : UserIo) : SmStatus × AuthState :=
  match username, password with
  | some username, some password =>
    if !validUsername username || decide (password.length < 8) || role == .unknown then
      (.errInvalidArg, s)
    else
      match findUserLocked s.users username with
      | some _ => (.errDuplicate, s)
      | none =>
        if smAuthMaxUsers ≤ s.users.length then (.errCapacity, s)
        else
          let u : UserRecord :=
            ⟨true, CharField.copy _ username, salt, hashPassword salt password, role, 0, 0⟩
          { s with users := s.users ++ [u] }.save io
  | _, _ => (.errNullParam, s)

/-- `auth_change_password` after the session was verified: the second critical
section. -/
def changePasswordLocked (s : AuthState) (caller : AuthUser) (oldPassword newPassword : Str)
    (salt : Salt) (lockOk : Bool) (io : UserIo) : SmStatus × AuthState :=
  if !lockOk then (.errLockFailed, s)
  else
    match findUserLocked s.users caller.username.chars with
    | none => (.errNotFound, s)
    | some (i, u) =>
      if !consttimeEq (hashPassword u.salt oldPassword) u.hash then (.errUnauthorized, s)
      else (s.setUser i { u with salt := salt, hash := hashPassword salt newPassword }).save io

def authChangePassword (s : AuthState) (token oldPassword newPassword : Option Str) (now : ℤ)
    (salt : Salt) (lockOk : Bool) (io : UserIo) : SmStatus × AuthState :=
  match token, oldPassword, newPassword with
  | some token, some oldPassword, some newPassword =>
    if newPassword.length < 8 then (.errInvalidArg, s)
    else
      match authVerifySession s (some token) now with
      | (.error st, s) => (st, s)
      | (.ok caller, s) => changePasswordLocked s caller oldPassword newPassword salt lockOk io
  | _, _, _ => (.errNullParam, s)

def authDeleteUser (s : AuthState) (username : Option Str) (io : UserIo) : SmStatus × AuthState :=
  match username with
  | none => (.errNullParam, s)
  | some username =>
    match findUserLocked s.users username with
    | none => (.errNotFound, s)
    | some (i, u) => (s.setUser i { u with inUse := false }).save io

end SubscriberMgmt
