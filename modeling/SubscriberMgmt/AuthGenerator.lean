import SubscriberMgmt.AuthSessions
import SubscriberMgmt.AuthTokens
import SubscriberMgmt.HexDecode

/-!
# Sessions under tokens from the generator (`auth.c:105-148`, `auth.c:359-777`)

The random bytes of each critical section are those that `fill_random` writes in
the calling thread, in the order of the source.
-/

namespace SubscriberMgmt
open CText Lease

variable {T : Type*} [DecidableEq T]

/-! ### Drawing the bytes of a critical section -/

theorem length_fillLoop (state : UInt64) (left : ℕ) : (fillLoop state left).2.length = left := by
  fun_induction fillLoop state left with
  | case1 state => rfl
  | case2 state left hleft draw rest ih =>
    rw [List.length_append, length_splitBytes, ih]
    omega

/-- A call of `fill_random` by thread `i` for a buffer of `n` bytes. -/
def fillBuffer (i : T) (src : SeedSources) (n : ℕ) (g : Rngs T) : Vector UInt8 n × Rngs T :=
  let seeded := ensureThreadRngSeeded src g.gRngSeedCounter (g.thread i)
  (⟨(fillLoop seeded.2.tRngState n).2.toArray, length_fillLoop _ n⟩,
    (rngStep g ⟨i, src, true, n⟩).1)

/-- The draws of `seed_default_users_locked`. -/
def drawSeeds (i : T) (src : SeedSources) (input : InitInput) (g : Rngs T) : InitInput × Rngs T :=
  let adminSalt := fillBuffer i src smAuthSaltBytes g
  let operatorPassword := fillBuffer i src 9 adminSalt.2
  let operatorSalt := fillBuffer i src smAuthSaltBytes operatorPassword.2
  let viewerPassword := fillBuffer i src 9 operatorSalt.2
  let viewerSalt := fillBuffer i src smAuthSaltBytes viewerPassword.2
  ({ input with
      adminSalt := adminSalt.1
      operator := ⟨operatorPassword.1, operatorSalt.1⟩
      viewer := ⟨viewerPassword.1, viewerSalt.1⟩ }, viewerSalt.2)

/-- The draw of the recovery in `auth_login`, for an account that is not locked out. -/
def drawRecovery (i : T) (src : SeedSources) (u : UserRecord) (password : Str) (input : LoginInput)
    (g : Rngs T) : LoginInput × Rngs T :=
  if isRecovery u password then
    let salt := fillBuffer i src smAuthSaltBytes g
    ({ input with salt := salt.1 }, salt.2)
  else (input, g)

/-- The draw of the token in `auth_login`, after a slot was found. -/
def drawToken (i : T) (src : SeedSources) (s : AuthState) (username password : Str)
    (input : LoginInput) (g : Rngs T) : LoginInput × Rngs T :=
  match checkCredentials s username password input with
  | (.error _, _) => (input, g)
  | (.ok _, s) =>
    match s.findSlot (SessionSlot.takeable input.now) with
    | none => (input, g)
    | some _ =>
      let token := fillBuffer i src smAuthTokenBytes g
      ({ input with token := token.1 }, token.2)

def drawLogin (i : T) (src : SeedSources) (s : AuthState) (username password : Str)
    (input : LoginInput) (g : Rngs T) : LoginInput × Rngs T :=
  match findUserLocked s.users username with
  | none => (input, g)
  | some (_, u) =>
    if isLocked u input.now && !isRecovery u password then (input, g)
    else
      let recovery := drawRecovery i src u password input g
      drawToken i src s username password recovery.1 recovery.2

/-- Whether `auth_create_user` comes to its salt. -/
def createsUser (s : AuthState) (username password : Option Str) (role : SmRole) : Bool :=
  match username, password with
  | some username, some password =>
    validUsername username && !decide (password.length < 8) && role != .unknown &&
      (findUserLocked s.users username).isNone && !decide (smAuthMaxUsers ≤ s.users.length)
  | _, _ => false

/-- Whether the second critical section of `auth_change_password` comes to its salt. -/
def rewritesPassword (s : AuthState) (caller : AuthUser) (oldPassword : Str) (lockOk : Bool) :
    Bool :=
  lockOk && match findUserLocked s.users caller.username.chars with
    | none => false
    | some (_, u) => consttimeEq (hashPassword u.salt oldPassword) u.hash

/-- The critical section with the bytes that thread `i` draws in it for those it is given. -/
def drawOp (i : T) (src : SeedSources) (s : AuthState) (op : AuthOp) (g : Rngs T) :
    AuthOp × Rngs T :=
  match op with
  | .init (some path) input =>
    match readUsers s.disk.files path input with
    | some _ => (op, g)
    | none =>
      let seeds := drawSeeds i src input g
      (.init (some path) seeds.1, seeds.2)
  | .login (some username) (some password) true input =>
    let login := drawLogin i src s username password input g
    (.login (some username) (some password) true login.1, login.2)
  | .createUser username password role _ io =>
    if createsUser s username password role then
      let salt := fillBuffer i src smAuthSaltBytes g
      (.createUser username password role salt.1 io, salt.2)
    else (op, g)
  | .rewrite caller oldPassword newPassword _ lockOk io =>
    if rewritesPassword s caller oldPassword lockOk then
      let salt := fillBuffer i src smAuthSaltBytes g
      (.rewrite caller oldPassword newPassword salt.1 lockOk io, salt.2)
    else (op, g)
  | op => (op, g)

/-! ### Runs -/

structure Process (T : Type*) where
  auth : AuthState
  rngs : Rngs T

/-- A critical section of a thread. -/
structure ThreadCall (T : Type*) where
  caller : T
  src : SeedSources
  op : AuthOp

/-- The process after a critical section, and what its caller did to sessions. -/
def processStep (p : Process T) (call : ThreadCall T) : Process T × List (T × Event Str AuthUser) :=
  let drawn := drawOp call.caller call.src p.auth call.op p.rngs
  let r := authStep p.auth drawn.1
  (⟨r.1, drawn.2⟩, r.2.map fun e => (call.caller, e))

def Process.start (T : Type*) (files : Str → Option Str) (counter : UInt64) : Process T :=
  ⟨AuthState.start files, Rngs.start T counter⟩

def processRun (files : Str → Option Str) (counter : UInt64) (calls : List (ThreadCall T)) :
    Process T := Machine.final processStep (Process.start T files counter) calls

def processLog (files : Str → Option Str) (counter : UInt64) (calls : List (ThreadCall T)) :
    List (T × Event Str AuthUser) :=
  (Machine.outputs processStep (Process.start T files counter) calls).flatten

/-- What the critical sections of thread `i` did. -/
def ofThread (i : T) (log : List (T × Event Str AuthUser)) : List (Event Str AuthUser) :=
  (log.filter fun e => e.1 = i).map Prod.snd

/-! ### What is drawn -/

/-- `g'` is `g` after calls of `fill_random` by thread `i` for at most `n` numbers in all. -/
def DrawnBy (i : T) (n : ℕ) (g g' : Rngs T) : Prop :=
  ∃ fills : List (FillCall T), g' = Machine.final rngStep g fills ∧
    (∀ fill ∈ fills, fill.caller = i) ∧ totalDraws i fills ≤ n

theorem totalDraws_append (i : T) (fills fills' : List (FillCall T)) :
    totalDraws i (fills ++ fills') = totalDraws i fills + totalDraws i fills' := by
  rw [totalDraws, List.map_append, List.sum_append]
  rfl

theorem DrawnBy.refl (i : T) (n : ℕ) (g : Rngs T) : DrawnBy i n g g :=
  ⟨[], rfl, fun _ hfill => (by cases hfill), Nat.zero_le n⟩

theorem DrawnBy.trans {i : T} {n m : ℕ} {g g' g'' : Rngs T} (h : DrawnBy i n g g')
    (h' : DrawnBy i m g' g'') : DrawnBy i (n + m) g g'' := by
  obtain ⟨fills, rfl, hcaller, hle⟩ := h
  obtain ⟨fills', rfl, hcaller', hle'⟩ := h'
  refine ⟨fills ++ fills', (Machine.final_append ..).symm, fun fill hfill => ?_, ?_⟩
  · exact (List.mem_append.mp hfill).elim (hcaller fill) (hcaller' fill)
  · rw [totalDraws_append]
    omega

theorem DrawnBy.mono {i : T} {n m : ℕ} {g g' : Rngs T} (h : DrawnBy i n g g') (hnm : n ≤ m) :
    DrawnBy i m g g' := by
  obtain ⟨fills, hg, hcaller, hle⟩ := h
  exact ⟨fills, hg, hcaller, Nat.le_trans hle hnm⟩

theorem fillBuffer_drawn (i : T) (src : SeedSources) (n : ℕ) (g : Rngs T) :
    DrawnBy i ((n + 7) / 8) g (fillBuffer i src n g).2 := by
  refine ⟨[⟨i, src, true, n⟩], rfl, fun fill hfill => ?_, ?_⟩
  · rw [List.mem_singleton.mp hfill]
  · simp [totalDraws, FillCall.draws]

theorem drawSeeds_drawn (i : T) (src : SeedSources) (input : InitInput) (g : Rngs T) :
    DrawnBy i 10 g (drawSeeds i src input g).2 := by
  have hadmin := fillBuffer_drawn i src smAuthSaltBytes g
  have hoperator := (hadmin.trans (fillBuffer_drawn i src 9 _)).trans
    (fillBuffer_drawn i src smAuthSaltBytes _)
  exact (hoperator.trans (fillBuffer_drawn i src 9 _)).trans
    (fillBuffer_drawn i src smAuthSaltBytes _)

theorem drawRecovery_drawn (i : T) (src : SeedSources) (u : UserRecord) (password : Str)
    (input : LoginInput) (g : Rngs T) : DrawnBy i 2 g (drawRecovery i src u password input g).2 := by
  unfold drawRecovery
  split
  case isTrue => exact fillBuffer_drawn i src smAuthSaltBytes g
  case isFalse => exact DrawnBy.refl ..

theorem drawToken_drawn (i : T) (src : SeedSources) (s : AuthState) (username password : Str)
    (input : LoginInput) (g : Rngs T) :
    DrawnBy i 4 g (drawToken i src s username password input g).2 := by
  unfold drawToken
  split
  case h_1 => exact DrawnBy.refl ..
  case h_2 =>
    split
    case h_1 => exact DrawnBy.refl ..
    case h_2 => exact fillBuffer_drawn i src smAuthTokenBytes g

theorem drawLogin_drawn (i : T) (src : SeedSources) (s : AuthState) (username password : Str)
    (input : LoginInput) (g : Rngs T) :
    DrawnBy i 6 g (drawLogin i src s username password input g).2 := by
  unfold drawLogin
  split
  case h_1 => exact DrawnBy.refl ..
  case h_2 =>
    split
    case isTrue => exact DrawnBy.refl ..
    case isFalse => exact (drawRecovery_drawn ..).trans (drawToken_drawn ..)

theorem drawOp_drawn (i : T) (src : SeedSources) (s : AuthState) (op : AuthOp) (g : Rngs T) :
    DrawnBy i 10 g (drawOp i src s op g).2 := by
  unfold drawOp
  split
  case h_1 path input =>
    split
    case h_1 => exact DrawnBy.refl ..
    case h_2 => exact drawSeeds_drawn i src input g
  case h_2 => exact (drawLogin_drawn ..).mono (by decide)
  case h_3 =>
    split
    case isTrue => exact (fillBuffer_drawn ..).mono (by decide)
    case isFalse => exact DrawnBy.refl ..
  case h_4 =>
    split
    case isTrue => exact (fillBuffer_drawn ..).mono (by decide)
    case isFalse => exact DrawnBy.refl ..
  case h_5 => exact DrawnBy.refl ..

/-! ### The token of a login -/

theorem checkCredentials_token (s : AuthState) (username password : Str) (input : LoginInput)
    (token : Vector UInt8 smAuthTokenBytes) :
    checkCredentials s username password { input with token := token } =
      checkCredentials s username password input := rfl

/-- A login that succeeds came to its token, and the session has that token. -/
theorem drawToken_ok {i : T} {src : SeedSources} {s : AuthState} {username password : Str}
    {input : LoginInput} {g : Rngs T} {session : Session}
    (hok : (authLogin s (some username) (some password) true
      (drawToken i src s username password input g).1).1 = .ok session) :
    (drawToken i src s username password input g).2 = (fillBuffer i src smAuthTokenBytes g).2 ∧
      session.token = smHexEncode (fillBuffer i src smAuthTokenBytes g).1.toList := by
  unfold drawToken at hok ⊢
  cases hcred : checkCredentials s username password input with
  | mk r s' =>
    cases r with
    | error st => simp [hcred, authLogin] at hok
    | ok u =>
      simp only [hcred] at hok ⊢
      cases hslot : s'.findSlot (SessionSlot.takeable input.now) with
      | none => simp [hslot, authLogin, hcred, openSession] at hok
      | some j =>
        simp only [hslot, authLogin, checkCredentials_token, hcred, openSession] at hok ⊢
        cases hok
        exact ⟨trivial, rfl⟩

theorem authLogin_drawn {i : T} {src : SeedSources} {s : AuthState} {username password : Str}
    {input : LoginInput} {g : Rngs T} {session : Session}
    (hok : (authLogin s (some username) (some password) true
      (drawLogin i src s username password input g).1).1 = .ok session) :
    ∃ g', DrawnBy i 2 g g' ∧
      (drawLogin i src s username password input g).2 = (fillBuffer i src smAuthTokenBytes g').2 ∧
      session.token = smHexEncode (fillBuffer i src smAuthTokenBytes g').1.toList := by
  unfold drawLogin at hok ⊢
  cases huser : findUserLocked s.users username with
  | none => simp [huser, authLogin, checkCredentials] at hok
  | some found =>
    obtain ⟨n, u⟩ := found
    simp only [huser] at hok ⊢
    cases hlocked : isLocked u input.now && !isRecovery u password with
    | true => simp [huser, hlocked, authLogin, checkCredentials] at hok
    | false =>
      simp only [hlocked, Bool.false_eq_true, if_false] at hok ⊢
      exact ⟨_, drawRecovery_drawn i src u password input g, drawToken_ok hok⟩

/-! ### No byte but the drawn ones -/

/-- The same critical section with other bytes given for those it draws. -/
inductive SameRequest : AuthOp → AuthOp → Prop where
  | refl (op : AuthOp) : SameRequest op op
  | init (path : Option Str) {input input' : InitInput} (hread : input'.readOk = input.readOk)
      (hstale : input'.stale = input.stale) (hsave : input'.save = input.save) :
      SameRequest (.init path input) (.init path input')
  | login (username password : Option Str) (outSession : Bool) {input input' : LoginInput}
      (hnow : input'.now = input.now) (hrecovery : input'.recoverySave = input.recoverySave)
      (hsave : input'.save = input.save) :
      SameRequest (.login username password outSession input)
        (.login username password outSession input')
  | createUser (username password : Option Str) (role : SmRole) (salt salt' : Salt) (io : UserIo) :
      SameRequest (.createUser username password role salt io)
        (.createUser username password role salt' io)
  | rewrite (caller : AuthUser) (oldPassword newPassword : Str) (salt salt' : Salt) (lockOk : Bool)
      (io : UserIo) : SameRequest (.rewrite caller oldPassword newPassword salt lockOk io)
        (.rewrite caller oldPassword newPassword salt' lockOk io)

theorem authInit_loaded {s : AuthState} {path : Str} {input : InitInput} {users : List UserRecord}
    (h : readUsers s.disk.files path input = some users) :
    authInit s (some path) input = (.ok, { s with
      usersPath := CharField.copy 511 path
      sessions := clearedSessions
      users := users
      initialized := true }) := by
  simp only [authInit, h]

theorem drawOp_init {i : T} {src : SeedSources} {s : AuthState} {path : Str}
    {input input' : InitInput} {g : Rngs T} (hread : input'.readOk = input.readOk)
    (hstale : input'.stale = input.stale) (hsave : input'.save = input.save) :
    authStep s (drawOp i src s (.init (some path) input') g).1 =
        authStep s (drawOp i src s (.init (some path) input) g).1 ∧
      (drawOp i src s (.init (some path) input') g).2 =
        (drawOp i src s (.init (some path) input) g).2 := by
  have hsame : readUsers s.disk.files path input' = readUsers s.disk.files path input := by
    rw [readUsers, readUsers, hread, hstale]
  simp only [drawOp, hsame]
  cases hload : readUsers s.disk.files path input with
  | some users =>
    simp only [authStep, authInit_loaded hload, authInit_loaded (hsame.trans hload)]
    exact ⟨trivial, trivial⟩
  | none =>
    have hseeds : (drawSeeds i src input' g) = (drawSeeds i src input g) := by
      simp only [drawSeeds, hread, hstale, hsave]
    simp only [hseeds]
    exact ⟨trivial, trivial⟩

theorem authLogin_eq {s : AuthState} {username password : Str} {input : LoginInput}
    {r : Except SmStatus UserRecord} {s' : AuthState}
    (h : checkCredentials s username password input = (r, s')) :
    authLogin s (some username) (some password) true input =
      match r with
      | .error st => (.error st, s')
      | .ok u => openSession s' u input := by
  simp only [authLogin, h]
  cases r <;> rfl

theorem openSession_same (s : AuthState) (u : UserRecord) {input input' : LoginInput}
    (hnow : input'.now = input.now) (htoken : input'.token = input.token)
    (hsave : input'.save = input.save) : openSession s u input' = openSession s u input := by
  simp only [openSession, newSession, hnow, htoken, hsave]

theorem drawLogin_now (i : T) (src : SeedSources) (s : AuthState) (username password : Str)
    (input : LoginInput) (g : Rngs T) :
    (drawLogin i src s username password input g).1.now = input.now := by
  have hrecovery : ∀ u, (drawRecovery i src u password input g).1.now = input.now := by
    intro u
    unfold drawRecovery
    split <;> rfl
  have htoken : ∀ input g, (drawToken i src s username password input g).1.now = input.now := by
    intro input g
    unfold drawToken
    split
    case h_1 => rfl
    case h_2 => split <;> rfl
  unfold drawLogin
  split
  case h_1 => rfl
  case h_2 =>
    split
    case isTrue => rfl
    case isFalse => exact (htoken _ _).trans (hrecovery _)

theorem drawToken_same {i : T} {src : SeedSources} {s : AuthState} {username password : Str}
    {input input' : LoginInput} (hcred : checkCredentials s username password input' =
      checkCredentials s username password input)
    (hnow : input'.now = input.now) (hsave : input'.save = input.save) (g : Rngs T) :
    authLogin s (some username) (some password) true
        (drawToken i src s username password input' g).1 =
      authLogin s (some username) (some password) true
        (drawToken i src s username password input g).1 ∧
    (drawToken i src s username password input' g).2 =
      (drawToken i src s username password input g).2 := by
  have htake : SessionSlot.takeable input'.now = SessionSlot.takeable input.now := by rw [hnow]
  unfold drawToken
  rw [hcred, htake]
  cases hresult : checkCredentials s username password input with
  | mk r s' =>
    rw [hresult] at hcred
    cases r with
    | error st => exact ⟨(authLogin_eq hcred).trans (authLogin_eq hresult).symm, rfl⟩
    | ok u =>
      dsimp only
      cases hslot : s'.findSlot (SessionSlot.takeable input.now) with
      | none =>
        refine ⟨(authLogin_eq hcred).trans (Eq.trans ?_ (authLogin_eq hresult).symm), rfl⟩
        simp only [openSession, hnow, hslot]
      | some j =>
        refine ⟨?_, rfl⟩
        dsimp only
        rw [authLogin_eq ((checkCredentials_token ..).trans hcred),
          authLogin_eq ((checkCredentials_token ..).trans hresult)]
        exact openSession_same s' u hnow rfl hsave

theorem drawRecovery_same (i : T) (src : SeedSources) {s : AuthState} {username : Str}
    (password : Str) {input input' : LoginInput} {n : ℕ} {u : UserRecord}
    (huser : findUserLocked s.users username = some (n, u)) (hnow : input'.now = input.now)
    (hrecovery : input'.recoverySave = input.recoverySave) (hsave : input'.save = input.save)
    (g : Rngs T) :
    checkCredentials s username password (drawRecovery i src u password input' g).1 =
        checkCredentials s username password (drawRecovery i src u password input g).1 ∧
      (drawRecovery i src u password input' g).1.now =
        (drawRecovery i src u password input g).1.now ∧
      (drawRecovery i src u password input' g).1.save =
        (drawRecovery i src u password input g).1.save ∧
      (drawRecovery i src u password input' g).2 = (drawRecovery i src u password input g).2 := by
  unfold drawRecovery
  cases hrec : isRecovery u password with
  | true =>
    simp only [if_true, checkCredentials, huser, recoverAdmin, hnow, hrecovery, hsave]
    exact ⟨trivial, trivial, trivial, trivial⟩
  | false =>
    simp only [Bool.false_eq_true, if_false, checkCredentials, huser, hrec, hnow, hsave]
    exact ⟨trivial, trivial, trivial, trivial⟩

theorem drawLogin_same (i : T) (src : SeedSources) (s : AuthState) (username password : Str)
    {input input' : LoginInput} (hnow : input'.now = input.now)
    (hrecovery : input'.recoverySave = input.recoverySave) (hsave : input'.save = input.save)
    (g : Rngs T) :
    authLogin s (some username) (some password) true
        (drawLogin i src s username password input' g).1 =
      authLogin s (some username) (some password) true
        (drawLogin i src s username password input g).1 ∧
    (drawLogin i src s username password input' g).2 =
      (drawLogin i src s username password input g).2 := by
  unfold drawLogin
  cases huser : findUserLocked s.users username with
  | none => simp [authLogin, checkCredentials, huser]
  | some found =>
    obtain ⟨n, u⟩ := found
    rw [hnow]
    dsimp only
    cases hlocked : isLocked u input.now && !isRecovery u password with
    | true =>
      simp only [if_true, authLogin, checkCredentials, huser, hnow, hlocked]
      exact ⟨trivial, trivial⟩
    | false =>
      obtain ⟨hcred, hnow', hsave', hrngs⟩ := drawRecovery_same i src password huser hnow
        hrecovery hsave g
      simp only [Bool.false_eq_true, if_false]
      rw [hrngs]
      exact drawToken_same hcred hnow' hsave' _

/-- Without its salt, `auth_create_user` adds no account. -/
theorem authCreateUser_refused {s : AuthState} {username password : Option Str} {role : SmRole}
    (h : createsUser s username password role = false) (salt salt' : Salt) (io : UserIo) :
    authCreateUser s username password role salt' io =
      authCreateUser s username password role salt io := by
  unfold authCreateUser
  cases username with
  | none => rfl
  | some username =>
    cases password with
    | none => rfl
    | some password =>
      dsimp only
      split
      case isTrue => rfl
      case isFalse hvalid =>
        cases huser : findUserLocked s.users username with
        | some found => simp only
        | none =>
          dsimp only
          split
          case isTrue => rfl
          case isFalse hroom =>
            refine absurd h ?_
            simp only [Bool.or_eq_true, Bool.not_eq_true', not_or, Bool.not_eq_false,
              decide_eq_true_eq] at hvalid
            simp [createsUser, hvalid.1.1, hvalid.1.2, huser, hroom]
            simpa using hvalid.2

theorem changePasswordLocked_refused {s : AuthState} {caller : AuthUser}
    {oldPassword newPassword : Str} {lockOk : Bool}
    (h : rewritesPassword s caller oldPassword lockOk = false) (salt salt' : Salt) (io : UserIo) :
    changePasswordLocked s caller oldPassword newPassword salt' lockOk io =
      changePasswordLocked s caller oldPassword newPassword salt lockOk io := by
  unfold changePasswordLocked
  cases lockOk with
  | false => simp only [Bool.not_false, if_true]
  | true =>
    cases huser : findUserLocked s.users caller.username.chars with
    | none => simp only
    | some found =>
      obtain ⟨n, u⟩ := found
      have hwrong : consttimeEq (hashPassword u.salt oldPassword) u.hash = false := by
        simpa [rewritesPassword, huser] using h
      simp [hwrong]

theorem authLogin_null {username password : Option Str} {outSession : Bool}
    (h : ¬∃ u p, username = some u ∧ password = some p ∧ outSession = true) (s : AuthState)
    (input : LoginInput) :
    authLogin s username password outSession input = (.error .errNullParam, s) := by
  cases username with
  | none => rfl
  | some u =>
    cases password with
    | none => rfl
    | some p =>
      cases outSession with
      | false => rfl
      | true => exact absurd ⟨u, p, rfl, rfl, rfl⟩ h

theorem drawOp_null {username password : Option Str} {outSession : Bool}
    (h : ¬∃ u p, username = some u ∧ password = some p ∧ outSession = true) (i : T)
    (src : SeedSources) (s : AuthState) (input : LoginInput) (g : Rngs T) :
    drawOp i src s (.login username password outSession input) g =
      (.login username password outSession input, g) := by
  cases username with
  | none => rfl
  | some u =>
    cases password with
    | none => rfl
    | some p =>
      cases outSession with
      | false => rfl
      | true => exact absurd ⟨u, p, rfl, rfl, rfl⟩ h

/-- What a critical section does does not depend on the bytes given for those it draws. -/
theorem drawOp_same (i : T) (src : SeedSources) (s : AuthState) {op op' : AuthOp} (g : Rngs T)
    (h : SameRequest op op') :
    authStep s (drawOp i src s op' g).1 = authStep s (drawOp i src s op g).1 ∧
      (drawOp i src s op' g).2 = (drawOp i src s op g).2 := by
  cases h with
  | refl => exact ⟨rfl, rfl⟩
  | init path hread hstale hsave =>
    cases path with
    | none => exact ⟨rfl, rfl⟩
    | some path => exact drawOp_init hread hstale hsave
  | @login username password outSession input input' hnow hrecovery hsave =>
    by_cases hfull : ∃ u p, username = some u ∧ password = some p ∧ outSession = true
    · obtain ⟨u, p, rfl, rfl, rfl⟩ := hfull
      obtain ⟨hlogin, hrngs⟩ := drawLogin_same i src s u p hnow hrecovery hsave g
      have hevents : ∀ r, loginEvents (drawLogin i src s u p input' g).1.now r =
          loginEvents (drawLogin i src s u p input g).1.now r := by
        intro r
        rw [drawLogin_now, drawLogin_now, hnow]
      refine ⟨?_, hrngs⟩
      show ((authLogin s (some u) (some p) true (drawLogin i src s u p input' g).1).2, _) =
        ((authLogin s (some u) (some p) true (drawLogin i src s u p input g).1).2, _)
      rw [hlogin, hevents]
    · rw [drawOp_null hfull, drawOp_null hfull]
      simp only [authStep, authLogin_null hfull, loginEvents]
      exact ⟨trivial, trivial⟩
  | createUser username password role salt salt' io =>
    simp only [drawOp]
    cases hcreate : createsUser s username password role with
    | true => exact ⟨rfl, rfl⟩
    | false => exact ⟨congrArg (fun r => (r.2, _)) (authCreateUser_refused hcreate ..), rfl⟩
  | rewrite caller oldPassword newPassword salt salt' lockOk io =>
    simp only [drawOp]
    cases hrewrite : rewritesPassword s caller oldPassword lockOk with
    | true => exact ⟨rfl, rfl⟩
    | false => exact ⟨congrArg (fun r => (r.2, _)) (changePasswordLocked_refused hrewrite ..), rfl⟩

structure ThreadCall.Same (call call' : ThreadCall T) : Prop where
  caller : call'.caller = call.caller
  src : call'.src = call.src
  op : SameRequest call.op call'.op

theorem processStep_same (p : Process T) {call call' : ThreadCall T} (h : call.Same call') :
    processStep p call' = processStep p call := by
  obtain ⟨hstep, hrngs⟩ := drawOp_same call.caller call.src p.auth p.rngs h.op
  rw [processStep, processStep, h.caller, h.src, hrngs, hstep]

/-- The same holds of a whole process. -/
theorem processRun_same (files : Str → Option Str) (counter : UInt64)
    {calls calls' : List (ThreadCall T)} (h : List.Forall₂ ThreadCall.Same calls calls') :
    processRun files counter calls' = processRun files counter calls ∧
      processLog files counter calls' = processLog files counter calls := by
  have hfrom : ∀ p : Process T,
      Machine.final processStep p calls' = Machine.final processStep p calls ∧
        Machine.outputs processStep p calls' = Machine.outputs processStep p calls := by
    intro p
    induction h generalizing p with
    | nil => exact ⟨rfl, rfl⟩
    | cons hcall _ ih =>
      have hstep := processStep_same p hcall
      simp only [Machine.final_cons, Machine.outputs, hstep, ih]
      exact ⟨trivial, trivial⟩
  exact ⟨(hfrom _).1, congrArg List.flatten (hfrom _).2⟩

/-! ### Tokens of a run -/

theorem fillBuffer_bytes (i : T) (src : SeedSources) (n : ℕ) (g : Rngs T) :
    (rngStep g ⟨i, src, true, n⟩).2 = some (fillBuffer i src n g).1.toList := rfl

theorem smHexEncode_injective : Function.Injective smHexEncode := by
  intro data data' h
  rw [← (smHexEncode_digits data).2, h, (smHexEncode_digits data').2]

/-- `k` is the token that thread `i` drew at some place of `fills`. -/
def DrawnToken (start : Rngs T) (fills : List (FillCall T)) (i : T) (k : Str) : Prop :=
  ∃ before src after, fills = before ++ ⟨i, src, true, smAuthTokenBytes⟩ :: after ∧
    k = smHexEncode (fillBuffer i src smAuthTokenBytes
      (Machine.final rngStep start before)).1.toList

theorem DrawnToken.append {start : Rngs T} {fills : List (FillCall T)} {i : T} {k : Str}
    (h : DrawnToken start fills i k) (fills' : List (FillCall T)) :
    DrawnToken start (fills ++ fills') i k := by
  obtain ⟨before, src, after, rfl, hk⟩ := h
  exact ⟨before, src, after ++ fills', by simp, hk⟩

theorem tokenBytes_le : 8 ≤ smAuthTokenBytes := by decide

/-- A later token of the thread is another one, while fewer numbers than the period are drawn. -/
theorem DrawnToken.ne {counter : UInt64} {fills : List (FillCall T)} {i : T} {k : Str}
    (h : DrawnToken (Rngs.start T counter) fills i k) (hfew : totalDraws i fills < statePeriod)
    (src : SeedSources) :
    k ≠ smHexEncode (fillBuffer i src smAuthTokenBytes
      (Machine.final rngStep (Rngs.start T counter) fills)).1.toList := by
  obtain ⟨before, src', after, rfl, rfl⟩ := h
  intro hsame
  have hbytes := congrArg some (smHexEncode_injective hsame)
  rw [← fillBuffer_bytes, ← fillBuffer_bytes, Machine.final_append] at hbytes
  have hdvd := (thread_bytes_repeat_iff counter before after ⟨i, src', true, smAuthTokenBytes⟩
    ⟨i, src, true, smAuthTokenBytes⟩ rfl rfl rfl rfl tokenBytes_le).mp hbytes.symm
  have hpos : 0 < totalDraws i (⟨i, src', true, smAuthTokenBytes⟩ :: after) := by
    rw [totalDraws, List.map_cons, List.sum_cons, FillCall.draws, if_pos ⟨rfl, rfl⟩]
    exact Nat.add_pos_left (by decide : 0 < (smAuthTokenBytes + 7) / 8) _
  have hle : statePeriod ≤ totalDraws i (⟨i, src', true, smAuthTokenBytes⟩ :: after) :=
    Nat.le_of_dvd hpos hdvd
  rw [totalDraws_append] at hfew
  omega

theorem totalDraws_other {i j : T} (hij : i ≠ j) {fills : List (FillCall T)}
    (h : ∀ fill ∈ fills, fill.caller = i) : totalDraws j fills = 0 := by
  refine List.sum_eq_zero fun n hn => ?_
  obtain ⟨fill, hfill, rfl⟩ := List.mem_map.mp hn
  exact if_neg fun hj => hij ((h fill hfill).symm.trans hj.1)

theorem authStep_issuedKeys (i : T) (src : SeedSources) (s : AuthState) (op : AuthOp) (g : Rngs T) :
    issuedKeys (authStep s (drawOp i src s op g).1).2 = [] ∨
      ∃ g', DrawnBy i 2 g g' ∧
        (drawOp i src s op g).2 = (fillBuffer i src smAuthTokenBytes g').2 ∧
        issuedKeys (authStep s (drawOp i src s op g).1).2 =
          [smHexEncode (fillBuffer i src smAuthTokenBytes g').1.toList] := by
  unfold drawOp
  split
  case h_1 => split <;> exact Or.inl rfl
  case h_2 username password input =>
    cases hr : (authLogin s (some username) (some password) true
        (drawLogin i src s username password input g).1).1 with
    | error st =>
      left
      simp only [authStep, hr, loginEvents]
      rfl
    | ok session =>
      obtain ⟨g', hdrawn, hrngs, htoken⟩ := authLogin_drawn hr
      refine Or.inr ⟨g', hdrawn, hrngs, ?_⟩
      simp only [authStep, hr, loginEvents, htoken]
      rfl
  case h_3 => split <;> exact Or.inl rfl
  case h_4 => split <;> exact Or.inl rfl
  case h_5 hinit hlogin _ _ =>
    left
    cases op with
    | init path input => cases path <;> rfl
    | login username password outSession input =>
      have herr : ∃ st, (authLogin s username password outSession input).1 = .error st := by
        cases username with
        | none => exact ⟨_, rfl⟩
        | some username =>
          cases password with
          | none => exact ⟨_, rfl⟩
          | some password =>
            cases outSession with
            | false => exact ⟨_, rfl⟩
            | true => exact absurd rfl (hlogin username password input)
      obtain ⟨st, herr⟩ := herr
      simp only [authStep, herr, loginEvents]
      rfl
    | verify token now =>
      simp only [authStep]
      cases (authVerifySession s token now).1 with
      | error st => rfl
      | ok user => cases token <;> rfl
    | logout token => cases token <;> rfl
    | shutdown | createUser | rewrite | deleteUser => rfl

/-- What holds after `n` critical sections. -/
structure Generated (counter : UInt64) (n : ℕ) (p : Process T)
    (log : List (T × Event Str AuthUser)) (fills : List (FillCall T)) : Prop where
  rngs : p.rngs = Machine.final rngStep (Rngs.start T counter) fills
  few : ∀ i, totalDraws i fills ≤ 10 * n
  drawn : ∀ i, ∀ k ∈ issuedKeys (ofThread i log), DrawnToken (Rngs.start T counter) fills i k
  nodup : ∀ i, (issuedKeys (ofThread i log)).Nodup

theorem ofThread_append (i : T) (log log' : List (T × Event Str AuthUser)) :
    ofThread i (log ++ log') = ofThread i log ++ ofThread i log' := by
  rw [ofThread, List.filter_append, List.map_append]
  rfl

theorem ofThread_self (i : T) (es : List (Event Str AuthUser)) :
    ofThread i (es.map fun e => (i, e)) = es := by
  induction es with
  | nil => rfl
  | cons e es ih => simpa [ofThread] using ih

theorem ofThread_other {i j : T} (hij : i ≠ j) (es : List (Event Str AuthUser)) :
    ofThread j (es.map fun e => (i, e)) = [] := by
  induction es with
  | nil => rfl
  | cons e es ih => simp [ofThread, hij]

/-- The calls of `fill_random` in a critical section, the one for a token last. -/
theorem drawOp_fills (i : T) (src : SeedSources) (s : AuthState) (op : AuthOp) (g : Rngs T) :
    ∃ fills : List (FillCall T), (drawOp i src s op g).2 = Machine.final rngStep g fills ∧
      (∀ fill ∈ fills, fill.caller = i) ∧ totalDraws i fills ≤ 10 ∧
      (issuedKeys (authStep s (drawOp i src s op g).1).2 = [] ∨
        ∃ early, fills = early ++ [⟨i, src, true, smAuthTokenBytes⟩] ∧
          issuedKeys (authStep s (drawOp i src s op g).1).2 =
            [smHexEncode (fillBuffer i src smAuthTokenBytes
              (Machine.final rngStep g early)).1.toList]) := by
  rcases authStep_issuedKeys i src s op g with hnone | ⟨g', ⟨early, rfl, hcaller, hle⟩, hrngs, hissued⟩
  · obtain ⟨fills, hrngs, hcaller, hle⟩ := drawOp_drawn i src s op g
    exact ⟨fills, hrngs, hcaller, hle, Or.inl hnone⟩
  · refine ⟨early ++ [⟨i, src, true, smAuthTokenBytes⟩], ?_, fun fill hfill => ?_, ?_,
      Or.inr ⟨early, rfl, hissued⟩⟩
    · rw [hrngs, Machine.final_concat]
      rfl
    · rcases List.mem_append.mp hfill with hfill | hfill
      · exact hcaller fill hfill
      · rw [List.mem_singleton.mp hfill]
    · rw [totalDraws_append]
      have htoken : totalDraws i [⟨i, src, true, smAuthTokenBytes⟩] = 4 := by
        simp [totalDraws, FillCall.draws, smAuthTokenBytes]
      omega

namespace Generated

variable {counter : UInt64} {n : ℕ} {p : Process T} {log : List (T × Event Str AuthUser)}
  {fills : List (FillCall T)}

/-- The tokens of the callers after a critical section that issued `keys`. -/
theorem keys (h : Generated counter n p log fills) {i : T} {new : List (FillCall T)}
    {es : List (Event Str AuthUser)}
    (hkeys : ∀ k ∈ issuedKeys es, k ∉ issuedKeys (ofThread i log) ∧
      DrawnToken (Rngs.start T counter) (fills ++ new) i k)
    (hone : (issuedKeys es).Nodup) (j : T) :
    (∀ k ∈ issuedKeys (ofThread j (log ++ es.map fun e => (i, e))),
        DrawnToken (Rngs.start T counter) (fills ++ new) j k) ∧
      (issuedKeys (ofThread j (log ++ es.map fun e => (i, e)))).Nodup := by
  rw [ofThread_append, issuedKeys_append]
  by_cases hij : i = j
  · subst hij
    rw [ofThread_self]
    constructor
    · intro k hk
      rcases List.mem_append.mp hk with hk | hk
      · exact (h.drawn i k hk).append new
      · exact (hkeys k hk).2
    · refine List.nodup_append.mpr ⟨h.nodup i, hone, fun k hk k' hk' hsame => ?_⟩
      subst hsame
      exact (hkeys k hk').1 hk
  · rw [ofThread_other hij]
    simp only [issuedKeys, List.filterMap_nil, List.append_nil]
    exact ⟨fun k hk => (h.drawn j k hk).append new, h.nodup j⟩

theorem step (h : Generated counter n p log fills) (hn : 10 * (n + 1) < statePeriod)
    (call : ThreadCall T) :
    ∃ fills', Generated counter (n + 1) (processStep p call).1 (log ++ (processStep p call).2)
      fills' := by
  obtain ⟨i, src, op⟩ := call
  obtain ⟨new, hnew, hcaller, hle, hissued⟩ := drawOp_fills i src p.auth op p.rngs
  have hrngs : (processStep p ⟨i, src, op⟩).1.rngs =
      Machine.final rngStep (Rngs.start T counter) (fills ++ new) := by
    rw [Machine.final_append, ← h.rngs]
    exact hnew
  have hfew : ∀ j, totalDraws j (fills ++ new) ≤ 10 * (n + 1) := by
    intro j
    have hj := h.few j
    rw [totalDraws_append]
    by_cases hij : i = j
    · subst hij
      omega
    · rw [totalDraws_other hij hcaller]
      omega
  have hkeys : ∀ k ∈ issuedKeys (authStep p.auth (drawOp i src p.auth op p.rngs).1).2,
      k ∉ issuedKeys (ofThread i log) ∧ DrawnToken (Rngs.start T counter) (fills ++ new) i k := by
    intro k hk
    rcases hissued with hnone | ⟨early, rfl, htoken⟩
    · rw [hnone] at hk
      cases hk
    · rw [htoken, List.mem_singleton, h.rngs, ← Machine.final_append] at hk
      constructor
      · intro hold
        refine ((h.drawn i k hold).append early).ne ?_ src hk
        have htotal := hfew i
        rw [← List.append_assoc, totalDraws_append] at htotal
        omega
      · exact ⟨fills ++ early, src, [], by simp, hk⟩
  have hone : (issuedKeys (authStep p.auth (drawOp i src p.auth op p.rngs).1).2).Nodup := by
    rcases hissued with hnone | ⟨early, -, htoken⟩
    · rw [hnone]
      exact List.nodup_nil
    · rw [htoken]
      exact List.nodup_singleton _
  exact ⟨fills ++ new, hrngs, hfew, fun j => (h.keys hkeys hone j).1,
    fun j => (h.keys hkeys hone j).2⟩

end Generated

/-! ### Sessions -/

theorem drawOp_times (i : T) (src : SeedSources) (s : AuthState) (op : AuthOp) (g : Rngs T) :
    (drawOp i src s op g).1.times = op.times := by
  unfold drawOp
  split
  case h_1 => split <;> rfl
  case h_2 => exact congrArg (fun t => [t]) (drawLogin_now ..)
  case h_3 => split <;> rfl
  case h_4 => split <;> rfl
  case h_5 => rfl

theorem processRun_generated (files : Str → Option Str) (counter : UInt64)
    (calls : List (ThreadCall T)) (hfew : 10 * calls.length < statePeriod) :
    ∃ fills, Generated counter calls.length (processRun files counter calls)
      (processLog files counter calls) fills := by
  refine Machine.log_invariant (P := fun calls p log => 10 * calls.length < statePeriod →
      ∃ fills, Generated counter calls.length p log fills) (Q := fun _ => True)
    (fun _ _ _ => trivial) (fun pre p log call h _ hlen => ?_)
    (fun _ => ⟨[], rfl, fun _ => Nat.zero_le _, fun _ _ hk => (by cases hk),
      fun _ => List.nodup_nil⟩) calls trivial hfew
  rw [List.length_append, List.length_singleton] at hlen ⊢
  obtain ⟨fills, hgen⟩ := h (by omega)
  exact hgen.step hlen call

theorem processRun_sessions (files : Str → Option Str) (counter : UInt64)
    (calls : List (ThreadCall T))
    (hfresh : (issuedKeys ((processLog files counter calls).map Prod.snd)).Nodup) :
    SessionsInv (processRun files counter calls).auth
      ((processLog files counter calls).map Prod.snd) (calls.flatMap fun c => c.op.times) := by
  refine Machine.log_invariant (P := fun calls p log => SessionsInv p.auth (log.map Prod.snd)
      (calls.flatMap fun c => c.op.times)) (Q := fun log => (issuedKeys (log.map Prod.snd)).Nodup)
    (fun log log' h => ?_) (fun pre p log call h hgood => ?_) (SessionsInv.start files) calls hfresh
  · rw [List.map_append] at h
    exact issuedKeys_nodup_left h
  · have hevents : (log ++ (processStep p call).2).map Prod.snd =
        log.map Prod.snd ++ (authStep p.auth (drawOp call.caller call.src p.auth call.op
          p.rngs).1).2 := by
      simp [processStep, Function.comp_def]
    rw [hevents] at hgood ⊢
    apply (h.step _ hgood).mono rfl
    intro t ht
    rw [drawOp_times] at ht
    simp only [List.flatMap_append, List.flatMap_singleton, List.mem_append] at ht ⊢
    exact ht.symm

theorem processLog_caller (files : Str → Option Str) (counter : UInt64)
    (calls : List (ThreadCall T)) {i : T} (hi : ∀ c ∈ calls, c.caller = i) :
    ofThread i (processLog files counter calls) =
      (processLog files counter calls).map Prod.snd := by
  have hall : ∀ e ∈ processLog files counter calls, e.1 = i := by
    intro e he
    obtain ⟨events, hevents, he⟩ := List.mem_flatten.mp he
    obtain ⟨pre, call, post, rfl, rfl⟩ := Machine.mem_outputs hevents
    obtain ⟨event, -, rfl⟩ := List.mem_map.mp he
    exact hi call (by simp)
  rw [ofThread, List.filter_eq_self.mpr fun e he => decide_eq_true (hall e he)]

/-- In a process of at most `2 ^ 60` critical sections, whose random bytes are those of the
generators of its threads: no thread issues a token twice. Where one thread does all of them, a
token is verified as that of `user` exactly when a login issued it to `user`, no logout or
`auth_init` came since, and at most 1800 seconds have passed since that login and each
verification of it. The random values that stand in the calls themselves do not matter. -/
theorem generated_sessions (files : Str → Option Str) (counter : UInt64)
    (calls : List (ThreadCall T)) (hfew : calls.length ≤ 2 ^ 60) :
    (∀ i, (issuedKeys (ofThread i (processLog files counter calls))).Nodup) ∧
      (∀ i now, (∀ c ∈ calls, c.caller = i) → (∀ c ∈ calls, ∀ t ∈ c.op.times, t ≤ now) →
        ∀ token user, (authVerifySession (processRun files counter calls).auth (some token)
            now).1 = .ok user ↔
          ∃ last, Held ((processLog files counter calls).map Prod.snd) token user last ∧
            now ≤ last + smAuthSessionSeconds) ∧
      ∀ calls', List.Forall₂ ThreadCall.Same calls calls' →
        processRun files counter calls' = processRun files counter calls ∧
          processLog files counter calls' = processLog files counter calls := by
  have hbound : 10 * calls.length < statePeriod := by
    have hperiod : 10 * 2 ^ 60 < statePeriod := by decide
    omega
  obtain ⟨fills, hgen⟩ := processRun_generated files counter calls hbound
  refine ⟨hgen.nodup, fun i now hi hclock token user => ?_,
    fun calls' h => processRun_same files counter h⟩
  have hfresh := hgen.nodup i
  rw [processLog_caller files counter calls hi] at hfresh
  refine (processRun_sessions files counter calls hfresh).verify_ok_iff (fun t ht => ?_) token user
  obtain ⟨call, hcall, ht⟩ := List.mem_flatMap.mp ht
  exact hclock call hcall t ht

theorem processStep_adminInit {files : Str → Option Str} {users : List UserRecord}
    (h : (files (lit "u.csv")).map (loadUsersLocked fun _ => ([], [])) = some users) (i : T)
    (src : SeedSources) (counter : UInt64) :
    processStep (Process.start T files counter) ⟨i, src, adminInit⟩ =
      (⟨loadedState files users, Rngs.start T counter⟩, [(i, .cleared)]) := by
  have hop : drawOp i src (AuthState.start files) adminInit (Rngs.start T counter) =
      (adminInit, Rngs.start T counter) := by
    simp only [drawOp, adminInit, readUsers, AuthState.start, Disk.start, if_true, h]
  simp only [processStep, Process.start, hop, adminInit_step h]
  rfl

/-- A login of the account of a credential file, verified 1800 seconds later. -/
theorem generated_sessions_admin :
    let src : SeedSources := ⟨1700000000, 5000, 0x7f00deadbe00⟩
    let calls : List (ThreadCall Unit) := [⟨(), src, adminInit⟩,
      ⟨(), src, .login (some (lit "admin")) (some (lit "x")) true (zeroLogin 7)⟩]
    let files := adminFile 48 (lit "0")
    (issuedKeys (ofThread () (processLog files 0 calls))).Nodup ∧
      ∃ token, (authVerifySession (processRun files 0 calls).auth (some token) 1807).1 =
        .ok adminUser := by
  intro src calls files
  have hspec := generated_sessions files 0 calls (by decide)
  have hlog : (processLog files 0 calls).map Prod.snd = [.cleared, .issued (smHexEncode
      (fillBuffer () src smAuthTokenBytes (Rngs.start Unit 0)).1.toList) adminUser 7] := by
    rw [processLog, Machine.outputs, processStep_adminInit adminFile_loads]
    rfl
  refine ⟨hspec.1 (), _, (hspec.2.1 () 1807 (fun _ _ => rfl) (fun c hc t ht => ?_) _ adminUser).mpr
    ⟨7, ⟨[.cleared], 7, [], hlog, ?_, rfl⟩, by decide⟩⟩
  · rcases List.mem_cons.mp hc with rfl | hc
    · cases ht
    · obtain rfl := List.mem_singleton.mp hc
      obtain rfl := List.mem_singleton.mp ht
      decide
  · exact fun _ hm => absurd hm List.not_mem_nil

end SubscriberMgmt
