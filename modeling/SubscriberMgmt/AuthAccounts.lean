import SubscriberMgmt.AuthSteps

/-!
# Account operations that fail (`auth.c:668-777`)

The table is changed before the credential file is written, and no operation
undoes its change when the write fails.
-/

namespace SubscriberMgmt
open CText

inductive AccountOp where
  | create (username password : Option Str) (role : SmRole) (salt : Salt)
  | changePassword (token oldPassword newPassword : Option Str) (now : ℤ) (salt : Salt)
      (lockOk : Bool)
  | delete (username : Option Str)

def accountCall (s : AuthState) : AccountOp → UserIo → SmStatus × AuthState
  | .create username password role salt, io => authCreateUser s username password role salt io
  | .changePassword token oldPassword newPassword now salt lockOk, io =>
    authChangePassword s token oldPassword newPassword now salt lockOk io
  | .delete username, io => authDeleteUser s username io

def liveAccounts (users : List UserRecord) :
    List (CharField smAuthMaxUsername × Salt × Digest × SmRole) :=
  (users.filter UserRecord.inUse).map fun u => (u.username, u.salt, u.hash, u.role)

/-- If the call fails, the table is as before; and if it failed because of the
file operations, the same call made again without faults has the result that
the first one would have had. -/
def AllOrNothing (s : AuthState) (op : AccountOp) (io : UserIo) : Prop :=
  (accountCall s op io).1 ≠ .ok →
    liveAccounts (accountCall s op io).2.users = liveAccounts s.users ∧
      ((accountCall s op io).1 ≠ (accountCall s op UserIo.all).1 →
        (accountCall (accountCall s op io).2 op UserIo.all).1 = (accountCall s op UserIo.all).1)

/-! ### When a call gets as far as the table -/

def sessionAccount (s : AuthState) (token : Str) (now : ℤ) : Option (ℕ × UserRecord) :=
  match (authVerifySession s (some token) now).1 with
  | .ok caller => findUserLocked s.users caller.username.chars
  | .error _ => none

def AccountOp.Accepted (s : AuthState) : AccountOp → Prop
  | .create username password role _ =>
    ∃ n p, username = some n ∧ password = some p ∧ validUsername n = true ∧ 8 ≤ p.length ∧
      role ≠ .unknown ∧ findUserLocked s.users n = none ∧ s.users.length < smAuthMaxUsers
  | .changePassword token oldPassword newPassword now _ lockOk =>
    ∃ k o p i u, token = some k ∧ oldPassword = some o ∧ newPassword = some p ∧ 8 ≤ p.length ∧
      lockOk = true ∧ sessionAccount s k now = some (i, u) ∧ hashPassword u.salt o = u.hash
  | .delete username => ∃ n e, username = some n ∧ findUserLocked s.users n = some e

def AccountOp.liveAfter (s : AuthState) : AccountOp → ℕ
  | .create .. => (liveAccounts s.users).length + 1
  | .changePassword .. => (liveAccounts s.users).length
  | .delete _ => (liveAccounts s.users).length - 1

/-- The new salt and the new hash of a password are the stored ones. -/
def AccountOp.Keeps (s : AuthState) : AccountOp → Prop
  | .changePassword token _ newPassword now salt _ =>
    ∃ k p i u, token = some k ∧ newPassword = some p ∧ sessionAccount s k now = some (i, u) ∧
      salt = u.salt ∧ hashPassword salt p = u.hash
  | _ => False

/-! ### The table of live accounts -/

theorem liveAccounts_length (users : List UserRecord) :
    (liveAccounts users).length = (userLines users).length := by
  simp [liveAccounts, userLines]

theorem liveAccounts_append (users : List UserRecord) (u : UserRecord) (hu : u.inUse = true) :
    liveAccounts (users ++ [u]) =
      liveAccounts users ++ [(u.username, u.salt, u.hash, u.role)] := by
  simp [liveAccounts, hu]

theorem liveAccounts_set {users : List UserRecord} {i : ℕ} {u : UserRecord}
    (h : users[i]? = some u) (hu : u.inUse = true) (salt : Salt) (hash : Digest) :
    (liveAccounts (users.set i { u with salt := salt, hash := hash })).length =
        (liveAccounts users).length ∧
      (liveAccounts (users.set i { u with salt := salt, hash := hash }) = liveAccounts users ↔
        salt = u.salt ∧ hash = u.hash) := by
  induction users generalizing i with
  | nil => simp at h
  | cons v users ih =>
    cases i with
    | zero =>
      simp only [List.getElem?_cons_zero, Option.some.injEq] at h
      subst h
      simp [liveAccounts, hu]
    | succ i =>
      rw [List.getElem?_cons_succ] at h
      cases hv : v.inUse <;> simpa [liveAccounts, hv] using ih h

theorem liveAccounts_unset {users : List UserRecord} {i : ℕ} {u : UserRecord}
    (h : users[i]? = some u) (hu : u.inUse = true) :
    (liveAccounts (users.set i { u with inUse := false })).length + 1 =
      (liveAccounts users).length := by
  induction users generalizing i with
  | nil => simp at h
  | cons v users ih =>
    cases i with
    | zero =>
      simp only [List.getElem?_cons_zero, Option.some.injEq] at h
      subst h
      simp [liveAccounts, hu]
    | succ i =>
      rw [List.getElem?_cons_succ] at h
      cases hv : v.inUse <;> simpa [liveAccounts, hv] using ih h

/-! ### Saves -/

theorem AuthState.save_ok_iff (s : AuthState) (io : UserIo) :
    (s.save io).1 = .ok ↔ io.Succeeds s.usersPath.chars (liveAccounts s.users).length := by
  rw [liveAccounts_length]
  exact saveUsersLocked_ok_iff s.users s.usersPath.chars io s.disk

theorem AuthState.save_ne {st : SmStatus} (hst : st ∉ [.ok, .errNullParam, .errIo]) (s : AuthState)
    (io : UserIo) : (s.save io).1 ≠ st := by
  intro he
  subst he
  apply hst
  simp only [AuthState.save, saveUsersLocked]
  repeat' split
  all_goals simp

theorem AuthState.save_all (s : AuthState) :
    (s.save UserIo.all).1 = if s.usersPath.chars = [] then .errNullParam else .ok := by
  split
  case isTrue h => simp [AuthState.save, saveUsersLocked, h]
  case isFalse h => exact (s.save_ok_iff UserIo.all).mpr ⟨h, by simp [UserIo.all]⟩

/-! ### The three operations -/

structure Refused (s : AuthState) (op : AccountOp) : Prop where
  notAccepted : ¬ op.Accepted s
  users : ∀ io, (accountCall s op io).2.users = s.users
  same : ∀ io io', accountCall s op io = accountCall s op io'

structure Saves (s : AuthState) (op : AccountOp) (s' : AuthState) : Prop where
  accepted : op.Accepted s
  call : ∀ io, accountCall s op io = s'.save io
  path : s'.usersPath = s.usersPath
  live : (liveAccounts s'.users).length = op.liveAfter s
  keeps : liveAccounts s'.users = liveAccounts s.users ↔ op.Keeps s
  again : op.Keeps s → ∀ io,
    (accountCall (s'.save io).2 op UserIo.all).1 = (s'.save UserIo.all).1

theorem Refused.of_call {s s' : AuthState} {op : AccountOp} (st : SmStatus)
    (hno : ¬ op.Accepted s) (hcall : ∀ io, accountCall s op io = (st, s'))
    (husers : s'.users = s.users) : Refused s op :=
  ⟨hno, fun io => by rw [hcall, husers], fun io io' => by rw [hcall, hcall]⟩

theorem create_cases (s : AuthState) (username password : Option Str) (role : SmRole)
    (salt : Salt) :
    Refused s (.create username password role salt) ∨
      ∃ s', Saves s (.create username password role salt) s' := by
  cases username with
  | none => exact Or.inl (.of_call _ (fun ⟨_, _, h, _⟩ => by cases h) (fun _ => rfl) rfl)
  | some n =>
  cases password with
  | none => exact Or.inl (.of_call _ (fun ⟨_, _, _, h, _⟩ => by cases h) (fun _ => rfl) rfl)
  | some p =>
  cases harg : !validUsername n || decide (p.length < 8) || role == .unknown with
  | true =>
    refine Or.inl (.of_call .errInvalidArg ?_ (fun _ => ?_) rfl)
    · intro h
      obtain ⟨_, _, hn, hp, hv, hlen, hrole, -⟩ := h
      cases hn
      cases hp
      simp [hv, hrole] at harg
      omega
    · simp only [accountCall, authCreateUser, harg, if_true]
  | false =>
  cases hfind : findUserLocked s.users n with
  | some e =>
    refine Or.inl (.of_call .errDuplicate ?_ (fun _ => ?_) rfl)
    · intro h
      obtain ⟨_, _, hn, -, -, -, -, hno, -⟩ := h
      cases hn
      rw [hfind] at hno
      cases hno
    · simp only [accountCall, authCreateUser, harg, Bool.false_eq_true, if_false, hfind]
  | none =>
  by_cases hfull : smAuthMaxUsers ≤ s.users.length
  · refine Or.inl (.of_call .errCapacity ?_ (fun _ => ?_) rfl)
    · intro h
      obtain ⟨_, _, -, -, -, -, -, -, hroom⟩ := h
      omega
    · simp only [accountCall, authCreateUser, harg, Bool.false_eq_true, if_false, hfind, hfull,
        if_true]
  · have hcall : ∀ io, accountCall s (.create (some n) (some p) role salt) io =
        { s with users := s.users ++
          [(⟨true, CharField.copy _ n, salt, hashPassword salt p, role, 0, 0⟩ : UserRecord)]
          }.save io := by
      intro io
      simp only [accountCall, authCreateUser, harg, Bool.false_eq_true, if_false, hfind, hfull]
    simp only [Bool.or_eq_false_iff, Bool.not_eq_false', decide_eq_false_iff_not, Nat.not_lt,
      beq_eq_false_iff_ne] at harg
    obtain ⟨⟨hv, hlen⟩, hrole⟩ := harg
    refine Or.inr ⟨_, ⟨n, p, rfl, rfl, hv, hlen, hrole, hfind, by omega⟩, hcall, rfl, ?_, ?_,
      fun hk => hk.elim⟩
    · simp [liveAccounts_append, AccountOp.liveAfter]
    · simp [liveAccounts_append, AccountOp.Keeps]

theorem delete_cases (s : AuthState) (username : Option Str) :
    Refused s (.delete username) ∨ ∃ s', Saves s (.delete username) s' := by
  cases username with
  | none => exact Or.inl (.of_call _ (fun ⟨_, _, h, _⟩ => by cases h) (fun _ => rfl) rfl)
  | some n =>
  cases hfind : findUserLocked s.users n with
  | none =>
    refine Or.inl (.of_call .errNotFound ?_ (fun _ => ?_) rfl)
    · intro h
      obtain ⟨_, _, hn, he⟩ := h
      cases hn
      rw [hfind] at he
      cases he
    · simp only [accountCall, authDeleteUser, hfind]
  | some e =>
    obtain ⟨i, u⟩ := e
    obtain ⟨hget, huse, -⟩ := findUserLocked_some hfind
    have hlive := liveAccounts_unset hget huse
    have hcall : ∀ io, accountCall s (.delete (some n)) io =
        (s.setUser i { u with inUse := false }).save io := by
      intro io
      simp only [accountCall, authDeleteUser, hfind]
    refine Or.inr ⟨_, ⟨n, _, rfl, hfind⟩, hcall, rfl, ?_, ⟨fun h => ?_, fun h => h.elim⟩,
      fun hk => hk.elim⟩
    · simp only [AuthState.setUser, AccountOp.liveAfter]
      omega
    · simp only [AuthState.setUser] at h
      rw [h] at hlive
      omega

theorem authVerifySession_again {s : AuthState} {token : Str} {now : ℤ} {caller : AuthUser}
    (h : (authVerifySession s (some token) now).1 = .ok caller) {s' : AuthState}
    (hs : s'.sessions = (authVerifySession s (some token) now).2.sessions) :
    (authVerifySession s' (some token) now).1 = .ok caller := by
  simp only [authVerifySession] at h hs
  cases hj : s.findSlot (SessionSlot.hasToken token) with
  | none =>
    rw [hj] at h
    cases h
  | some j =>
    simp only [hj] at h hs
    split at h
    case isTrue => cases h
    case isFalse hexp =>
      rw [if_neg hexp] at hs
      cases h
      have hfind : s'.findSlot (SessionSlot.hasToken token) = some j := by
        rw [← hj, AuthState.findSlot, AuthState.findSlot, hs]
        congr 1
        funext i
        by_cases hi : i = j
        · subst hi
          simp [AuthState.setSlot, SessionSlot.hasToken]
        · simp [AuthState.setSlot, hi]
      have hslot : s'.sessions j = { s.sessions j with
          session := { (s.sessions j).session with expiresAt := now + smAuthSessionSeconds } } := by
        rw [hs]
        exact Function.update_self ..
      simp only [authVerifySession, hfind, hslot]
      rw [if_neg (by simp only [smAuthSessionSeconds]; omega)]

theorem changePassword_call {s : AuthState} {k o p : Str} {now : ℤ} {caller : AuthUser} {i : ℕ}
    {u : UserRecord} (salt : Salt) (io : UserIo)
    (hver : (authVerifySession s (some k) now).1 = .ok caller)
    (hfind : findUserLocked s.users caller.username.chars = some (i, u))
    (hlen : ¬ p.length < 8) (hhash : hashPassword u.salt o = u.hash) :
    accountCall s (.changePassword (some k) (some o) (some p) now salt true) io =
      ((authVerifySession s (some k) now).2.setUser i
        { u with salt := salt, hash := hashPassword salt p }).save io := by
  have husers := (authVerifySession_accounts s (some k) now).1
  simp only [accountCall, authChangePassword, if_neg hlen]
  generalize authVerifySession s (some k) now = v at hver husers ⊢
  obtain ⟨r, s1⟩ := v
  obtain rfl : r = .ok caller := hver
  dsimp only at husers ⊢
  simp only [changePasswordLocked, husers, hfind, Bool.not_true, Bool.false_eq_true, if_false,
    (consttimeEq_iff _ _).mpr hhash]

theorem sessionAccount_ok {s : AuthState} {k : Str} {now : ℤ} {caller : AuthUser}
    (hver : (authVerifySession s (some k) now).1 = .ok caller) :
    sessionAccount s k now = findUserLocked s.users caller.username.chars := by
  simp only [sessionAccount, hver]

theorem changePassword_keeps {s : AuthState} {k o p : Str} {now : ℤ} {i : ℕ} {u : UserRecord}
    {salt : Salt} {lockOk : Bool} (haccount : sessionAccount s k now = some (i, u)) :
    (AccountOp.changePassword (some k) (some o) (some p) now salt lockOk).Keeps s ↔
      salt = u.salt ∧ hashPassword salt p = u.hash := by
  constructor
  · intro h
    obtain ⟨_, _, _, _, hk, hp, ha, hsalt, hhash⟩ := h
    cases hk
    cases hp
    rw [haccount] at ha
    cases ha
    exact ⟨hsalt, hhash⟩
  · intro h
    obtain ⟨hsalt, hhash⟩ := h
    exact ⟨k, p, i, u, rfl, rfl, haccount, hsalt, hhash⟩

theorem changePassword_saves {s : AuthState} {k o p : Str} {now : ℤ} {caller : AuthUser} {i : ℕ}
    {u : UserRecord} (salt : Salt) (hver : (authVerifySession s (some k) now).1 = .ok caller)
    (hfind : findUserLocked s.users caller.username.chars = some (i, u))
    (hlen : ¬ p.length < 8) (hhash : hashPassword u.salt o = u.hash) :
    Saves s (.changePassword (some k) (some o) (some p) now salt true)
      ((authVerifySession s (some k) now).2.setUser i
        { u with salt := salt, hash := hashPassword salt p }) := by
  obtain ⟨husers, hpath⟩ := authVerifySession_accounts s (some k) now
  obtain ⟨hget, huse, -⟩ := findUserLocked_some hfind
  obtain ⟨hcount, hsame⟩ := liveAccounts_set hget huse salt (hashPassword salt p)
  have haccount := (sessionAccount_ok hver).trans hfind
  refine ⟨⟨k, o, p, i, u, rfl, rfl, rfl, by omega, rfl, haccount, hhash⟩,
    fun io => changePassword_call salt io hver hfind hlen hhash, hpath, ?_, ?_, fun hk io => ?_⟩
  · simpa only [AuthState.setUser, husers, AccountOp.liveAfter] using hcount
  · simpa only [AuthState.setUser, husers, changePassword_keeps haccount] using hsame
  · -- the table is as it was, and so the second call is accepted as well
    obtain ⟨rfl, hhash'⟩ := (changePassword_keeps haccount).mp hk
    have hset : (authVerifySession s (some k) now).2.users.set i
        { u with hash := hashPassword u.salt p } = s.users := by
      obtain ⟨hi, hu⟩ := List.getElem?_eq_some_iff.mp hget
      rw [hhash', husers]
      exact hu ▸ List.set_getElem_self hi
    rw [AuthState.save_all]
    have hcall := changePassword_call (s := (((authVerifySession s (some k) now).2.setUser i { u with
      salt := u.salt, hash := hashPassword u.salt p }).save io).2) (o := o) u.salt UserIo.all
      (authVerifySession_again hver rfl) (hset ▸ hfind) hlen hhash
    rw [hcall, AuthState.save_all]
    exact congrArg (fun path : CharField 511 => if path.chars = [] then _ else _)
      (authVerifySession_accounts _ _ _).2

/-- `auth_change_password` once the caller is known. -/
theorem changePassword_verified {s s1 : AuthState} {k o p : Str} {now : ℤ} {caller : AuthUser}
    (salt : Salt) (lockOk : Bool) (hver : authVerifySession s (some k) now = (.ok caller, s1))
    (hlen : ¬ p.length < 8) :
    Refused s (.changePassword (some k) (some o) (some p) now salt lockOk) ∨
      ∃ s', Saves s (.changePassword (some k) (some o) (some p) now salt lockOk) s' := by
  have husers := (authVerifySession_accounts s (some k) now).1
  have hok : (authVerifySession s (some k) now).1 = .ok caller := congrArg Prod.fst hver
  have haccount := sessionAccount_ok hok
  rw [hver] at husers
  dsimp only at husers
  have hcall : ∀ io, accountCall s (.changePassword (some k) (some o) (some p) now salt lockOk) io =
      changePasswordLocked s1 caller o p salt lockOk io := by
    intro io
    simp only [accountCall, authChangePassword, if_neg hlen, hver]
  cases lockOk with
  | false =>
    refine Or.inl (.of_call .errLockFailed ?_ (fun io => hcall io) husers)
    intro h
    obtain ⟨_, _, _, _, _, -, -, -, -, hlock, -⟩ := h
    cases hlock
  | true =>
  cases hfind : findUserLocked s.users caller.username.chars with
  | none =>
    refine Or.inl (.of_call .errNotFound ?_ (fun io => ?_) husers)
    · intro h
      obtain ⟨_, _, _, _, _, hk, -, -, -, -, ha, -⟩ := h
      cases hk
      rw [haccount, hfind] at ha
      cases ha
    · rw [hcall]
      simp only [changePasswordLocked, husers, hfind, Bool.not_true, Bool.false_eq_true, if_false]
  | some e =>
  obtain ⟨i, u⟩ := e
  by_cases hhash : hashPassword u.salt o = u.hash
  · exact Or.inr ⟨_, changePassword_saves salt hok hfind hlen hhash⟩
  · refine Or.inl (.of_call .errUnauthorized ?_ (fun io => ?_) husers)
    · intro h
      obtain ⟨_, _, _, _, _, hk, ho, -, -, -, ha, hh⟩ := h
      cases hk
      cases ho
      rw [haccount, hfind] at ha
      cases ha
      exact hhash hh
    · have hne : consttimeEq (hashPassword u.salt o) u.hash = false := by
        rw [← Bool.not_eq_true, consttimeEq_iff]
        exact hhash
      rw [hcall]
      simp only [changePasswordLocked, husers, hfind, Bool.not_true, Bool.false_eq_true, if_false,
        hne, Bool.not_false, if_true]

theorem changePassword_cases (s : AuthState) (token oldPassword newPassword : Option Str)
    (now : ℤ) (salt : Salt) (lockOk : Bool) :
    Refused s (.changePassword token oldPassword newPassword now salt lockOk) ∨
      ∃ s', Saves s (.changePassword token oldPassword newPassword now salt lockOk) s' := by
  cases token with
  | none => exact Or.inl (.of_call _ (fun ⟨_, _, _, _, _, h, _⟩ => by cases h) (fun _ => rfl) rfl)
  | some k =>
  cases oldPassword with
  | none =>
    exact Or.inl (.of_call _ (fun ⟨_, _, _, _, _, _, h, _⟩ => by cases h) (fun _ => rfl) rfl)
  | some o =>
  cases newPassword with
  | none =>
    exact Or.inl (.of_call _ (fun ⟨_, _, _, _, _, _, _, h, _⟩ => by cases h) (fun _ => rfl) rfl)
  | some p =>
  by_cases hlen : p.length < 8
  · refine Or.inl (.of_call .errInvalidArg ?_ (fun _ => ?_) rfl)
    · intro h
      obtain ⟨_, _, _, _, _, -, -, hp, hge, -⟩ := h
      cases hp
      omega
    · simp only [accountCall, authChangePassword, if_pos hlen]
  cases hver : authVerifySession s (some k) now with
  | mk r s1 =>
  cases r with
  | error st =>
    have husers := (authVerifySession_accounts s (some k) now).1
    rw [hver] at husers
    refine Or.inl (.of_call st ?_ (fun _ => ?_) husers)
    · intro h
      obtain ⟨_, _, _, _, _, hk, -, -, -, -, ha, -⟩ := h
      cases hk
      simp only [sessionAccount, hver, reduceCtorEq] at ha
    · simp only [accountCall, authChangePassword, if_neg hlen, hver]
  | ok caller => exact changePassword_verified salt lockOk hver hlen

theorem account_cases (s : AuthState) (op : AccountOp) : Refused s op ∨ ∃ s', Saves s op s' := by
  cases op with
  | create username password role salt => exact create_cases s username password role salt
  | changePassword token oldPassword newPassword now salt lockOk =>
    exact changePassword_cases s token oldPassword newPassword now salt lockOk
  | delete username => exact delete_cases s username

/-- An account operation is all or nothing exactly when it is refused before it
changes the table, its save succeeds, or what it writes is what was there. -/
theorem account_call_all_or_nothing_iff (s : AuthState) (op : AccountOp) (io : UserIo) :
    AllOrNothing s op io ↔
      ¬ op.Accepted s ∨ io.Succeeds s.usersPath.chars (op.liveAfter s) ∨ op.Keeps s := by
  rcases account_cases s op with h | ⟨s', h⟩
  · refine ⟨fun _ => Or.inl h.notAccepted, fun _ _ => ⟨by rw [h.users], fun hne => ?_⟩⟩
    exact absurd (by rw [h.same io UserIo.all]) hne
  · have hok : (s'.save io).1 = .ok ↔ io.Succeeds s.usersPath.chars (op.liveAfter s) := by
      rw [AuthState.save_ok_iff, h.path, h.live]
    have hlive : liveAccounts (s'.save io).2.users = liveAccounts s.users ↔ op.Keeps s := h.keeps
    simp only [AllOrNothing, h.call]
    rw [← hok]
    constructor
    · intro hall
      by_cases hst : (s'.save io).1 = .ok
      · exact Or.inr (Or.inl hst)
      · exact Or.inr (Or.inr (hlive.mp (hall hst).1))
    · intro h
      obtain hno | hst | hk := h
      · exact absurd h.accepted hno
      · exact fun hne => absurd hst hne
      · exact fun _ => ⟨hlive.mpr hk, fun _ => h.again hk io⟩

/-- A delete whose rename fails returns an error and has removed the account:
the same call made again does not find it. -/
theorem delete_user_not_undone :
    ¬ AllOrNothing (authRun (adminFile 48 (lit "0")) [adminInit]) (.delete (some (lit "admin")))
        { UserIo.all with renameOk := false } ∧
      (accountCall (authRun (adminFile 48 (lit "0")) [adminInit]) (.delete (some (lit "admin")))
        { UserIo.all with renameOk := false }).1 = .errIo ∧
      (accountCall (accountCall (authRun (adminFile 48 (lit "0")) [adminInit])
        (.delete (some (lit "admin"))) { UserIo.all with renameOk := false }).2
        (.delete (some (lit "admin"))) UserIo.all).1 = .errNotFound := by
  rw [authRun_adminInit adminFile_loads]
  refine ⟨fun h => ?_, rfl, rfl⟩
  have hlive := (h (by decide)).1
  exact absurd hlive (by decide)

end SubscriberMgmt
