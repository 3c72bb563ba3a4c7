import SubscriberMgmt.AuthLogin

/-!
# What a critical section does to the accounts (`auth.c:349-777`)

Each section leaves the table of accounts as it is, changes one record of it,
adds one at its end or, at `auth_init`, puts a new table in its place.
-/

namespace SubscriberMgmt
open CText

/-- The path that an `auth_init` is given. -/
def AuthOp.path : AuthOp → Option Str
  | .init path _ => path
  | _ => none

/-! ### Accounts by their names -/

/-- What `find_user_locked` looks for. -/
def UserRecord.answers (u : UserRecord) (name : Str) : Bool :=
  u.inUse && strncmpEq smAuthMaxUsername u.username.chars name

theorem UserRecord.answers_iff {u : UserRecord} {name : Str} :
    u.answers name = true ↔ u.inUse = true ∧ u.username.chars = name.take smAuthMaxUsername := by
  rw [answers, Bool.and_eq_true, strncmpEq, decide_eq_true_eq,
    List.take_of_length_le u.username.fits]

theorem UserRecord.answers_congr {u v : UserRecord} (hname : v.username = u.username)
    (huse : v.inUse = u.inUse) (name : Str) : v.answers name = u.answers name := by
  rw [answers, answers, hname, huse]

theorem findUserLocked_eq (users : List UserRecord) (name : Str) :
    findUserLocked users name = (users.findIdx? fun u => u.answers name).bind fun i =>
      (users[i]?).map fun u => (i, u) := by
  have hfrom : ∀ k, ((users.zipIdx k).findSome? fun e =>
      if e.1.inUse && strncmpEq smAuthMaxUsername e.1.username.chars name then some (e.2, e.1)
      else none) =
      (users.findIdx? fun u => u.answers name).bind fun i => (users[i]?).map fun u => (i + k, u) := by
    induction users with
    | nil => exact fun k => rfl
    | cons u users ih =>
      intro k
      rw [List.zipIdx_cons, List.findSome?_cons, List.findIdx?_cons]
      cases hu : u.answers name with
      | true =>
        simp only [UserRecord.answers] at hu
        simp [hu]
      | false =>
        have hu' := hu
        simp only [UserRecord.answers] at hu'
        simp only [hu', Bool.false_eq_true, if_false, ih]
        cases users.findIdx? fun u => u.answers name with
        | none => rfl
        | some i =>
          have hidx : i + (k + 1) = i + 1 + k := by omega
          simp [hidx]
  exact hfrom 0

theorem findUserLocked_some_iff {users : List UserRecord} {name : Str} {i : ℕ} {u : UserRecord} :
    findUserLocked users name = some (i, u) ↔ users[i]? = some u ∧ u.answers name = true ∧
      ∀ j < i, ∀ w, users[j]? = some w → w.answers name = false := by
  rw [findUserLocked_eq, Option.bind_eq_some_iff]
  constructor
  · intro h
    obtain ⟨k, hk, hm⟩ := h
    obtain ⟨v, hv, he⟩ := Option.map_eq_some_iff.mp hm
    cases he
    obtain ⟨hlt, hans, hno⟩ := List.findIdx?_eq_some_iff_getElem.mp hk
    obtain ⟨hlt', rfl⟩ := List.getElem?_eq_some_iff.mp hv
    refine ⟨hv, hans, fun j hj w hw => ?_⟩
    obtain ⟨hlt'', rfl⟩ := List.getElem?_eq_some_iff.mp hw
    exact Bool.eq_false_iff.mpr (hno j hj)
  · intro h
    obtain ⟨hu, hans, hno⟩ := h
    obtain ⟨hlt, rfl⟩ := List.getElem?_eq_some_iff.mp hu
    refine ⟨i, List.findIdx?_eq_some_iff_getElem.mpr ⟨hlt, hans, fun j hj => ?_⟩, by rw [hu]; rfl⟩
    exact Bool.eq_false_iff.mp (hno j hj _ (List.getElem?_eq_getElem (hj.trans hlt)))

theorem findUserLocked_none_iff {users : List UserRecord} {name : Str} :
    findUserLocked users name = none ↔ ∀ u ∈ users, u.answers name = false := by
  rw [findUserLocked_eq]
  cases hk : users.findIdx? fun u => u.answers name with
  | none => simpa using List.findIdx?_eq_none_iff.mp hk
  | some k =>
    obtain ⟨hlt, hans, -⟩ := List.findIdx?_eq_some_iff_getElem.mp hk
    refine iff_of_false ?_ fun hno => ?_
    · simp [List.getElem?_eq_getElem hlt]
    · rw [hno _ (List.getElem_mem hlt)] at hans
      cases hans

/-- Two tables with the same records under a name. -/
theorem findUserLocked_congr {users users' : List UserRecord} {name : Str}
    (h : ∀ (i : ℕ) (u : UserRecord), u.answers name = true →
      (users'[i]? = some u ↔ users[i]? = some u)) :
    findUserLocked users' name = findUserLocked users name := by
  have hno : ∀ (i : ℕ) (u : UserRecord), users'[i]? = some u →
      (∀ w, users[i]? = some w → w.answers name = false) → u.answers name = false := by
    intro i u hu hall
    by_contra hans
    rw [Bool.not_eq_false] at hans
    rw [hall u ((h i u hans).mp hu)] at hans
    cases hans
  cases hfind : findUserLocked users name with
  | none =>
    rw [findUserLocked_none_iff] at hfind ⊢
    intro u hu
    obtain ⟨i, hi⟩ := List.mem_iff_getElem?.mp hu
    exact hno i u hi fun w hw => hfind w (List.mem_of_getElem? hw)
  | some e =>
    obtain ⟨i, u⟩ := e
    rw [findUserLocked_some_iff] at hfind ⊢
    obtain ⟨hu, hans, hfirst⟩ := hfind
    exact ⟨(h i u hans).mpr hu, hans, fun j hj w hw => hno j w hw (hfirst j hj)⟩

section Set

variable {users : List UserRecord} {n name : Str} {i : ℕ} {u v : UserRecord}

/-- Writing a found record back under its name. -/
theorem findUserLocked_set (hfind : findUserLocked users n = some (i, u))
    (hname : v.username = u.username) (huse : v.inUse = u.inUse)
    (hn : name.take smAuthMaxUsername = n.take smAuthMaxUsername) :
    findUserLocked (users.set i v) name = some (i, v) := by
  obtain ⟨hu, hans, hfirst⟩ := findUserLocked_some_iff.mp hfind
  have hsame : ∀ w : UserRecord, w.answers name = w.answers n := fun w => by
    rw [Bool.eq_iff_iff, UserRecord.answers_iff, UserRecord.answers_iff, hn]
  obtain ⟨hlt, -⟩ := List.getElem?_eq_some_iff.mp hu
  refine findUserLocked_some_iff.mpr ⟨?_, ?_, fun j hj w hw => ?_⟩
  · rw [List.getElem?_set_self hlt]
  · rw [hsame, UserRecord.answers_congr hname huse, hans]
  · rw [List.getElem?_set_ne (Nat.ne_of_gt hj)] at hw
    rw [hsame]
    exact hfirst j hj w hw

/-- A record under another name may change or go. -/
theorem findUserLocked_set_other (hfind : findUserLocked users n = some (i, u))
    (hname : v.username = u.username)
    (hn : name.take smAuthMaxUsername ≠ n.take smAuthMaxUsername) :
    findUserLocked (users.set i v) name = findUserLocked users name := by
  obtain ⟨hu, -, -⟩ := findUserLocked_some_iff.mp hfind
  obtain ⟨hlt, -⟩ := List.getElem?_eq_some_iff.mp hu
  have hno : ∀ w : UserRecord, w.username = u.username → w.answers name = false := by
    intro w hw
    rw [← Bool.not_eq_true, UserRecord.answers_iff, hw, (findUserLocked_some hfind).2.2]
    exact fun hc => hn hc.2.symm
  apply findUserLocked_congr
  intro j w hans
  by_cases hji : i = j
  · subst hji
    rw [List.getElem?_set_self hlt, hu]
    constructor
    · intro he
      cases he
      rw [hno v hname] at hans
      cases hans
    · intro he
      cases he
      rw [hno u rfl] at hans
      cases hans
  · rw [List.getElem?_set_ne hji]

theorem findUserLocked_append_some (hfind : findUserLocked users name = some (i, u)) :
    findUserLocked (users ++ [v]) name = some (i, u) := by
  obtain ⟨hu, hans, hfirst⟩ := findUserLocked_some_iff.mp hfind
  obtain ⟨hlt, -⟩ := List.getElem?_eq_some_iff.mp hu
  refine findUserLocked_some_iff.mpr ⟨?_, hans, fun j hj w hw => hfirst j hj w ?_⟩
  · rw [List.getElem?_append_left hlt, hu]
  · rwa [List.getElem?_append_left (hj.trans hlt)] at hw

theorem findUserLocked_append_none (hfind : findUserLocked users name = none) :
    findUserLocked (users ++ [v]) name =
      if v.answers name then some (users.length, v) else none := by
  have hno := findUserLocked_none_iff.mp hfind
  split
  case isTrue hans =>
    refine findUserLocked_some_iff.mpr ⟨List.getElem?_concat_length, hans, fun j hj w hw => ?_⟩
    rw [List.getElem?_append_left hj] at hw
    exact hno w (List.mem_of_getElem? hw)
  case isFalse hans =>
    apply findUserLocked_none_iff.mpr
    intro w hw
    rcases List.mem_append.mp hw with hw | hw
    · exact hno w hw
    · rw [List.mem_singleton.mp hw]
      exact Bool.eq_false_iff.mpr hans

end Set

/-! ### Credentials -/

def UserRecord.cleared (u : UserRecord) : UserRecord :=
  { u with failedAttempts := 0, lockedUntil := 0 }

def UserRecord.withPassword (u : UserRecord) (salt : Salt) (password : Str) : UserRecord :=
  { u with salt := salt, hash := hashPassword salt password }

/-- What `checkCredentials` does with an account that it finds. -/
inductive Checked (s : AuthState) (i : ℕ) (u : UserRecord) (password : Str) (input : LoginInput) :
    Except SmStatus UserRecord × AuthState → Prop
  | locked (hlock : isLocked u input.now = true) (hrec : isRecovery u password = false) :
      Checked s i u password input (.error .errUnauthorized, s)
  | failed (hlock : isLocked u input.now = false) (hrole : u.role ≠ .admin)
      (hhash : hashPassword u.salt password ≠ u.hash) :
      Checked s i u password input
        (.error .errUnauthorized, ((s.setUser i (countFailure u input.now)).save input.save).2)
  | accepted (hlock : isLocked u input.now = false) (hrec : isRecovery u password = false)
      (hhash : u.role = .admin ∨ hashPassword u.salt password = u.hash) :
      Checked s i u password input (.ok u.cleared, s.setUser i u.cleared)
  | recovered (hrec : isRecovery u password = true) {s' : AuthState}
      (hs : s' = ((s.setUser i (u.cleared.withPassword input.salt password)).save
        input.recoverySave).2) :
      Checked s i u password input (.ok (u.cleared.withPassword input.salt password),
        s'.setUser i (u.cleared.withPassword input.salt password))

theorem isRecovery_role {u : UserRecord} {password : Str} (h : isRecovery u password = true) :
    u.role = .admin ∧ password = smAuthDefaultAdminPassword := by
  simpa [isRecovery] using h

theorem checkCredentials_cases (s : AuthState) (username password : Str) (input : LoginInput) :
    (findUserLocked s.users username = none ∧
        checkCredentials s username password input = (.error .errNotFound, s)) ∨
      ∃ i u, findUserLocked s.users username = some (i, u) ∧
        Checked s i u password input (checkCredentials s username password input) := by
  unfold checkCredentials
  cases hfind : findUserLocked s.users username with
  | none => exact Or.inl ⟨rfl, rfl⟩
  | some e =>
  obtain ⟨i, u⟩ := e
  refine Or.inr ⟨i, u, rfl, ?_⟩
  cases hrec : isRecovery u password with
  | true =>
    simp only [hrec, Bool.not_true, Bool.and_false, Bool.false_eq_true, if_false, if_true]
    exact .recovered hrec rfl
  | false =>
    cases hlock : isLocked u input.now with
    | true =>
      simp only [hrec, hlock, Bool.not_false, Bool.and_true, if_true]
      exact .locked hlock hrec
    | false =>
      simp only [hrec, hlock, Bool.not_false, Bool.and_true, Bool.false_eq_true, if_false]
      split
      case isTrue hwrong =>
        simp only [Bool.and_eq_true, bne_iff_ne, ne_eq, Bool.not_eq_true',
          ← Bool.not_eq_true, consttimeEq_iff] at hwrong
        exact .failed hlock hwrong.1 hwrong.2
      case isFalse hright =>
        refine .accepted hlock hrec ?_
        rcases eq_or_ne u.role .admin with hrole | hrole
        · exact Or.inl hrole
        · right
          rw [← consttimeEq_iff]
          simpa [hrole] using hright

theorem checkCredentials_found {s : AuthState} {username : Str} {i : ℕ} {u : UserRecord}
    (hfind : findUserLocked s.users username = some (i, u)) (password : Str) (input : LoginInput) :
    Checked s i u password input (checkCredentials s username password input) := by
  rcases checkCredentials_cases s username password input with ⟨hno, -⟩ | ⟨j, v, hfind', hc⟩
  · rw [hfind] at hno
    cases hno
  · rw [hfind] at hfind'
    cases hfind'
    exact hc

theorem login_accepted {s : AuthState} {username password : Str} {input : LoginInput} {i : ℕ}
    {u : UserRecord} (hfind : findUserLocked s.users username = some (i, u))
    (hlock : isLocked u input.now = false) (hrec : isRecovery u password = false)
    (hhash : u.role = .admin ∨ hashPassword u.salt password = u.hash) :
    authLogin s (some username) (some password) true input =
      openSession (s.setUser i u.cleared) u.cleared input := by
  have hc := checkCredentials_found hfind password input
  simp only [authLogin]
  generalize checkCredentials s username password input = r at hc ⊢
  cases hc with
  | locked hl =>
    rw [hlock] at hl
    cases hl
  | failed hl hrole hwrong => exact (hhash.elim hrole hwrong).elim
  | accepted => rfl
  | recovered hr =>
    rw [hrec] at hr
    cases hr

/-! ### The table after a section -/

/-- The table of accounts after one section. A change is one of the record
named, found as it was before. -/
inductive TableStep (s : AuthState) : AuthOp → List UserRecord → Prop
  | same {op : AuthOp} (hop : ∀ path input, op ≠ .init (some path) input) : TableStep s op s.users
  | loaded {path : Str} {input : InitInput} {users : List UserRecord}
      (hread : readUsers s.disk.files path input = some users) :
      TableStep s (.init (some path) input) users
  | seeded {path : Str} {input : InitInput} (hread : readUsers s.disk.files path input = none) :
      TableStep s (.init (some path) input)
        (seedDefaultUsersLocked input.adminSalt input.operator input.viewer)
  | failed {username password : Str} {input : LoginInput} {i : ℕ} {u : UserRecord}
      (hfind : findUserLocked s.users username = some (i, u))
      (hlock : isLocked u input.now = false) (hrole : u.role ≠ .admin)
      (hhash : hashPassword u.salt password ≠ u.hash) :
      TableStep s (.login (some username) (some password) true input)
        (s.users.set i (countFailure u input.now))
  | accepted {username password : Str} {input : LoginInput} {i : ℕ} {u : UserRecord}
      (hfind : findUserLocked s.users username = some (i, u))
      (hlock : isLocked u input.now = false)
      (hhash : u.role = .admin ∨ hashPassword u.salt password = u.hash) :
      TableStep s (.login (some username) (some password) true input) (s.users.set i u.cleared)
  | recovered {username password : Str} {input : LoginInput} {i : ℕ} {u : UserRecord}
      (hfind : findUserLocked s.users username = some (i, u)) (hrec : isRecovery u password = true) :
      TableStep s (.login (some username) (some password) true input)
        (s.users.set i (u.cleared.withPassword input.salt password))
  | created {username password : Str} {role : SmRole} {salt : Salt} {io : UserIo}
      (hname : validUsername username = true) (hrole : role ≠ .unknown)
      (hnew : findUserLocked s.users username = none) (hroom : s.users.length < smAuthMaxUsers) :
      TableStep s (.createUser (some username) (some password) role salt io)
        (s.users ++ [⟨true, CharField.copy _ username, salt, hashPassword salt password, role, 0, 0⟩])
  | rewritten {caller : AuthUser} {oldPassword newPassword : Str} {salt : Salt} {io : UserIo}
      {i : ℕ} {u : UserRecord}
      (hfind : findUserLocked s.users caller.username.chars = some (i, u))
      (hhash : hashPassword u.salt oldPassword = u.hash) :
      TableStep s (.rewrite caller oldPassword newPassword salt true io)
        (s.users.set i (u.withPassword salt newPassword))
  | deleted {username : Str} {io : UserIo} {i : ℕ} {u : UserRecord}
      (hfind : findUserLocked s.users username = some (i, u)) :
      TableStep s (.deleteUser (some username) io) (s.users.set i { u with inUse := false })

theorem openSession_users (s : AuthState) (u : UserRecord) (input : LoginInput) :
    (openSession s u input).2.users = s.users ∧
      (openSession s u input).2.usersPath = s.usersPath := by
  unfold openSession
  split <;> exact ⟨rfl, rfl⟩

theorem authLogin_users (s : AuthState) (username password : Str) (input : LoginInput) :
    (authLogin s (some username) (some password) true input).2.users =
      (checkCredentials s username password input).2.users := by
  simp only [authLogin]
  split
  case h_1 heq => rw [heq]
  case h_2 heq => rw [heq, (openSession_users _ _ _).1]

theorem login_table (s : AuthState) (username password : Option Str) (outSession : Bool)
    (input : LoginInput) :
    TableStep s (.login username password outSession input)
      (authLogin s username password outSession input).2.users := by
  cases username with
  | none => exact .same fun _ _ h => (by cases h)
  | some username =>
  cases password with
  | none => exact .same fun _ _ h => (by cases h)
  | some password =>
  cases outSession with
  | false => exact .same fun _ _ h => (by cases h)
  | true =>
    rw [authLogin_users]
    rcases checkCredentials_cases s username password input with ⟨-, he⟩ | ⟨i, u, hfind, hc⟩
    · rw [he]
      exact .same fun _ _ h => (by cases h)
    · generalize checkCredentials s username password input = r at hc ⊢
      cases hc with
      | locked => exact .same fun _ _ h => (by cases h)
      | failed hlock hrole hhash => exact .failed hfind hlock hrole hhash
      | accepted hlock hrec hhash => exact .accepted hfind hlock hhash
      | recovered hrec hs =>
        subst hs
        have hset : ((s.setUser i (u.cleared.withPassword input.salt password)).save
            input.recoverySave).2.users.set i (u.cleared.withPassword input.salt password) =
              s.users.set i (u.cleared.withPassword input.salt password) := List.set_set ..
        have h := @TableStep.recovered s username password input i u hfind hrec
        rwa [← hset] at h

theorem authCreateUser_accepted {s : AuthState} {username password : Str} {role : SmRole}
    (hname : validUsername username = true) (hlen : 8 ≤ password.length) (hrole : role ≠ .unknown)
    (hnew : findUserLocked s.users username = none) (hroom : s.users.length < smAuthMaxUsers)
    (salt : Salt) (io : UserIo) :
    authCreateUser s (some username) (some password) role salt io =
      { s with users := s.users ++ [(⟨true, CharField.copy _ username, salt,
        hashPassword salt password, role, 0, 0⟩ : UserRecord)] }.save io := by
  have harg : (!validUsername username || decide (password.length < 8) || role == .unknown) =
      false := by
    simp [hname, hlen, hrole]
  simp only [authCreateUser, harg, hnew, Bool.false_eq_true, if_false,
    if_neg (Nat.not_le.mpr hroom)]

theorem create_table (s : AuthState) (username password : Option Str) (role : SmRole) (salt : Salt)
    (io : UserIo) :
    TableStep s (.createUser username password role salt io)
      (authCreateUser s username password role salt io).2.users := by
  unfold authCreateUser
  split
  case h_2 => exact .same fun _ _ h => (by cases h)
  case h_1 username password =>
    split
    case isTrue => exact .same fun _ _ h => (by cases h)
    case isFalse harg =>
      simp only [Bool.or_eq_true, not_or, Bool.not_eq_true, Bool.not_eq_false',
        beq_eq_false_iff_ne] at harg
      split
      case h_1 => exact .same fun _ _ h => (by cases h)
      case h_2 hnew =>
        split
        case isTrue => exact .same fun _ _ h => (by cases h)
        case isFalse hroom => exact .created harg.1.1 harg.2 hnew (Nat.lt_of_not_le hroom)

theorem rewrite_table (s : AuthState) (caller : AuthUser) (oldPassword newPassword : Str)
    (salt : Salt) (lockOk : Bool) (io : UserIo) :
    TableStep s (.rewrite caller oldPassword newPassword salt lockOk io)
      (changePasswordLocked s caller oldPassword newPassword salt lockOk io).2.users := by
  unfold changePasswordLocked
  cases lockOk with
  | false => exact .same fun _ _ h => (by cases h)
  | true =>
    simp only [Bool.not_true, Bool.false_eq_true, if_false]
    split
    case h_1 => exact .same fun _ _ h => (by cases h)
    case h_2 i u hfind =>
      split
      case isTrue => exact .same fun _ _ h => (by cases h)
      case isFalse hhash =>
        refine .rewritten hfind ?_
        rw [← consttimeEq_iff]
        simpa using hhash

theorem delete_table (s : AuthState) (username : Option Str) (io : UserIo) :
    TableStep s (.deleteUser username io) (authDeleteUser s username io).2.users := by
  unfold authDeleteUser
  split
  case h_1 => exact .same fun _ _ h => (by cases h)
  case h_2 username =>
    split
    case h_1 => exact .same fun _ _ h => (by cases h)
    case h_2 i u hfind => exact .deleted hfind

theorem authVerifySession_accounts (s : AuthState) (token : Option Str) (now : ℤ) :
    (authVerifySession s token now).2.users = s.users ∧
      (authVerifySession s token now).2.usersPath = s.usersPath := by
  unfold authVerifySession
  split
  · exact ⟨rfl, rfl⟩
  · split
    · exact ⟨rfl, rfl⟩
    · dsimp only
      split <;> exact ⟨rfl, rfl⟩

theorem authVerifySession_disk (s : AuthState) (token : Option Str) (now : ℤ) :
    (authVerifySession s token now).2.disk = s.disk := by
  unfold authVerifySession
  split
  · rfl
  · split
    · rfl
    · dsimp only
      split <;> rfl

theorem authVerifySession_error {s : AuthState} {token : Option Str} {now : ℤ} (st : SmStatus)
    (h : (authVerifySession s token now).1 = .error st) : st ≠ .ok := by
  unfold authVerifySession at h
  split at h
  · cases h
    decide
  · split at h
    · cases h
      decide
    · dsimp only at h
      split at h
      · cases h
        decide
      · cases h

theorem authLogout_users (s : AuthState) (token : Option Str) :
    (authLogout s token).2.users = s.users ∧ (authLogout s token).2.usersPath = s.usersPath := by
  unfold authLogout
  split
  · exact ⟨rfl, rfl⟩
  · split <;> exact ⟨rfl, rfl⟩

theorem authShutdown_users (s : AuthState) (io : UserIo) :
    (authShutdown s io).users = s.users ∧ (authShutdown s io).usersPath = s.usersPath := by
  unfold authShutdown
  split <;> exact ⟨rfl, rfl⟩

theorem authStep_users (s : AuthState) (op : AuthOp) : TableStep s op (authStep s op).1.users := by
  cases op with
  | init path input =>
    cases path with
    | none => exact .same fun _ _ h => (by cases h)
    | some path =>
      simp only [authStep, authInit]
      split
      case h_1 users hread => exact .loaded hread
      case h_2 hread => exact .seeded hread
  | shutdown io =>
    rw [show (authStep s (.shutdown io)).1.users = s.users from (authShutdown_users s io).1]
    exact .same fun _ _ h => (by cases h)
  | login username password outSession input => exact login_table s username password outSession input
  | logout token =>
    rw [show (authStep s (.logout token)).1.users = s.users from (authLogout_users s token).1]
    exact .same fun _ _ h => (by cases h)
  | verify token now =>
    rw [show (authStep s (.verify token now)).1.users = s.users from
      (authVerifySession_accounts s token now).1]
    exact .same fun _ _ h => (by cases h)
  | createUser username password role salt io => exact create_table s username password role salt io
  | rewrite caller oldPassword newPassword salt lockOk io =>
    exact rewrite_table s caller oldPassword newPassword salt lockOk io
  | deleteUser username io => exact delete_table s username io

/-! ### One account -/

/-- What a section does to the account that is found under a name. -/
inductive AccountStep (name : Str) :
    AuthOp → Option (ℕ × UserRecord) → Option (ℕ × UserRecord) → Prop
  | kept {op : AuthOp} {o : Option (ℕ × UserRecord)} : AccountStep name op o o
  | failed {username password : Str} {input : LoginInput} {i : ℕ} {u : UserRecord}
      (hname : name.take smAuthMaxUsername = username.take smAuthMaxUsername)
      (hlock : isLocked u input.now = false) (hrole : u.role ≠ .admin)
      (hhash : hashPassword u.salt password ≠ u.hash) :
      AccountStep name (.login (some username) (some password) true input) (some (i, u))
        (some (i, countFailure u input.now))
  | accepted {username password : Str} {input : LoginInput} {i : ℕ} {u : UserRecord}
      (hname : name.take smAuthMaxUsername = username.take smAuthMaxUsername)
      (hlock : isLocked u input.now = false)
      (hhash : u.role = .admin ∨ hashPassword u.salt password = u.hash) :
      AccountStep name (.login (some username) (some password) true input) (some (i, u))
        (some (i, u.cleared))
  | recovered {username password : Str} {input : LoginInput} {i : ℕ} {u : UserRecord}
      (hname : name.take smAuthMaxUsername = username.take smAuthMaxUsername)
      (hrec : isRecovery u password = true) :
      AccountStep name (.login (some username) (some password) true input) (some (i, u))
        (some (i, u.cleared.withPassword input.salt password))
  | created {username password : Str} {role : SmRole} {salt : Salt} {io : UserIo} {i : ℕ} :
      AccountStep name (.createUser (some username) (some password) role salt io) none
        (some (i, ⟨true, CharField.copy _ username, salt, hashPassword salt password, role, 0, 0⟩))
  | rewritten {caller : AuthUser} {oldPassword newPassword : Str} {salt : Salt} {io : UserIo}
      {i : ℕ} {u : UserRecord} (hname : name.take smAuthMaxUsername = caller.username.chars)
      (hhash : hashPassword u.salt oldPassword = u.hash) :
      AccountStep name (.rewrite caller oldPassword newPassword salt true io) (some (i, u))
        (some (i, u.withPassword salt newPassword))
  | deleted {username : Str} {io : UserIo} {o o' : Option (ℕ × UserRecord)}
      (hname : name.take smAuthMaxUsername = username.take smAuthMaxUsername) :
      AccountStep name (.deleteUser (some username) io) o o'

theorem findUserLocked_same {users : List UserRecord} {n name : Str}
    (hn : name.take smAuthMaxUsername = n.take smAuthMaxUsername) :
    findUserLocked users name = findUserLocked users n := by
  apply Option.ext
  intro e
  have hsame : ∀ w : UserRecord, w.answers name = w.answers n := fun w => by
    rw [Bool.eq_iff_iff, UserRecord.answers_iff, UserRecord.answers_iff, hn]
  obtain ⟨i, u⟩ := e
  simp only [findUserLocked_some_iff, hsame]

theorem authStep_account (s : AuthState) (op : AuthOp) (hop : op.path = none) (name : Str) :
    AccountStep name op (findUserLocked s.users name)
      (findUserLocked (authStep s op).1.users name) := by
  have ht := authStep_users s op
  generalize (authStep s op).1.users = users at ht
  -- a write to another record, and one to this
  have other : ∀ {n i u} {v : UserRecord}, findUserLocked s.users n = some (i, u) →
      v.username = u.username → name.take smAuthMaxUsername ≠ n.take smAuthMaxUsername →
      AccountStep name op (findUserLocked s.users name)
        (findUserLocked (s.users.set i v) name) := fun hfind hname hn => by
    rw [findUserLocked_set_other hfind hname hn]
    exact .kept
  have own : ∀ {n i u} {v : UserRecord}, findUserLocked s.users n = some (i, u) →
      v.username = u.username → v.inUse = u.inUse →
      name.take smAuthMaxUsername = n.take smAuthMaxUsername →
      AccountStep name op (some (i, u)) (some (i, v)) →
      AccountStep name op (findUserLocked s.users name)
        (findUserLocked (s.users.set i v) name) := fun hfind hname huse hn hstep => by
    rw [findUserLocked_set hfind hname huse hn, findUserLocked_same hn, hfind]
    exact hstep
  cases ht with
  | same => exact .kept
  | loaded => cases hop
  | seeded => cases hop
  | @failed username password input i u hfind hlock hrole hhash =>
    by_cases hn : name.take smAuthMaxUsername = username.take smAuthMaxUsername
    · exact own hfind rfl rfl hn (.failed hn hlock hrole hhash)
    · exact other hfind rfl hn
  | @accepted username password input i u hfind hlock hhash =>
    by_cases hn : name.take smAuthMaxUsername = username.take smAuthMaxUsername
    · exact own hfind rfl rfl hn (.accepted hn hlock hhash)
    · exact other hfind rfl hn
  | @recovered username password input i u hfind hrec =>
    by_cases hn : name.take smAuthMaxUsername = username.take smAuthMaxUsername
    · exact own hfind rfl rfl hn (.recovered hn hrec)
    · exact other hfind rfl hn
  | created =>
    cases hfind : findUserLocked s.users name with
    | some e =>
      rw [findUserLocked_append_some hfind]
      exact .kept
    | none =>
      rw [findUserLocked_append_none hfind]
      split
      · exact .created
      · exact .kept
  | @rewritten caller oldPassword newPassword salt io i u hfind hhash =>
    have hcaller := List.take_of_length_le caller.username.fits
    by_cases hn : name.take smAuthMaxUsername = caller.username.chars.take smAuthMaxUsername
    · exact own hfind rfl rfl hn (.rewritten (hn.trans hcaller) hhash)
    · exact other hfind rfl hn
  | @deleted username io i u hfind =>
    by_cases hn : name.take smAuthMaxUsername = username.take smAuthMaxUsername
    · exact .deleted hn
    · exact other hfind rfl hn

/-! ### The path of the credential file -/

theorem checkCredentials_path (s : AuthState) (username password : Str) (input : LoginInput) :
    (checkCredentials s username password input).2.usersPath = s.usersPath := by
  rcases checkCredentials_cases s username password input with ⟨-, he⟩ | ⟨i, u, -, hc⟩
  · rw [he]
  · generalize checkCredentials s username password input = r at hc ⊢
    cases hc with
    | locked => rfl
    | failed => rfl
    | accepted => rfl
    | recovered hrec hs =>
      subst hs
      rfl

theorem authStep_path (s : AuthState) (op : AuthOp) :
    (authStep s op).1.usersPath = op.path.elim s.usersPath (CharField.copy 511) := by
  cases op with
  | init path input =>
    cases path with
    | none => rfl
    | some path =>
      simp only [authStep, authInit]
      split <;> rfl
  | shutdown io => exact (authShutdown_users s io).2
  | login username password outSession input =>
    simp only [authStep, authLogin]
    split
    case h_1 username password =>
      have hpath := checkCredentials_path s username password input
      split
      case h_1 st s' heq =>
        rw [heq] at hpath
        exact hpath
      case h_2 u s' heq =>
        rw [heq] at hpath
        exact (openSession_users s' u input).2.trans hpath
    case h_2 => rfl
  | logout token => exact (authLogout_users s token).2
  | verify token now => exact (authVerifySession_accounts s token now).2
  | createUser username password role salt io =>
    simp only [authStep, authCreateUser]
    split
    · split
      · rfl
      · split
        · rfl
        · split <;> rfl
    · rfl
  | rewrite caller oldPassword newPassword salt lockOk io =>
    simp only [authStep, changePasswordLocked]
    split
    · rfl
    · split
      · rfl
      · split <;> rfl
  | deleteUser username io =>
    simp only [authStep, authDeleteUser]
    split
    · rfl
    · split <;> rfl

/-- The path of a run is the one that the last `auth_init` was given. -/
theorem final_path (s : AuthState) (ops : List AuthOp) :
    (Machine.final authStep s ops).usersPath =
      (ops.filterMap AuthOp.path).getLast?.elim s.usersPath (CharField.copy 511) := by
  induction ops generalizing s with
  | nil => rfl
  | cons op ops ih =>
    rw [Machine.final_cons, ih, authStep_path]
    cases hop : op.path with
    | none => simp [hop]
    | some path =>
      simp only [List.filterMap_cons, hop, List.getLast?_cons, Option.elim_some]
      cases (ops.filterMap AuthOp.path).getLast? <;> rfl

end SubscriberMgmt
