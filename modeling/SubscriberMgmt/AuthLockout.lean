import SubscriberMgmt.AuthFile

/-!
# Guessing passwords (`auth.c:179-220, 407-504`)

The count of failed logins and the end of the lock go through the credential
file, so that a restart gives no new guesses.
-/

namespace SubscriberMgmt
open CText

/-! ### Calls and restarts -/

inductive ServiceOp where
  | call (op : AuthOp)
  | restart (io : UserIo) (input : InitInput)

/-- A restart is `auth_shutdown` and then `auth_init` with the same path. -/
def serviceStep (path : Str) (s : AuthState) : ServiceOp → AuthState
  | .call op => (authStep s op).1
  | .restart io input => (authInit (authShutdown s io) (some path) input).2

def AuthOp.IsCall : AuthOp → Prop
  | .init _ _ => False
  | .shutdown _ => False
  | _ => True

/-- The save of a restart succeeds. -/
def Serves (s : AuthState) : ServiceOp → Prop
  | .call op => op.IsCall ∧ op.InTime
  | .restart io _ => s.initialized = true ∧ (s.save io).1 = .ok

def ServiceOp.times : ServiceOp → List ℤ
  | .call op => op.times
  | .restart .. => []

/-- The clock shows no time before 1970. -/
def ServiceOp.AfterEpoch (op : ServiceOp) : Prop := ∀ t ∈ op.times, 0 ≤ t

/-- The file of the last save can be opened. -/
def ServiceOp.Reads : ServiceOp → Prop
  | .call _ => True
  | .restart _ input => input.readOk = true

def ServesWell (s : AuthState) (op : ServiceOp) : Prop := Serves s op ∧ op.AfterEpoch ∧ op.Reads

/-- A login with a wrong password that is compared with the stored hash of the
account of that name. -/
def ServiceOp.guesses (name : Str) (s : AuthState) : ServiceOp → Bool
  | .call (.login (some username) (some password) true input) =>
    decide (name.take smAuthMaxUsername = username.take smAuthMaxUsername) &&
      match findUserLocked s.users username with
      | none => false
      | some (_, u) => !isLocked u input.now && u.role != .admin &&
          !consttimeEq (hashPassword u.salt password) u.hash
  | _ => false

/-- No login to the account of that name succeeds, and the account is not deleted. -/
def ServiceOp.Refuses (name : Str) (s : AuthState) : ServiceOp → Prop
  | .call (.login (some username) (some password) true input) =>
    name.take smAuthMaxUsername = username.take smAuthMaxUsername →
      ∀ session, (authLogin s (some username) (some password) true input).1 ≠ .ok session
  | .call (.deleteUser (some username) _) =>
    name.take smAuthMaxUsername ≠ username.take smAuthMaxUsername
  | _ => True

/-- The same, and no such login is refused for want of a slot. -/
def ServiceOp.Spares (name : Str) (s : AuthState) : ServiceOp → Prop
  | .call (.login (some username) (some password) true input) =>
    name.take smAuthMaxUsername = username.take smAuthMaxUsername →
      ∀ u, (checkCredentials s username password input).1 ≠ .ok u
  | .call (.deleteUser (some username) _) =>
    name.take smAuthMaxUsername ≠ username.take smAuthMaxUsername
  | _ => True

/-- The counter of the account does not wrap. -/
def ServiceOp.Counts (name : Str) (s : AuthState) (op : ServiceOp) : Prop :=
  op.guesses name s = true →
    ∀ e, findUserLocked s.users name = some e → e.2.failedAttempts ≠ 4294967295

/-- A part of a run in the `SM_AUTH_LOCKOUT_SECONDS` seconds from `a` on, with the
number of guesses at an account. When the clock does not go back, the calls of
any shorter interval are such a part. -/
inductive Window (may : AuthState → ServiceOp → Prop) (path name : Str) (a : ℤ) (s : AuthState) :
    ℕ → AuthState → Prop
  | nil : Window may path name a s 0 s
  | step {k : ℕ} {s' : AuthState} {op : ServiceOp} (h : Window may path name a s k s')
      (hmay : may s' op) (hcounts : op.Counts name s')
      (htimes : ∀ t ∈ op.times, a ≤ t ∧ t < a + smAuthLockoutSeconds) :
      Window may path name a s (k + (op.guesses name s').toNat) (serviceStep path s' op)

/-! ### What is left of the guesses -/

/-- An account at which there were `k` guesses since the time `a`. -/
structure Spent (a : ℤ) (k : ℕ) (u : UserRecord) : Prop where
  admin : u.role = .admin → k = 0
  left : (k ≤ 5 ∧ u.lockedUntil ≠ 0 ∧ a + smAuthLockoutSeconds ≤ u.lockedUntil) ∨
    (k < 5 ∧ k ≤ u.failedAttempts.toNat)

namespace Spent

variable {a : ℤ} {k : ℕ} {u v : UserRecord}

theorem fresh (a : ℤ) (u : UserRecord) : Spent a 0 u :=
  ⟨fun _ => rfl, Or.inr ⟨by decide, Nat.zero_le _⟩⟩

theorem few (h : Spent a k u) : k ≤ 5 := by
  rcases h.left with h | h <;> omega

theorem congr (h : Spent a k u) (hrole : v.role = .admin → u.role = .admin)
    (hfailed : v.failedAttempts = u.failedAttempts) (hlocked : v.lockedUntil = u.lockedUntil) :
    Spent a k v :=
  ⟨fun hr => h.admin (hrole hr), by rw [hfailed, hlocked]; exact h.left⟩

/-- A guess is counted, and the fifth one in a row locks the account for longer
than the window. -/
theorem guess (h : Spent a k u) (hrole : u.role ≠ .admin) {now : ℤ}
    (hlock : isLocked u now = false) (hnow : 0 ≤ now) (hlo : a ≤ now)
    (hhi : now < a + smAuthLockoutSeconds) (hwrap : u.failedAttempts ≠ 4294967295) :
    Spent a (k + 1) (countFailure u now) := by
  have hopen : ¬ (u.lockedUntil ≠ 0 ∧ a + smAuthLockoutSeconds ≤ u.lockedUntil) := by
    intro h
    obtain ⟨hne, hle⟩ := h
    rcases isLocked_eq_false.mp hlock with hz | hz
    · exact hne hz
    · omega
  obtain ⟨hk, hcount⟩ := h.left.resolve_left fun hl => hopen hl.2
  have hsucc : (u.failedAttempts + 1).toNat = u.failedAttempts.toNat + 1 := by
    have hlt := u.failedAttempts.toNat_lt
    have hne : u.failedAttempts.toNat ≠ 2 ^ 32 - 1 := fun he =>
      hwrap (UInt32.toNat_inj.mp (he.trans rfl))
    rw [UInt32.toNat_add]
    exact Nat.mod_eq_of_lt (by show u.failedAttempts.toNat + 1 < 2 ^ 32; omega)
  refine ⟨fun hr => absurd hr hrole, ?_⟩
  simp only [countFailure]
  by_cases hmany : smAuthMaxAttempts ≤ u.failedAttempts + 1
  · rw [if_pos hmany]
    simp only [smAuthLockoutSeconds]
    exact Or.inl ⟨by omega, by omega, by omega⟩
  · have h5 : smAuthMaxAttempts.toNat = 5 := rfl
    rw [UInt32.le_iff_toNat_le, hsucc] at hmany
    exact Or.inr ⟨by omega, by omega⟩

end Spent

/-! ### One step -/

structure ServiceInv (path : Str) (s : AuthState) : Prop where
  accounts : AccountsInv s.users
  path : s.usersPath.chars = path

theorem AuthOp.IsCall.path {op : AuthOp} (h : op.IsCall) : op.path = none := by
  cases op <;> first | rfl | exact h.elim

theorem restart_users {path : Str} {s : AuthState} (h : ServiceInv path s) {io : UserIo}
    {input : InitInput} (hmay : Serves s (.restart io input)) (hread : input.readOk = true) :
    (serviceStep path s (.restart io input)).users = readBack s.users := by
  obtain ⟨hinit, hsave⟩ := hmay
  obtain ⟨content, hfile, hload⟩ := AuthState.save_reads hsave h.accounts
  rw [h.path] at hfile
  have hdisk : (authShutdown s io).disk = (s.save io).2.disk := by
    simp only [authShutdown, hinit, if_true]
  rw [← hdisk] at hfile
  exact (authInit_read hfile hread).2.trans (hload _)

theorem ServiceInv.step {path : Str} (hlen : path.length < 512) {s : AuthState}
    (h : ServiceInv path s) {op : ServiceOp} (hmay : Serves s op) :
    ServiceInv path (serviceStep path s op) := by
  cases op with
  | call op =>
    refine ⟨h.accounts.step hmay.2, ?_⟩
    have hpath := authStep_path s op
    rw [hmay.1.path] at hpath
    exact (congrArg CharField.chars hpath).trans h.path
  | restart io input =>
    have hshut : AccountsInv (authShutdown s io).users := by
      rw [(authShutdown_users s io).1]
      exact h.accounts
    refine ⟨@AccountsInv.step _ hshut (.init (some path) input) trivial, ?_⟩
    have hpath := authStep_path (authShutdown s io) (.init (some path) input)
    exact (congrArg CharField.chars hpath).trans (CharField.copy_chars (Nat.le_of_lt_succ hlen))

/-- The account found under a name after `k` guesses at it. -/
def Watched (a : ℤ) (k : ℕ) : Option (ℕ × UserRecord) → Prop
  | none => k = 0
  | some e => Spent a k e.2

theorem Watched.few {a : ℤ} {k : ℕ} {o : Option (ℕ × UserRecord)} (h : Watched a k o) : k ≤ 5 := by
  cases o with
  | none => exact h.le.trans (Nat.zero_le _)
  | some e => exact Spent.few h

theorem Watched.fresh (a : ℤ) (o : Option (ℕ × UserRecord)) : Watched a 0 o := by
  cases o with
  | none => rfl
  | some e => exact Spent.fresh a e.2

theorem guesses_true {name : Str} {s : AuthState} {op : ServiceOp}
    (h : op.guesses name s = true) :
    ∃ username password input i u,
      op = .call (.login (some username) (some password) true input) ∧
        name.take smAuthMaxUsername = username.take smAuthMaxUsername ∧
        findUserLocked s.users username = some (i, u) ∧ isLocked u input.now = false ∧
        u.role ≠ .admin ∧ hashPassword u.salt password ≠ u.hash := by
  unfold ServiceOp.guesses at h
  split at h
  case h_2 => cases h
  case h_1 username password input =>
    rw [Bool.and_eq_true, decide_eq_true_eq] at h
    obtain ⟨hname, h⟩ := h
    split at h
    case h_1 => cases h
    case h_2 i u hfind =>
      simp only [Bool.and_eq_true, Bool.not_eq_true', bne_iff_ne] at h
      refine ⟨username, password, input, i, u, rfl, hname, hfind, h.1.1, h.1.2, ?_⟩
      rw [Ne, ← consttimeEq_iff, h.2]
      decide

/-- A guess counts a failure of the account. -/
theorem guess_checked {s : AuthState} {username password : Str} {input : LoginInput} {i : ℕ}
    {u : UserRecord} (hfind : findUserLocked s.users username = some (i, u))
    (hlock : isLocked u input.now = false) (hrole : u.role ≠ .admin)
    (hhash : hashPassword u.salt password ≠ u.hash) :
    checkCredentials s username password input =
      (.error .errUnauthorized, ((s.setUser i (countFailure u input.now)).save input.save).2) := by
  have hc := checkCredentials_found hfind password input
  generalize checkCredentials s username password input = r at hc ⊢
  cases hc with
  | locked hl =>
    rw [hlock] at hl
    cases hl
  | failed => rfl
  | accepted hl hrec hright => exact absurd hright (not_or.mpr ⟨hrole, hhash⟩)
  | recovered hrec => exact absurd (isRecovery_role hrec).1 hrole

theorem login_refused {s s' : AuthState} {username password : Str} {input : LoginInput}
    {st : SmStatus}
    (h : checkCredentials s username password input = (.error st, s')) :
    authLogin s (some username) (some password) true input = (.error st, s') := by
  simp only [authLogin, h]

theorem guess_find {s : AuthState} {name username password : Str} {input : LoginInput} {i : ℕ}
    {u : UserRecord} (hname : name.take smAuthMaxUsername = username.take smAuthMaxUsername)
    (hfind : findUserLocked s.users username = some (i, u)) (hlock : isLocked u input.now = false)
    (hrole : u.role ≠ .admin) (hhash : hashPassword u.salt password ≠ u.hash) :
    findUserLocked
        (authStep s (.login (some username) (some password) true input)).1.users name =
      some (i, countFailure u input.now) := by
  simp only [authStep, login_refused (guess_checked hfind hlock hrole hhash)]
  exact findUserLocked_set hfind rfl rfl hname

theorem guesses_of_failed {s : AuthState} {name username password : Str} {input : LoginInput}
    {i : ℕ} {u : UserRecord} (hname : name.take smAuthMaxUsername = username.take smAuthMaxUsername)
    (hfind : findUserLocked s.users username = some (i, u)) (hlock : isLocked u input.now = false)
    (hrole : u.role ≠ .admin) (hhash : hashPassword u.salt password ≠ u.hash) :
    ServiceOp.guesses name s (.call (.login (some username) (some password) true input)) =
      true := by
  have hwrong : consttimeEq (hashPassword u.salt password) u.hash = false := by
    rw [← Bool.not_eq_true, consttimeEq_iff]
    exact hhash
  have hrole' : (u.role != .admin) = true := bne_iff_ne.mpr hrole
  simp only [ServiceOp.guesses, hname, hfind, hlock, hrole', hwrong, decide_true, Bool.not_false,
    Bool.and_self]

theorem checkCredentials_accepts {s : AuthState} {username password : Str} {input : LoginInput}
    {i : ℕ} {u : UserRecord} (hfind : findUserLocked s.users username = some (i, u))
    (h : isRecovery u password = true ∨ isLocked u input.now = false ∧
      (u.role = .admin ∨ hashPassword u.salt password = u.hash)) :
    ∃ v, (checkCredentials s username password input).1 = .ok v := by
  have hc := checkCredentials_found hfind password input
  generalize checkCredentials s username password input = r at hc ⊢
  cases hc with
  | locked hl hrec =>
    rcases h with h | h
    · rw [hrec] at h
      cases h
    · rw [hl] at h
      cases h.1
  | failed hl hrole hhash =>
    rcases h with h | h
    · exact absurd (isRecovery_role h).1 hrole
    · exact absurd h.2 (not_or.mpr ⟨hrole, hhash⟩)
  | accepted => exact ⟨_, rfl⟩
  | recovered => exact ⟨_, rfl⟩

/-- A call that spares the account: a guess is counted, and every other call
leaves the counter and the lock. -/
theorem Watched.call {name : Str} {a : ℤ} {k : ℕ} {s : AuthState} {op : AuthOp}
    (h : Watched a k (findUserLocked s.users name)) (hcall : op.IsCall)
    (htimes : ∀ t ∈ op.times, 0 ≤ t ∧ a ≤ t ∧ t < a + smAuthLockoutSeconds)
    (hspares : ServiceOp.Spares name s (.call op)) (hcounts : ServiceOp.Counts name s (.call op)) :
    Watched a (k + (ServiceOp.guesses name s (.call op)).toNat)
      (findUserLocked (authStep s op).1.users name) := by
  cases hguess : ServiceOp.guesses name s (.call op) with
  | true =>
    obtain ⟨username, password, input, i, u, he, hname, hfind, hlock, hrole, hhash⟩ :=
      guesses_true hguess
    cases he
    have hold : findUserLocked s.users name = some (i, u) := (findUserLocked_same hname).trans hfind
    rw [hold] at h
    rw [guess_find hname hfind hlock hrole hhash]
    obtain ⟨hnow, hlo, hhi⟩ := htimes input.now (List.mem_singleton_self _)
    exact Spent.guess h hrole hlock hnow hlo hhi (hcounts hguess _ hold)
  | false =>
    have hstep := authStep_account s op hcall.path name
    show Watched a k _
    generalize hold : findUserLocked s.users name = old at h hstep
    generalize findUserLocked (authStep s op).1.users name = new at hstep ⊢
    cases hstep with
    | kept => exact h
    | failed hname hlock hrole hhash =>
      rw [findUserLocked_same hname] at hold
      rw [guesses_of_failed hname hold hlock hrole hhash] at hguess
      cases hguess
    | accepted hname hlock hhash =>
      rw [findUserLocked_same hname] at hold
      obtain ⟨v, hv⟩ := checkCredentials_accepts hold (Or.inr ⟨hlock, hhash⟩)
      exact absurd hv (hspares hname v)
    | recovered hname hrec =>
      rw [findUserLocked_same hname] at hold
      obtain ⟨v, hv⟩ := checkCredentials_accepts hold (Or.inl hrec)
      exact absurd hv (hspares hname v)
    | created =>
      have hk : k = 0 := h
      rw [hk]
      exact Watched.fresh a _
    | rewritten => exact Spent.congr h id rfl rfl
    | deleted hname => exact absurd hname hspares

theorem Watched.restart {path name : Str} {a : ℤ} {k : ℕ} {s : AuthState}
    (hinv : ServiceInv path s) (h : Watched a k (findUserLocked s.users name)) {io : UserIo}
    {input : InitInput} (hmay : Serves s (.restart io input)) (hread : input.readOk = true) :
    Watched a k
      (findUserLocked (serviceStep path s (.restart io input)).users name) := by
  rw [restart_users hinv hmay hread]
  cases hold : findUserLocked s.users name with
  | none =>
    rw [readBack_none hold]
    rw [hold] at h
    exact h
  | some e =>
    obtain ⟨j, hnew⟩ := readBack_some hold
    rw [hnew]
    rw [hold] at h
    exact Spent.congr h reread_admin rfl rfl

theorem ServiceInv.window {path name : Str} {a : ℤ} {k : ℕ} {s s' : AuthState}
    (hlen : path.length < 512) (hinv : ServiceInv path s)
    (h : Window (fun s op => ServesWell s op ∧ op.Spares name s) path name a s k s') :
    ServiceInv path s' ∧ Watched a k (findUserLocked s'.users name) := by
  induction h with
  | nil => exact ⟨hinv, Watched.fresh a _⟩
  | @step k s' op h hmay hcounts htimes ih =>
    obtain ⟨hinv', hw⟩ := ih
    obtain ⟨⟨hserves, hepoch, hreads⟩, hspares⟩ := hmay
    refine ⟨hinv'.step hlen hserves, ?_⟩
    cases op with
    | call op =>
      exact hw.call hserves.1 (fun t ht => ⟨hepoch t ht, htimes t ht⟩) hspares hcounts
    | restart io input => exact Watched.restart hinv' hw hserves hreads

/-! ### Guesses in a row -/

/-- The record of an account after `n` guesses at a time. -/
def UserRecord.failures (u : UserRecord) (now : ℤ) (n : ℕ) : UserRecord :=
  (fun v => countFailure v now)^[n] u

theorem UserRecord.failures_succ (u : UserRecord) (now : ℤ) (n : ℕ) :
    u.failures now (n + 1) = countFailure (u.failures now n) now :=
  Function.iterate_succ_apply' ..

theorem UserRecord.failures_same (u : UserRecord) (now : ℤ) (n : ℕ) :
    (u.failures now n).role = u.role ∧ (u.failures now n).salt = u.salt ∧
      (u.failures now n).hash = u.hash := by
  induction n with
  | zero => exact ⟨rfl, rfl, rfl⟩
  | succ n ih =>
    rw [failures_succ]
    exact ih

/-- The calls of the claim's interval: no login to the account succeeds. -/
def Attempt (serves : AuthState → ServiceOp → Prop) (name : Str) (s : AuthState) (op : ServiceOp) :
    Prop := serves s op ∧ op.Refuses name s

/-- Guesses one after the other, while the account is open. -/
theorem Window.guess {may : AuthState → ServiceOp → Prop} {path name : Str} {a : ℤ}
    {s s' : AuthState} {k : ℕ} (h : Window may path name a s k s') {i : ℕ} {u : UserRecord}
    (hfind : findUserLocked s'.users name = some (i, u)) (hrole : u.role ≠ .admin)
    {password : Str} (hhash : hashPassword u.salt password ≠ u.hash) (input : LoginInput)
    (htime : a ≤ input.now ∧ input.now < a + smAuthLockoutSeconds)
    (hmay : ∀ t, (∀ v, (checkCredentials t name password input).1 ≠ .ok v) →
      may t (.call (.login (some name) (some password) true input))) {n : ℕ}
    (hopen : ∀ j < n, isLocked (u.failures input.now j) input.now = false ∧
      (u.failures input.now j).failedAttempts ≠ 4294967295) :
    ∃ t, Window may path name a s (k + n) t ∧
      findUserLocked t.users name = some (i, u.failures input.now n) ∧
      t.sessions = s'.sessions ∧ t.usersPath = s'.usersPath ∧ t.initialized = s'.initialized ∧
      ∀ q old, q ≠ s'.usersPath.chars → q ≠ usersTmpPath s'.usersPath.chars →
        s'.disk.Steady q old → t.disk.Steady q old := by
  induction n with
  | zero => exact ⟨s', h, hfind, rfl, rfl, rfl, fun _ _ _ _ hs => hs⟩
  | succ n ih =>
    obtain ⟨t, hwin, hfind', hsess, hpath, hinit, hdisk⟩ :=
      ih fun j hj => hopen j (Nat.lt_succ_of_lt hj)
    obtain ⟨hlock, hfit⟩ := hopen n (Nat.lt_succ_self n)
    obtain ⟨hr, hsalt, hsame⟩ := u.failures_same input.now n
    have hrole' : (u.failures input.now n).role ≠ .admin := by rwa [hr]
    have hhash' : hashPassword (u.failures input.now n).salt password ≠
        (u.failures input.now n).hash := by rwa [hsalt, hsame]
    have hcheck := guess_checked hfind' hlock hrole' hhash'
    have hlogin := login_refused hcheck
    have hguess := guesses_of_failed rfl hfind' hlock hrole' hhash'
    have hnext := @Window.step _ _ _ _ _ _ _ (.call (.login (some name) (some password) true input))
      hwin (hmay t fun v hv => by rw [hcheck] at hv; cases hv)
      (fun _ e he => by rw [hfind'] at he; cases he; exact hfit)
      (fun x hx => by rw [List.mem_singleton.mp hx]; exact htime)
    rw [hguess] at hnext
    refine ⟨_, hnext, ?_, ?_, ?_, ?_, ?_⟩
    · rw [UserRecord.failures_succ]
      exact guess_find rfl hfind' hlock hrole' hhash'
    all_goals simp only [serviceStep, authStep, hlogin]
    · exact hsess
    · exact hpath
    · exact hinit
    · intro q old hq hq' hs
      rw [← hpath] at hq hq'
      exact saveUsersLocked_steady (hdisk q old (hpath ▸ hq) (hpath ▸ hq') hs) hq hq' _ _

theorem Attempt.of_serves {serves : AuthState → ServiceOp → Prop} {name password : Str}
    {input : LoginInput} {s : AuthState}
    (hserves : serves s (.call (.login (some name) (some password) true input)))
    (hno : ∀ v, (checkCredentials s name password input).1 ≠ .ok v) :
    Attempt serves name s (.call (.login (some name) (some password) true input)) := by
  refine ⟨hserves, fun _ session hok => ?_⟩
  simp only [authLogin] at hok
  split at hok
  case h_1 => cases hok
  case h_2 u s' heq => exact hno u (by rw [heq])

/-- Five guesses at an account without failures find it open, and more where the
lock would end at the time 0. -/
theorem failures_open {u : UserRecord} (hfailed : u.failedAttempts = 0)
    (hlocked : u.lockedUntil = 0) {now : ℤ} {j : ℕ}
    (hj : j < 5 ∨ now = -smAuthLockoutSeconds ∧ j < 6) :
    isLocked (u.failures now j) now = false ∧ (u.failures now j).failedAttempts ≠ 4294967295 := by
  have hcount : (u.failures now j).failedAttempts.toNat = j ∧
      (u.failures now j).lockedUntil = 0 := by
    induction j with
    | zero => exact ⟨by rw [show (u.failures now 0).failedAttempts = 0 from hfailed]; rfl, hlocked⟩
    | succ j ih =>
      obtain ⟨hf, hl⟩ := ih (by omega)
      rw [UserRecord.failures_succ]
      simp only [countFailure, hl, UInt32.le_iff_toNat_le, UInt32.toNat_add, hf]
      have h5 : smAuthMaxAttempts.toNat = 5 := rfl
      have h1 : (1 : UInt32).toNat = 1 := rfl
      have hmod : (j + 1) % 2 ^ 32 = j + 1 := Nat.mod_eq_of_lt (by omega)
      rw [h5, h1, hmod]
      refine ⟨rfl, ?_⟩
      rcases hj with hj | hj
      · rw [if_neg (by omega)]
      · rw [hj.1]
        simp
  obtain ⟨hf, hl⟩ := hcount
  refine ⟨isLocked_eq_false.mpr (Or.inl hl), fun he => ?_⟩
  have h2 : (4294967295 : UInt32).toNat = 2 ^ 32 - 1 := rfl
  rw [he] at hf
  omega

/-- A credential file with one account of role OPERATOR. -/
def operatorFile (path : Str) (digit : UInt8) : Str → Option Str := fun p =>
  if p = path then
    some (lit "op," ++ List.replicate 32 48 ++ comma :: List.replicate 64 digit ++
      lit ",OPERATOR,0,0\n")
  else none

def operatorRecord (byte : UInt8) : UserRecord :=
  ⟨true, CharField.copy _ (lit "op"), Vector.replicate _ 0, Vector.replicate _ byte, .operator, 0,
    0⟩

/-- The account of a file that a password does not open. -/
theorem operatorFile_wrong (password : Str) : ∃ digit byte,
    hashPassword (operatorRecord byte).salt password ≠ (operatorRecord byte).hash ∧
      ∀ path, ∃ content, operatorFile path digit path = some content ∧
        loadUsersLocked (fun _ => ([], [])) content = [operatorRecord byte] := by
  have hload : ∀ path digit byte,
      loadUsersLocked (fun _ => ([], [])) (lit "op," ++ List.replicate 32 48 ++
        comma :: List.replicate 64 digit ++ lit ",OPERATOR,0,0\n") = [operatorRecord byte] →
      ∃ content, operatorFile path digit path = some content ∧
        loadUsersLocked (fun _ => ([], [])) content = [operatorRecord byte] := by
    intro path digit byte h
    exact ⟨_, by rw [operatorFile, if_pos rfl], h⟩
  by_cases hright : hashPassword (Vector.replicate _ 0) password = Vector.replicate _ 0
  · refine ⟨49, 17, fun h => ?_, fun path => hload path _ _ (by decide +kernel)⟩
    have hne : (Vector.replicate 32 0 : Digest) ≠ Vector.replicate 32 17 := by decide
    exact hne (hright.symm.trans h)
  · exact ⟨48, 0, hright, fun path => hload path _ _ (by decide +kernel)⟩

theorem authInit_initialized {s : AuthState} {path : Str} {input : InitInput} {content : Str}
    (hfile : s.disk.files path = some content) (hread : input.readOk = true) :
    (authInit s (some path) input).2.initialized = true := by
  have hr : readUsers s.disk.files path input = some (loadUsersLocked input.stale content) := by
    simp only [readUsers, hread, if_true, hfile, Option.map_some]
  simp only [authInit, hr]

/-- An `auth_init` that reads the file of `operatorFile_wrong`. -/
theorem operator_start {s : AuthState} {path content : Str} {byte : UInt8}
    (hcontent : s.disk.files path = some content)
    (hload : loadUsersLocked (fun _ => ([], [])) content = [operatorRecord byte]) :
    findUserLocked (authInit s (some path) (drawn true 0)).2.users (lit "op") =
      some (0, operatorRecord byte) := by
  rw [(authInit_read hcontent rfl).2]
  exact (congrArg (findUserLocked · (lit "op")) hload).trans rfl

theorem zeroLogin_serves (s : AuthState) (name password : Str) :
    ServesWell s (.call (.login (some name) (some password) true (zeroLogin 0))) :=
  ⟨⟨trivial, (show (-2 ^ 63 : ℤ) ≤ 0 ∧ (0 : ℤ) + 300 < 2 ^ 63 by decide)⟩,
    (show ∀ t ∈ [(0 : ℤ)], 0 ≤ t by decide), trivial⟩

/-! ### The bound -/

theorem authInit_serviceInv (files : Str → Option Str) {path : Str} (hlen : path.length < 512)
    (input : InitInput) :
    ServiceInv path (authInit (AuthState.start files) (some path) input).2 := by
  have hempty : AccountsInv (AuthState.start files).users :=
    ⟨fun u hu => (by cases hu), Nat.zero_le _⟩
  refine ⟨@AccountsInv.step _ hempty (.init (some path) input) trivial, ?_⟩
  have hpath := authStep_path (AuthState.start files) (.init (some path) input)
  exact (congrArg CharField.chars hpath).trans (CharField.copy_chars (Nat.le_of_lt_succ hlen))

/-- A login to an account whose lock has not ended does nothing. -/
theorem login_locked {s : AuthState} {username : Str} {i : ℕ} {u : UserRecord}
    (hfind : findUserLocked s.users username = some (i, u)) (hrole : u.role ≠ .admin)
    (password : Str) {input : LoginInput} (hnow : 0 ≤ input.now)
    (hlock : input.now < u.lockedUntil) :
    authLogin s (some username) (some password) true input = (.error .errUnauthorized, s) := by
  have hlocked : isLocked u input.now = true := by
    rw [← Bool.not_eq_false, isLocked_eq_false]
    omega
  simp only [authLogin]
  have hc := checkCredentials_found hfind password input
  generalize checkCredentials s username password input = r at hc ⊢
  cases hc with
  | locked => rfl
  | failed hl =>
    rw [hlocked] at hl
    cases hl
  | accepted hl =>
    rw [hlocked] at hl
    cases hl
  | recovered hrec => exact absurd (isRecovery_role hrec).1 hrole

theorem Window.reach {may may' : AuthState → ServiceOp → Prop} {path name : Str} {a : ℤ}
    {start s s' : AuthState} {k : ℕ} (h : Window may path name a s k s')
    (hs : Machine.Reach (serviceStep path) may' start s) (hmay : ∀ t op, may t op → may' t op) :
    Machine.Reach (serviceStep path) may' start s' := by
  induction h with
  | nil => exact hs
  | step h hop _ _ ih => exact .step ih (hmay _ _ hop)

/-- In every run with a path shorter than its buffer: at most `SM_AUTH_MAX_ATTEMPTS`
guesses in `SM_AUTH_LOCKOUT_SECONDS`, restarts or not, and none while the account
is locked. -/
theorem guesses_bounded (files : Str → Option Str) (path : Str) (hlen : path.length < 512)
    (input : InitInput) (s : AuthState)
    (hreach : Machine.Reach (serviceStep path) ServesWell
      (authInit (AuthState.start files) (some path) input).2 s) (name : Str) :
    (∀ a k s', Window (fun s op => ServesWell s op ∧ op.Spares name s) path name a s k s' →
        k ≤ smAuthMaxAttempts.toNat) ∧
      ∀ i u, findUserLocked s.users name = some (i, u) → u.role ≠ .admin →
        ∀ password input, 0 ≤ input.now → input.now < u.lockedUntil →
          authLogin s (some name) (some password) true input = (.error .errUnauthorized, s) := by
  have hinv : ServiceInv path s := hreach.invariant (authInit_serviceInv files hlen input)
    fun s op hs hop => hs.step hlen hop.1
  refine ⟨fun a k s' hwin => ?_, fun i u hfind hrole password input hnow hlock => ?_⟩
  · exact (hinv.window hlen hwin).2.few
  · exact login_locked hfind hrole password hnow hlock

theorem guesses_bounded_op : ∃ digit s',
    Window (fun s op => ServesWell s op ∧ op.Spares (lit "op") s) (lit "u.csv") (lit "op") 0
        (authInit (AuthState.start (operatorFile (lit "u.csv") digit)) (some (lit "u.csv"))
          (drawn true 0)).2 5 s' ∧
      5 ≤ smAuthMaxAttempts.toNat ∧
      authLogin s' (some (lit "op")) (some (lit "y")) true (zeroLogin 299) =
        (.error .errUnauthorized, s') := by
  obtain ⟨digit, byte, hwrong, hfile⟩ := operatorFile_wrong (lit "x")
  obtain ⟨content, hcontent, hload⟩ := hfile (lit "u.csv")
  have hstart : (AuthState.start (operatorFile (lit "u.csv") digit)).disk.files (lit "u.csv") =
      some content := hcontent
  have hnil : ∀ s, Window (fun s op => ServesWell s op ∧ op.Spares (lit "op") s) (lit "u.csv")
      (lit "op") 0 s 0 s := fun _ => .nil
  obtain ⟨t, hwin, hfind, -⟩ := Window.guess (n := 5) (hnil _) (operator_start hstart hload)
    (fun h => (by cases h)) hwrong (zeroLogin 0) (by decide)
    (fun s hno => ⟨zeroLogin_serves s _ _, fun _ => hno⟩)
    (fun j hj => failures_open rfl rfl (Or.inl hj))
  have hbound := guesses_bounded (operatorFile (lit "u.csv") digit) (lit "u.csv") (by decide)
    (drawn true 0)
  refine ⟨digit, t, hwin, (hbound _ .start (lit "op")).1 0 5 t hwin, ?_⟩
  exact (hbound t (hwin.reach .start fun _ _ h => h.1) (lit "op")).2 0 _ hfind
    (fun h => (by cases h)) (lit "y") (zeroLogin 299) (by decide) (show (299 : ℤ) < 300 by decide)

/-! ### Beyond the bound -/

/-- More guesses than `SM_AUTH_MAX_ATTEMPTS` in a part of a run. -/
def Overrun (serves : AuthState → ServiceOp → Prop) (path : Str) : Prop :=
  ∃ files input s name a k s',
    Machine.Reach (serviceStep path) serves (authInit (AuthState.start files) (some path) input).2
      s ∧
    Window (Attempt serves name) path name a s k s' ∧ smAuthMaxAttempts.toNat < k

/-- A lock that would end at the time 0 is no lock. -/
theorem overrun_before_epoch : Overrun (fun s op => Serves s op ∧ op.Reads) (lit "u.csv") := by
  obtain ⟨digit, byte, hwrong, hfile⟩ := operatorFile_wrong (lit "x")
  obtain ⟨content, hcontent, hload⟩ := hfile (lit "u.csv")
  have hstart : (AuthState.start (operatorFile (lit "u.csv") digit)).disk.files (lit "u.csv") =
      some content := hcontent
  have hfind := operator_start hstart hload
  have hserves : ∀ s, Serves s (.call (.login (some (lit "op")) (some (lit "x")) true
      (zeroLogin (-300)))) := fun _ =>
    ⟨trivial, (show (-2 ^ 63 : ℤ) ≤ -300 ∧ (-300 : ℤ) + 300 < 2 ^ 63 by decide)⟩
  have hnil : ∀ s, Window (Attempt (fun s op => Serves s op ∧ op.Reads) (lit "op")) (lit "u.csv")
      (lit "op") (-300) s 0 s := fun _ => .nil
  obtain ⟨t, hwin, -⟩ := Window.guess (n := 6) (hnil _) hfind (fun h => (by cases h)) hwrong
    (zeroLogin (-300)) (by decide) (fun s => Attempt.of_serves ⟨hserves s, trivial⟩)
    (fun j hj => failures_open rfl rfl (Or.inr ⟨rfl, hj⟩))
  exact ⟨_, _, _, _, _, _, t, .start, hwin, by decide⟩

/-- With a path that does not fit its buffer, a restart takes the old counter. -/
theorem overrun_long_path {path : Str} (hlen : path.length = 512) : Overrun ServesWell path := by
  obtain ⟨digit, byte, hwrong, hfile⟩ := operatorFile_wrong (lit "x")
  obtain ⟨content, hcontent, hload⟩ := hfile path
  let s0 := AuthState.start (operatorFile path digit)
  have hstart : s0.disk.files path = some content := hcontent
  have hother : ∀ {t : Str}, t.length ≠ 512 → path ≠ t := fun ht he => ht (he ▸ hlen)
  have htake : (path.take 511).length = 511 := by
    rw [List.length_take]
    omega
  have hne : path ≠ path.take 511 := hother (by omega)
  have htmp : path ≠ usersTmpPath (path.take 511) := by
    apply hother
    have h4 : (lit ".tmp").length = 4 := rfl
    rw [usersTmpPath, List.length_take, List.length_append, htake, h4]
    decide
  have hsteady : (authInit s0 (some path) (drawn true 0)).2.disk.Steady path (some content) := by
    rw [(authInit_read hstart rfl).1, ← hstart]
    exact Disk.start_steady _ _
  have hinit := authInit_initialized hstart (rfl : (drawn true 0).readOk = true)
  have hpath : (authInit s0 (some path) (drawn true 0)).2.usersPath = CharField.copy 511 path :=
    authStep_path s0 (.init _ (drawn true 0))
  have hfind := operator_start hstart hload
  have hnil : ∀ s, Window (Attempt ServesWell (lit "op")) path (lit "op") 0 s 0 s := fun _ => .nil
  obtain ⟨t, hwin, -, -, hpath1, hinit1, hdisk⟩ := Window.guess (n := 5) (hnil _) hfind
    (fun h => (by cases h)) hwrong (zeroLogin 0) (by decide)
    (fun s => Attempt.of_serves (zeroLogin_serves s _ _))
    (fun j hj => failures_open rfl rfl (Or.inl hj))
  rw [hpath] at hpath1 hdisk
  have hchars : t.usersPath.chars = path.take 511 := by rw [hpath1]; rfl
  -- the restart saves to the shorter path and reads the longer one
  have hsaved : (t.save UserIo.all).1 = .ok := by
    rw [AuthState.save_all, hchars, if_neg fun he => ?_]
    rw [he] at htake
    cases htake
  have hnext := @Window.step _ _ _ _ _ _ _ (.restart UserIo.all (drawn true 0)) hwin
    ⟨⟨⟨hinit1.trans hinit, hsaved⟩, fun _ hx => absurd hx List.not_mem_nil, rfl⟩, trivial⟩
    (fun h => (by cases h)) (fun _ hx => absurd hx List.not_mem_nil)
  have hkept : (authShutdown t UserIo.all).disk.files path = some content := by
    have hsave := saveUsersLocked_steady (hdisk path _ hne htmp hsteady) hne htmp t.users UserIo.all
    rw [← hchars] at hsave
    have hshut : (authShutdown t UserIo.all).disk = (t.save UserIo.all).2.disk := by
      simp only [authShutdown, hinit1.trans hinit, if_true]
    rw [hshut]
    exact hsave.now
  have hfind2 := operator_start hkept hload
  obtain ⟨t2, hwin2, -⟩ := Window.guess hnext hfind2 (fun h => (by cases h)) hwrong (n := 1)
    (zeroLogin 0) (by decide) (fun s => Attempt.of_serves (zeroLogin_serves s _ _))
    (fun j hj => failures_open rfl rfl (Or.inl (by omega)))
  exact ⟨_, _, _, _, _, _, t2, .start, hwin2, (show 5 < 0 + 5 + 0 + 1 by decide)⟩

/-! ### Seeded accounts -/

section Seeded

variable {s : AuthState} {input : InitInput}

def operatorPassword (input : InitInput) : Str := smHexEncode input.operator.password.toList

theorem authInit_seeded {path : Str} (hread : readUsers s.disk.files path input = none)
    (hpath : path ≠ []) (hsave : input.save = UserIo.all) :
    findUserLocked (authInit s (some path) input).2.users (lit "operator") =
        some (1, seedUser (lit "operator") .operator (operatorPassword input) input.operator.salt) ∧
      (authInit s (some path) input).2.initialized = true := by
  have hok : (saveUsersLocked (seedDefaultUsersLocked input.adminSalt input.operator input.viewer)
      path input.save s.disk).1 = .ok := by
    rw [saveUsersLocked_ok_iff, hsave]
    exact ⟨hpath, by simp [UserIo.all]⟩
  simp only [authInit, hread, hok, decide_true, and_true]
  rfl

end Seeded

/-- A restart that cannot open the file seeds the account anew. -/
theorem overrun_unread {input : InitInput} {password : Str} (hread : input.readOk = false)
    (hsave : input.save = UserIo.all)
    (hwrong : hashPassword input.operator.salt password ≠
      hashPassword input.operator.salt (operatorPassword input)) :
    Overrun (fun s op => Serves s op ∧ op.AfterEpoch) (lit "u.csv") := by
  have hpath : lit "u.csv" ≠ [] := by decide
  have hnone : ∀ files, readUsers files (lit "u.csv") input = none := fun files => by
    rw [readUsers, hread]
    rfl
  let s0 := AuthState.start fun _ => none
  obtain ⟨hfind, hinit⟩ := authInit_seeded (hnone s0.disk.files) hpath hsave
  have hupath : (authInit s0 (some (lit "u.csv")) input).2.usersPath =
      CharField.copy 511 (lit "u.csv") := authStep_path s0 (.init _ input)
  have hnil : ∀ s, Window (Attempt (fun s op => Serves s op ∧ op.AfterEpoch) (lit "operator"))
      (lit "u.csv") (lit "operator") 0 s 0 s := fun _ => .nil
  obtain ⟨t, hwin, -, -, hpath1, hinit1, -⟩ := Window.guess (n := 5) (hnil _) hfind
    (fun h => (by cases h)) hwrong (zeroLogin 0) (by decide) (fun s => Attempt.of_serves
      ⟨(zeroLogin_serves s _ _).1, (zeroLogin_serves s _ _).2.1⟩)
    (fun j hj => failures_open rfl rfl (Or.inl hj))
  have hsaved : (t.save UserIo.all).1 = .ok := by
    rw [AuthState.save_all, hpath1, hupath]
    rfl
  have hnext := @Window.step _ _ _ _ _ _ _ (.restart UserIo.all input) hwin
    ⟨⟨⟨hinit1.trans hinit, hsaved⟩, fun _ hx => absurd hx List.not_mem_nil⟩, trivial⟩
    (fun h => (by cases h)) (fun _ hx => absurd hx List.not_mem_nil)
  obtain ⟨hfind2, -⟩ := authInit_seeded (s := authShutdown t UserIo.all)
    (hnone (authShutdown t UserIo.all).disk.files) hpath hsave
  obtain ⟨t2, hwin2, -⟩ := Window.guess hnext hfind2 (fun h => (by cases h)) hwrong (n := 1)
    (zeroLogin 0) (by decide) (fun s => Attempt.of_serves
      ⟨(zeroLogin_serves s _ _).1, (zeroLogin_serves s _ _).2.1⟩)
    (fun j hj => failures_open rfl rfl (Or.inl (by omega)))
  exact ⟨_, _, _, _, _, _, t2, .start, hwin2, (show 5 < 0 + 5 + 0 + 1 by decide)⟩

/-! ### A full session table -/

/-- Every slot holds a session that is valid at the time 0. -/
def AuthState.Full (s : AuthState) : Prop := ∀ j, ∃ l, s.table j = some l ∧ 0 ≤ l.expiry

theorem openSession_full {s : AuthState} (h : s.Full) (u : UserRecord) :
    openSession s u (zeroLogin 0) = (.error .errCapacity, s) := by
  rcases openSession_cases s u (zeroLogin 0) with ⟨herr, hs, -⟩ | ⟨j, hj, -⟩
  · exact Prod.ext herr hs
  · obtain ⟨l, hl, hle⟩ := h j
    have hlt : l.expiry < 0 := hj l hl
    omega

section Accepted

variable {s : AuthState} {username password : Str} {input : LoginInput} {i : ℕ} {u : UserRecord}

/-- Logins of one account fill the table. -/
theorem fill_table (path password : Str) {start : AuthState} (n : ℕ)
    (h : Machine.Reach (serviceStep path) ServesWell start s)
    (hn : ∃ js : Finset SlotIndex, js.card = n ∧
      ∀ j ∉ js, ∃ l, s.table j = some l ∧ 0 ≤ l.expiry)
    (hfind : findUserLocked s.users username = some (i, u)) (hclear : u.cleared = u)
    (hrole : u.role ≠ .admin) (hhash : hashPassword u.salt password = u.hash) :
    ∃ t, Machine.Reach (serviceStep path) ServesWell start t ∧ t.Full ∧
      findUserLocked t.users username = some (i, u) := by
  induction n generalizing s with
  | zero =>
    obtain ⟨js, hcard, hjs⟩ := hn
    rw [Finset.card_eq_zero] at hcard
    exact ⟨s, h, fun j => hjs j (by rw [hcard]; exact Finset.notMem_empty j), hfind⟩
  | succ n ih =>
    obtain ⟨js, hcard, hjs⟩ := hn
    have hlock : isLocked u (zeroLogin 0).now = false :=
      isLocked_eq_false.mpr (Or.inl (by rw [← hclear]; rfl))
    have hrec : isRecovery u password = false :=
      Bool.eq_false_iff.mpr fun h => hrole (isRecovery_role h).1
    have hlogin := login_accepted hfind hlock hrec (Or.inr hhash)
    rw [hclear] at hlogin
    have hset : findUserLocked (s.setUser i u).users username = some (i, u) :=
      findUserLocked_set hfind rfl rfl rfl
    by_cases hfull : s.Full
    · exact ⟨s, h, hfull, hfind⟩
    have hnext := Machine.Reach.step (a := .call (.login (some username) (some password) true
      (zeroLogin 0))) h (zeroLogin_serves s username password)
    have hstate : serviceStep path s (.call (.login (some username) (some password) true
        (zeroLogin 0))) = (openSession (s.setUser i u) u (zeroLogin 0)).2 :=
      congrArg Prod.snd hlogin
    rw [hstate] at hnext
    refine ih hnext ?_ (by rw [(openSession_users _ _ _).1]; exact hset)
    rcases openSession_cases (s.setUser i u) u (zeroLogin 0) with ⟨-, -, hall⟩ | ⟨j, hj, -, htab⟩
    · exact absurd hall hfull
    · -- the slot taken was one of those left
      have hmem : j ∈ js := by
        by_contra hno
        obtain ⟨l, hl, hle⟩ := hjs j hno
        have hlt : l.expiry < 0 := hj l hl
        omega
      refine ⟨js.erase j, by rw [Finset.card_erase_of_mem hmem, hcard]; rfl, fun i hi => ?_⟩
      rw [htab]
      by_cases hij : i = j
      · subst hij
        exact ⟨_, Function.update_self .., (show (0 : ℤ) ≤ 0 + 1800 by decide)⟩
      · rw [Function.update_of_ne hij]
        exact hjs i fun hm => hi (Finset.mem_erase.mpr ⟨hij, hm⟩)

end Accepted

/-- A right password clears the counter also when there is no slot for the session. -/
theorem overrun_capacity {input : InitInput} {password : Str} (hread : input.readOk = false)
    (hsave : input.save = UserIo.all)
    (hwrong : hashPassword input.operator.salt password ≠
      hashPassword input.operator.salt (operatorPassword input)) :
    Overrun ServesWell (lit "u.csv") := by
  have hpath : lit "u.csv" ≠ [] := by decide
  have hnone : ∀ files, readUsers files (lit "u.csv") input = none := fun files => by
    rw [readUsers, hread]
    rfl
  let s0 := AuthState.start fun _ => none
  obtain ⟨hfind, -⟩ := authInit_seeded (hnone s0.disk.files) hpath hsave
  obtain ⟨s, hreach, hfull, hfinds⟩ := fill_table (lit "u.csv") (operatorPassword input)
    smAuthMaxSessions .start
    ⟨Finset.univ, Finset.card_fin _, fun j hj => absurd (Finset.mem_univ j) hj⟩ hfind rfl
    (fun h => (by cases h)) rfl
  have hnil : Window (Attempt ServesWell (lit "operator")) (lit "u.csv") (lit "operator") 0 s 0 s :=
    .nil
  obtain ⟨t, hwin, hfindt, hsess, -⟩ := Window.guess (n := 4) hnil hfinds (fun h => (by cases h))
    hwrong (zeroLogin 0) (by decide)
    (fun s => Attempt.of_serves (zeroLogin_serves s _ _))
    (fun j hj => failures_open rfl rfl (Or.inl (by omega)))
  let u := seedUser (lit "operator") .operator (operatorPassword input) input.operator.salt
  have hfullt : (t.setUser 1 u).Full := by
    intro j
    have htab : (t.setUser 1 u).table j = s.table j := by
      simp only [AuthState.table, AuthState.setUser, hsess]
    rw [htab]
    exact hfull j
  have hopen : isLocked (u.failures 0 4) 0 = false :=
    (failures_open (u := u) rfl rfl (Or.inl (by decide))).1
  have hlogin : authLogin t (some (lit "operator")) (some (operatorPassword input)) true
      (zeroLogin 0) = (.error .errCapacity, t.setUser 1 u) :=
    (login_accepted hfindt hopen rfl (Or.inr rfl)).trans (openSession_full hfullt u)
  have hright : ServiceOp.guesses (lit "operator") t (.call (.login (some (lit "operator"))
      (some (operatorPassword input)) true (zeroLogin 0))) = false := by
    rw [← Bool.not_eq_true]
    intro hguess
    obtain ⟨_, _, _, _, _, he, -, hf, -, -, hhash⟩ := guesses_true hguess
    cases he
    rw [hfindt] at hf
    cases hf
    exact hhash rfl
  have hnext := @Window.step _ _ _ _ _ _ _ (.call (.login (some (lit "operator"))
    (some (operatorPassword input)) true (zeroLogin 0))) hwin
    ⟨zeroLogin_serves t _ _, fun _ session hok => by rw [hlogin] at hok; cases hok⟩
    (fun hguess => by rw [hright] at hguess; cases hguess)
    (fun x hx => by rw [List.mem_singleton.mp hx]; decide)
  rw [hright, show serviceStep (lit "u.csv") t (.call (.login (some (lit "operator"))
    (some (operatorPassword input)) true (zeroLogin 0))) = t.setUser 1 u from
      congrArg Prod.snd hlogin] at hnext
  have hfindn : findUserLocked (t.setUser 1 u).users (lit "operator") = some (1, u) :=
    findUserLocked_set hfindt rfl rfl rfl
  obtain ⟨t2, hwin2, -⟩ := Window.guess hnext hfindn (fun h => (by cases h)) hwrong (n := 5)
    (zeroLogin 0) (by decide) (fun s => Attempt.of_serves (zeroLogin_serves s _ _))
    (fun j hj => failures_open rfl rfl (Or.inl hj))
  exact ⟨_, _, _, _, _, _, t2, hreach, hwin2, (show 5 < 0 + 4 + 0 + 5 by decide)⟩

/-- The bound fails, in turn, where the clock shows times before 1970, where the
path has 512 bytes, where the file cannot be opened at a restart, and where a
right password is refused for want of a slot. Before 1970 a time before
`locked_until` does not always mean a lock. -/
theorem guesses_unbounded :
    Overrun (fun s op => Serves s op ∧ op.Reads) (lit "u.csv") ∧
      (∀ path : Str, path.length = 512 → Overrun ServesWell path) ∧
      (∀ (input : InitInput) password, input.readOk = false → input.save = UserIo.all →
        hashPassword input.operator.salt password ≠
          hashPassword input.operator.salt (operatorPassword input) →
        Overrun (fun s op => Serves s op ∧ op.AfterEpoch) (lit "u.csv") ∧
          Overrun ServesWell (lit "u.csv")) ∧
      ∃ digit i u,
        let s := (authInit (AuthState.start (operatorFile (lit "u.csv") digit))
          (some (lit "u.csv")) (drawn true 0)).2
        findUserLocked s.users (lit "op") = some (i, u) ∧ u.role ≠ .admin ∧ -1 < u.lockedUntil ∧
          findUserLocked (authLogin s (some (lit "op")) (some (lit "x")) true
            (zeroLogin (-1))).2.users (lit "op") ≠ some (i, u) := by
  refine ⟨overrun_before_epoch, fun path => overrun_long_path,
    fun input password hread hsave hwrong => ⟨overrun_unread hread hsave hwrong,
      overrun_capacity hread hsave hwrong⟩, ?_⟩
  obtain ⟨digit, byte, hwrong, hfile⟩ := operatorFile_wrong (lit "x")
  obtain ⟨content, hcontent, hload⟩ := hfile (lit "u.csv")
  have hstart : (AuthState.start (operatorFile (lit "u.csv") digit)).disk.files (lit "u.csv") =
      some content := hcontent
  have hfind := operator_start hstart hload
  refine ⟨digit, 0, operatorRecord byte, hfind, (fun h => (by cases h)),
    (show (-1 : ℤ) < 0 by decide), ?_⟩
  have hcounted := @guess_find _ (lit "op") _ (lit "x") (zeroLogin (-1)) _ _ rfl hfind rfl
    (fun h => (by cases h)) hwrong
  intro hsame
  have hzero := congrArg (Option.map fun e => e.2.failedAttempts) (hcounted.symm.trans hsame)
  exact absurd hzero (show some (0 + 1 : UInt32) ≠ some 0 by decide)

end SubscriberMgmt
