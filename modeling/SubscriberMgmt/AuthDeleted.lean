import SubscriberMgmt.AuthLogin
import SubscriberMgmt.AuthSteps

/-!
# Sessions of a deleted account (`auth.c:560-634, 763-777`)

`auth_delete_user` takes the account out of the table of users and leaves the
table of sessions alone. A token of the account is good until its session ends
as any other does; what the account itself is needed for is refused at once.
-/

namespace SubscriberMgmt
open CText Lease

/-- The session of a token was not ended, and was used at most 1800 seconds ago. -/
def SessionLives (es : List (Event Str AuthUser)) (token : Str) (user : AuthUser) (now : ℤ) : Prop :=
  ∃ last, Held es token user last ∧ now ≤ last + smAuthSessionSeconds

theorem authVerifySession_refused {s : AuthState} {token : Str} {now : ℤ}
    (h : ∀ user, (authVerifySession s (some token) now).1 ≠ .ok user) :
    (authVerifySession s (some token) now).1 = .error .errUnauthorized := by
  simp only [authVerifySession] at h ⊢
  split
  · rfl
  · split
    · rfl
    · rename_i j hj hexp
      simp only [hj, hexp, if_false] at h
      exact absurd rfl (h (s.sessions j).session.user)

/-- Without an account of its user, a token changes no password. -/
theorem authChangePassword_absent {s : AuthState} {token : Str} {now : ℤ}
    (habsent : ∀ caller, (authVerifySession s (some token) now).1 = .ok caller →
      findUserLocked s.users caller.username.chars = none)
    (oldPassword newPassword : Option Str) (salt : Salt) (lockOk : Bool) (io : UserIo) :
    let r := authChangePassword s (some token) oldPassword newPassword now salt lockOk io
    r.1 ≠ .ok ∧ r.2.users = s.users ∧ r.2.disk = s.disk := by
  intro r
  cases oldPassword with
  | none => exact ⟨fun h => (by cases h), rfl, rfl⟩
  | some o =>
    cases newPassword with
    | none => exact ⟨fun h => (by cases h), rfl, rfl⟩
    | some n =>
      have husers := (authVerifySession_accounts s (some token) now).1
      have hdisk := authVerifySession_disk s (some token) now
      have herror := @authVerifySession_error s (some token) now
      simp only [r, authChangePassword]
      split
      · exact ⟨fun h => (by cases h), rfl, rfl⟩
      · generalize authVerifySession s (some token) now = v at habsent husers hdisk herror
        obtain ⟨st | caller, s'⟩ := v
        · exact ⟨herror st rfl, husers, hdisk⟩
        · have hno := habsent caller rfl
          simp only at husers hdisk
          simp only [changePasswordLocked, husers, hno]
          split <;> exact ⟨fun h => (by cases h), husers, hdisk⟩

theorem findUserLocked_take (users : List UserRecord) (name : Str) :
    findUserLocked users (name.take smAuthMaxUsername) = findUserLocked users name := by
  have hcmp : ∀ a, strncmpEq smAuthMaxUsername a (name.take smAuthMaxUsername) =
      strncmpEq smAuthMaxUsername a name := by
    intro a
    unfold strncmpEq
    rw [List.take_take, min_self]
  simp only [findUserLocked, hcmp]

/-- A token is issued only for an account that there is. -/
theorem authStep_issued {s : AuthState} {op : AuthOp} {token : Str} {user : AuthUser} {t : ℤ}
    (h : .issued token user t ∈ (authStep s op).2) {name : Str}
    (hname : user.username.chars = name.take smAuthMaxUsername) :
    findUserLocked s.users name ≠ none := by
  cases op with
  | login username password outSession input =>
    simp only [authStep] at h
    cases hr : (authLogin s username password outSession input).1 with
    | error st =>
      rw [hr] at h
      cases h
    | ok session =>
      rw [hr] at h
      cases List.mem_singleton.mp h
      have hlogin : ∃ n p, username = some n ∧ password = some p ∧ outSession = true := by
        unfold authLogin at hr
        split at hr
        · exact ⟨_, _, rfl, rfl, rfl⟩
        · cases hr
      obtain ⟨n, p, rfl, rfl, rfl⟩ := hlogin
      obtain ⟨i, u, hfind, huser, -⟩ := authLogin_ok hr
      obtain ⟨hget, huse, -⟩ := findUserLocked_some hfind
      intro hno
      have hans := findUserLocked_none_iff.mp hno u (List.mem_of_getElem? hget)
      rw [huser] at hname
      rw [UserRecord.answers_iff.mpr ⟨huse, hname⟩] at hans
      cases hans
  | init path input =>
    cases path <;> simp [authStep] at h
  | logout token => cases token <;> simp [authStep] at h
  | verify token now =>
    simp only [authStep, verifyEvents] at h
    split at h
    · simp at h
    · cases h
  | shutdown | createUser | rewrite | deleteUser => cases h

/-! ### The statement for every run -/

/-- There is no account of the name from its deletion on. -/
def StaysDeleted (files : Str → Option Str) (pre post : List AuthOp) (username : Str)
    (io : UserIo) : Prop :=
  ∀ mid rest, post = mid ++ rest → findUserLocked
    (authRun files (pre ++ .deleteUser (some username) io :: mid)).users username = none

/-- Whatever happens after the deletion of an account: a token that was issued to it is verified
and authorized, as that of the user and role that it was issued to, exactly as long as its session
lives. While there is no account of the name, its tokens are those issued before, and they change
no password. -/
theorem deleted_user_access (files : Str → Option Str) (pre post : List AuthOp) (username : Str)
    (io : UserIo) (now : ℤ)
    (hfresh : (issuedKeys (authLog files
      (pre ++ .deleteUser (some username) io :: post))).Nodup)
    (hclock : ∀ t ∈ (pre ++ .deleteUser (some username) io :: post).flatMap AuthOp.times,
      t ≤ now) :
    let s := authRun files (pre ++ .deleteUser (some username) io :: post)
    let es := authLog files (pre ++ .deleteUser (some username) io :: post)
    ∀ token user t, .issued token user t ∈ es →
      user.username.chars = username.take smAuthMaxUsername →
      (SessionLives es token user now →
        (authVerifySession s (some token) now).1 = .ok user ∧
        ∀ action, (authAuthorize s (some token) action now).1 =
          if authRoleAllows user.role action then .ok user else .error .errUnauthorized) ∧
      (¬ SessionLives es token user now →
        (authVerifySession s (some token) now).1 = .error .errUnauthorized ∧
        ∀ action, (authAuthorize s (some token) action now).1 = .error .errUnauthorized) ∧
      (StaysDeleted files pre post username io →
        .issued token user t ∈ authLog files pre ∧
        ∀ oldPassword newPassword salt lockOk io,
          let r := authChangePassword s (some token) oldPassword newPassword now salt lockOk io
          r.1 ≠ .ok ∧ r.2.users = s.users ∧ r.2.disk = s.disk) := by
  intro s es token user t hissued hname
  have hinv : SessionsInv s es _ := authRun_inv files _ hfresh
  have hverify := fun user => hinv.verify_ok_iff hclock token user
  have hholder : ∀ v, (authVerifySession s (some token) now).1 = .ok v → v = user := by
    intro v hv
    obtain ⟨last, hheld, -⟩ := (hverify v).mp hv
    obtain ⟨t', hissued'⟩ := hheld.issued_mem
    exact holder_unique hfresh hissued' hissued
  refine ⟨fun hlive => ?_, fun hdead => ?_, fun habsent => ⟨?_, fun o n salt lockOk io' => ?_⟩⟩
  · have hok := (hverify user).mpr hlive
    refine ⟨hok, fun action => ?_⟩
    simp only [authAuthorize, hok, checkRole]
  · have hno := authVerifySession_refused fun v hv => by
      have hvu := hholder v hv
      exact hdead ((hverify user).mp (hvu ▸ hv))
    refine ⟨hno, fun action => ?_⟩
    simp only [authAuthorize, hno, checkRole]
  · -- an event after the deletion comes from a step in a state without the account
    simp only [es, authLog, Machine.outputs_append, Machine.outputs, List.flatten_append,
      List.flatten_cons, List.mem_append] at hissued
    rcases hissued with h | h | h
    · exact h
    · simp [authStep] at h
    · obtain ⟨es', hes', he⟩ := List.mem_flatten.mp h
      obtain ⟨mid, op, rest, hpost, rfl⟩ := Machine.mem_outputs hes'
      have hno := habsent mid (op :: rest) hpost
      rw [authRun, Machine.final_append, Machine.final_cons] at hno
      exact absurd hno (authStep_issued he hname)
  · refine authChangePassword_absent (fun caller hcaller => ?_) o n salt lockOk io'
    rw [hholder caller hcaller, hname, findUserLocked_take]
    exact habsent post [] (List.append_nil post).symm

def adminLogin : AuthOp := .login (some (lit "admin")) (some (lit "x")) true (zeroLogin 7)

/-- The session of an account that was deleted ends 1800 seconds after its last use. -/
theorem deleted_user_access_ends :
    let s := authRun (adminFile 48 (lit "0"))
      [adminInit, adminLogin, .deleteUser (some (lit "admin")) UserIo.all]
    (authVerifySession s (some (List.replicate 64 48)) 1807).1 = .ok adminUser ∧
      (authVerifySession s (some (List.replicate 64 48)) 1808).1 = .error .errUnauthorized := by
  have hlog : authLog (adminFile 48 (lit "0"))
      [adminInit, adminLogin, .deleteUser (some (lit "admin")) UserIo.all] =
        [.cleared, .issued (List.replicate 64 48) adminUser 7] := by
    rw [authLog_adminInit adminFile_loads]
    rfl
  have hfresh : (issuedKeys (authLog (adminFile 48 (lit "0"))
      [adminInit, adminLogin, .deleteUser (some (lit "admin")) UserIo.all])).Nodup := by
    rw [hlog]
    decide
  have hlives : ∀ now, SessionLives [.cleared, .issued (List.replicate 64 48) adminUser 7]
      (List.replicate 64 48) adminUser now ↔ now ≤ 1807 := by
    intro now
    rw [SessionLives, ← valid_iff_held]
    constructor
    · intro h
      obtain ⟨last, hlast, hle⟩ := h
      cases hlast
      exact hle
    · intro h
      exact ⟨7, rfl, h⟩
  have hrun := fun now hclock => deleted_user_access (adminFile 48 (lit "0"))
    [adminInit, adminLogin] [] (lit "admin") UserIo.all now hfresh hclock (List.replicate 64 48)
    adminUser 7 (by rw [List.cons_append, List.singleton_append, hlog]; simp) rfl
  simp only [List.cons_append, List.nil_append, hlog, hlives] at hrun
  exact ⟨((hrun 1807 (by decide)).1 (by decide)).1, ((hrun 1808 (by decide)).2.1 (by decide)).1⟩

/-- The session of an account that was just deleted, and that was an ADMIN. -/
theorem deleted_user_keeps_access :
    let s := authRun (adminFile 48 (lit "0")) [adminInit, adminLogin]
    let r := authDeleteUser s (some (lit "admin")) UserIo.all
    .issued (List.replicate 64 48) adminUser 7 ∈
        authLog (adminFile 48 (lit "0")) [adminInit, adminLogin] ∧
      adminUser.username.chars = lit "admin" ∧ r.1 = .ok ∧
      findUserLocked r.2.users (lit "admin") = none ∧
      (authVerifySession r.2 (some (List.replicate 64 48)) 8).1 = .ok adminUser ∧
      (authAuthorize r.2 (some (List.replicate 64 48)) .userManage 8).1 = .ok adminUser := by
  rw [authLog_adminInit adminFile_loads, authRun_adminInit adminFile_loads]
  exact ⟨by decide, rfl, rfl, rfl, rfl, rfl⟩

end SubscriberMgmt
