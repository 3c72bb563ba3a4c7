import SubscriberMgmt.AuthReload
import SubscriberMgmt.Lib.CasRegister

/-!
# Password changes between other calls (`auth.c:704-759`)

`auth_change_password` holds the lock twice: to verify the session, and to check
the old password and write the new one. Other sections may come in between.
-/

namespace SubscriberMgmt
open CText

/-! ### Calls in progress -/

/-- A call of `auth_change_password` between its two sections. -/
structure ChangeCall where
  token : Str
  caller : AuthUser
  oldPassword : Str
  newPassword : Str
  deriving DecidableEq

/-- The state of the module, and the call that each thread is in. -/
structure Calls where
  auth : AuthState
  pending : ℕ → Option ChangeCall

inductive CallOp where
  | call (op : AuthOp)
  | changeBegin (thread : ℕ) (token oldPassword newPassword : Option Str) (now : ℤ)
  | changeEnd (thread : ℕ) (salt : Salt) (lockOk : Bool) (io : UserIo)

structure ChangeResult where
  call : ChangeCall
  status : SmStatus

/-- The first part of `auth_change_password`, up to `auth_verify_session`. -/
def changeBegin (s : Calls) (thread : ℕ) (token oldPassword newPassword : Option Str) (now : ℤ) :
    Calls :=
  match token, oldPassword, newPassword with
  | some token, some oldPassword, some newPassword =>
    if newPassword.length < 8 then s
    else
      match authVerifySession s.auth (some token) now with
      | (.error _, auth) => { s with auth := auth }
      | (.ok caller, auth) =>
        ⟨auth, Function.update s.pending thread (some ⟨token, caller, oldPassword, newPassword⟩)⟩
  | _, _, _ => s

/-- One section of one thread. A thread that is in a change begins no other. -/
def callStep (s : Calls) : CallOp → Calls × List ChangeResult
  | .call op => ({ s with auth := (authStep s.auth op).1 }, [])
  | .changeBegin thread token oldPassword newPassword now =>
    match s.pending thread with
    | none => (changeBegin s thread token oldPassword newPassword now, [])
    | some _ => (s, [])
  | .changeEnd thread salt lockOk io =>
    match s.pending thread with
    | none => (s, [])
    | some c =>
      let r := changePasswordLocked s.auth c.caller c.oldPassword c.newPassword salt lockOk io
      (⟨r.2, Function.update s.pending thread none⟩, [⟨c, r.1⟩])

/-- A password is changed by the two sections of a call only, and there is no
other `auth_init`. -/
def CallOp.Runs : CallOp → Prop
  | .call (.init _ _) => False
  | .call (.rewrite ..) => False
  | _ => True

/-- With nothing in between the two sections make up the call. -/
theorem change_whole {s : Calls} {thread : ℕ} (hfree : s.pending thread = none)
    (token oldPassword newPassword : Option Str) (now : ℤ) (salt : Salt) (lockOk : Bool)
    (io : UserIo) :
    let s' := (callStep s (.changeBegin thread token oldPassword newPassword now)).1
    let r := authChangePassword s.auth token oldPassword newPassword now salt lockOk io
    (callStep s' (.changeEnd thread salt lockOk io)).1.auth = r.2 ∧
      ∀ result ∈ (callStep s' (.changeEnd thread salt lockOk io)).2, result.status = r.1 := by
  cases token with
  | none => simp [callStep, hfree, changeBegin, authChangePassword]
  | some token =>
  cases oldPassword with
  | none => simp [callStep, hfree, changeBegin, authChangePassword]
  | some oldPassword =>
  cases newPassword with
  | none => simp [callStep, hfree, changeBegin, authChangePassword]
  | some newPassword =>
  by_cases hshort : newPassword.length < 8
  · simp [callStep, hfree, changeBegin, authChangePassword, hshort]
  · simp only [callStep, hfree, changeBegin, authChangePassword, if_neg hshort]
    generalize authVerifySession s.auth (some token) now = v
    obtain ⟨r, auth⟩ := v
    cases r with
    | error st => simp [hfree]
    | ok caller => simp

/-- What the first section of a change does: nothing, a verification that fails, or
one that puts the thread into the call. -/
theorem changeBegin_cases (s : Calls) (thread : ℕ) (token oldPassword newPassword : Option Str)
    (now : ℤ) :
    let t := changeBegin s thread token oldPassword newPassword now
    t = s ∨ (∃ tok, t = { s with auth := (authVerifySession s.auth (some tok) now).2 }) ∨
      ∃ c : ChangeCall, token = some c.token ∧ oldPassword = some c.oldPassword ∧
        newPassword = some c.newPassword ∧
        (authVerifySession s.auth (some c.token) now).1 = .ok c.caller ∧
        t = ⟨(authVerifySession s.auth (some c.token) now).2,
          Function.update s.pending thread (some c)⟩ := by
  intro t
  simp only [t, changeBegin]
  split
  case h_2 => exact Or.inl rfl
  case h_1 token oldPassword newPassword =>
    split
    case isTrue => exact Or.inl rfl
    case isFalse =>
      right
      split
      case h_1 auth heq => exact Or.inl ⟨token, by rw [heq]⟩
      case h_2 caller auth heq =>
        refine Or.inr ⟨⟨token, caller, oldPassword, newPassword⟩, rfl, rfl, rfl, ?_⟩
        rw [heq]
        exact ⟨rfl, rfl⟩

/-! ### Where a call in progress comes from -/

/-- The run verified the call's token as that of its caller, and has not ended
the call since. -/
def Begun (start : Calls) (ops : List CallOp) (thread : ℕ) (c : ChangeCall) : Prop :=
  ∃ pre post now,
    ops = pre ++ .changeBegin thread (some c.token) (some c.oldPassword) (some c.newPassword) now ::
      post ∧
    (authVerifySession (Machine.final callStep start pre).auth (some c.token) now).1 =
      .ok c.caller ∧
    ∀ salt lockOk io, .changeEnd thread salt lockOk io ∉ post

theorem Begun.snoc {start : Calls} {ops : List CallOp} {thread : ℕ} {c : ChangeCall}
    (h : Begun start ops thread c) {op : CallOp}
    (hop : ∀ salt lockOk io, op ≠ .changeEnd thread salt lockOk io) :
    Begun start (ops ++ [op]) thread c := by
  obtain ⟨pre, post, now, rfl, hverify, hpost⟩ := h
  refine ⟨pre, post ++ [op], now, by simp, hverify, fun salt lockOk io hm => ?_⟩
  rcases List.mem_append.mp hm with hm | hm
  · exact hpost salt lockOk io hm
  · exact hop salt lockOk io (List.mem_singleton.mp hm).symm

theorem changeBegin_pending {s : Calls} {thread t : ℕ} {token oldPassword newPassword : Option Str}
    {now : ℤ} {c : ChangeCall}
    (h : (changeBegin s thread token oldPassword newPassword now).pending t = some c) :
    s.pending t = some c ∨ t = thread ∧ token = some c.token ∧ oldPassword = some c.oldPassword ∧
      newPassword = some c.newPassword ∧
      (authVerifySession s.auth (some c.token) now).1 = .ok c.caller := by
  rcases changeBegin_cases s thread token oldPassword newPassword now with
    hs | ⟨tok, hs⟩ | ⟨c', htoken, hold, hnew, hverify, hs⟩ <;> rw [hs] at h
  · exact Or.inl h
  · exact Or.inl h
  · dsimp only at h
    by_cases ht : t = thread
    · subst ht
      rw [Function.update_self, Option.some.injEq] at h
      subst h
      exact Or.inr ⟨rfl, htoken, hold, hnew, hverify⟩
    · rw [Function.update_of_ne ht] at h
      exact Or.inl h

theorem pending_begun {start : Calls} (hstart : ∀ t, start.pending t = none) (ops : List CallOp) :
    ∀ t c, (Machine.final callStep start ops).pending t = some c → Begun start ops t c := by
  induction ops using List.reverseRecOn with
  | nil =>
    intro t c h
    rw [Machine.final_nil, hstart] at h
    cases h
  | append_singleton ops op ih =>
    intro t c h
    rw [Machine.final_concat] at h
    cases op with
    | call op => exact (ih t c h).snoc fun _ _ _ => by simp
    | changeBegin thread token oldPassword newPassword now =>
      have kept : (Machine.final callStep start ops).pending t = some c →
          Begun start (ops ++ [.changeBegin thread token oldPassword newPassword now]) t c :=
        fun hp => (ih t c hp).snoc fun _ _ _ => by simp
      simp only [callStep] at h
      split at h
      case h_2 => exact kept h
      case h_1 =>
        rcases changeBegin_pending h with hp | ⟨rfl, rfl, rfl, rfl, hverify⟩
        · exact kept hp
        · exact ⟨ops, [], now, rfl, hverify, fun _ _ _ => List.not_mem_nil⟩
    | changeEnd thread salt lockOk io =>
      simp only [callStep] at h
      by_cases ht : t = thread
      · subst ht
        split at h
        case h_1 hnone =>
          rw [hnone] at h
          cases h
        case h_2 =>
          dsimp only at h
          rw [Function.update_self] at h
          cases h
      · have hother : ∀ salt' lockOk' io',
            CallOp.changeEnd thread salt lockOk io ≠ .changeEnd t salt' lockOk' io' := by
          intro _ _ _ he
          cases he
          exact ht rfl
        split at h
        case h_1 => exact (ih t c h).snoc hother
        case h_2 =>
          dsimp only at h
          rw [Function.update_of_ne ht] at h
          exact (ih t c h).snoc hother

/-! ### A call that ends -/

theorem changeBegin_ok {s : Calls} {token oldPassword newPassword : Str} {now : ℤ}
    {caller : AuthUser} (hverify : (authVerifySession s.auth (some token) now).1 = .ok caller)
    (hlen : ¬ newPassword.length < 8) (thread : ℕ) :
    (changeBegin s thread (some token) (some oldPassword) (some newPassword) now).pending thread =
      some ⟨token, caller, oldPassword, newPassword⟩ := by
  simp only [changeBegin, if_neg hlen]
  generalize authVerifySession s.auth (some token) now = r at hverify ⊢
  obtain ⟨r, auth⟩ := r
  cases hverify
  exact Function.update_self ..

theorem changeBegin_other (s : Calls) {thread t : ℕ} (ht : thread ≠ t)
    (token oldPassword newPassword : Option Str) (now : ℤ) :
    (changeBegin s t token oldPassword newPassword now).pending thread = s.pending thread := by
  rcases changeBegin_cases s t token oldPassword newPassword now with
    hs | ⟨tok, hs⟩ | ⟨c, -, -, -, -, hs⟩ <;> rw [hs]
  exact Function.update_of_ne ht ..

/-- A thread stays in its call until the second section. -/
theorem callStep_pending {s : Calls} {thread : ℕ} {c : ChangeCall}
    (h : s.pending thread = some c) {op : CallOp}
    (hop : ∀ salt lockOk io, op ≠ .changeEnd thread salt lockOk io) :
    (callStep s op).1.pending thread = some c := by
  cases op with
  | call op => exact h
  | changeBegin t token oldPassword newPassword now =>
    simp only [callStep]
    split
    next hnone =>
      have ht : thread ≠ t := by
        rintro rfl
        rw [hnone] at h
        cases h
      exact (changeBegin_other s ht ..).trans h
    next => exact h
  | changeEnd t salt lockOk io =>
    have ht : thread ≠ t := by
      rintro rfl
      exact hop salt lockOk io rfl
    simp only [callStep]
    split
    next => exact h
    next => exact (Function.update_of_ne ht ..).trans h

/-- The run begins the call with a valid session, and ends it with the status. -/
def Ended (start : Calls) (ops : List CallOp) (c : ChangeCall) (st : SmStatus) : Prop :=
  ∃ pre mid post thread now salt lockOk io,
    let first := CallOp.changeBegin thread (some c.token) (some c.oldPassword)
      (some c.newPassword) now
    ops = pre ++ first :: mid ++ .changeEnd thread salt lockOk io :: post ∧
      (Machine.final callStep start pre).pending thread = none ∧ 8 ≤ c.newPassword.length ∧
      (authVerifySession (Machine.final callStep start pre).auth (some c.token) now).1 =
        .ok c.caller ∧
      (∀ salt lockOk io, .changeEnd thread salt lockOk io ∉ mid) ∧
      st = (changePasswordLocked (Machine.final callStep start (pre ++ first :: mid)).auth c.caller
        c.oldPassword c.newPassword salt lockOk io).1

theorem Ended.logged {start : Calls} {ops : List CallOp} {c : ChangeCall} {st : SmStatus}
    (h : Ended start ops c st) : ⟨c, st⟩ ∈ (Machine.outputs callStep start ops).flatten := by
  obtain ⟨pre, mid, post, thread, now, salt, lockOk, io, rfl, hfree, hlen, hverify, hmid, rfl⟩ := h
  have hbegun : (callStep (Machine.final callStep start pre) (.changeBegin thread (some c.token)
      (some c.oldPassword) (some c.newPassword) now)).1.pending thread = some c := by
    simp only [callStep, hfree]
    exact changeBegin_ok hverify (Nat.not_lt.mpr hlen) thread
  have hpending : (Machine.final callStep start (pre ++ .changeBegin thread (some c.token)
      (some c.oldPassword) (some c.newPassword) now :: mid)).pending thread = some c := by
    rw [Machine.final_append, Machine.final_cons]
    refine Machine.final_keeps (P := fun s : Calls => s.pending thread = some c)
      (Q := fun op : CallOp => ∀ salt lockOk io, op ≠ .changeEnd thread salt lockOk io)
      (fun _ _ hs hop => callStep_pending hs hop) hbegun fun op hop salt lockOk io he => ?_
    exact hmid salt lockOk io (he ▸ hop)
  rw [Machine.outputs_append, List.flatten_append, List.mem_append]
  right
  simp only [Machine.outputs, List.flatten_cons, callStep, hpending]
  exact List.mem_append_left _ (List.mem_singleton_self _)

/-- What is logged was begun in the run. -/
theorem logged_begun {start : Calls} (hstart : ∀ t, start.pending t = none) {ops : List CallOp}
    {r : ChangeResult} (h : r ∈ (Machine.outputs callStep start ops).flatten) :
    ∃ thread now, .changeBegin thread (some r.call.token) (some r.call.oldPassword)
      (some r.call.newPassword) now ∈ ops := by
  obtain ⟨out, hout, hr⟩ := List.mem_flatten.mp h
  obtain ⟨pre, op, post, rfl, rfl⟩ := Machine.mem_outputs hout
  cases op with
  | call op => cases hr
  | changeBegin thread token oldPassword newPassword now =>
    simp only [callStep] at hr
    split at hr <;> cases hr
  | changeEnd thread salt lockOk io =>
    simp only [callStep] at hr
    split at hr
    next => cases hr
    next c hc =>
      obtain rfl := List.mem_singleton.mp hr
      obtain ⟨pre', post', now, rfl, -, -⟩ := pending_begun hstart pre thread c hc
      exact ⟨thread, now, by simp⟩

/-! ### Who changes a password -/

theorem changeBegin_users (s : Calls) (thread : ℕ) (token oldPassword newPassword : Option Str)
    (now : ℤ) : (changeBegin s thread token oldPassword newPassword now).auth.users = s.auth.users ∧
      (changeBegin s thread token oldPassword newPassword now).auth.usersPath =
        s.auth.usersPath := by
  rcases changeBegin_cases s thread token oldPassword newPassword now with
    hs | ⟨tok, hs⟩ | ⟨c, -, -, -, -, hs⟩ <;> rw [hs]
  · exact ⟨rfl, rfl⟩
  · exact authVerifySession_accounts s.auth (some tok) now
  · exact authVerifySession_accounts s.auth (some c.token) now

/-- A section that writes another salt or hash to a record of the table. -/
inductive Rewrites (s : AuthState) (u : UserRecord) : AuthOp → Prop
  | recovered {username : Str} {input : LoginInput} (hrole : u.role = .admin)
      (hname : u.username.chars = username.take smAuthMaxUsername) :
      Rewrites s u (.login (some username) (some smAuthDefaultAdminPassword) true input)
  | rewritten {caller : AuthUser} {oldPassword newPassword : Str} {salt : Salt} {io : UserIo}
      (hname : caller.username = u.username) (hhash : hashPassword u.salt oldPassword = u.hash) :
      Rewrites s u (.rewrite caller oldPassword newPassword salt true io)

theorem authStep_rewrites {s : AuthState} {op : AuthOp} (hop : op.path = none) {i : ℕ}
    {u v : UserRecord} (hu : s.users[i]? = some u) (hv : (authStep s op).1.users[i]? = some v)
    (hne : ¬ (v.salt = u.salt ∧ v.hash = u.hash)) : Rewrites s u op := by
  have ht := authStep_users s op
  generalize (authStep s op).1.users = users at ht hv
  -- the record that was written, with what it was before
  have written : ∀ {j w}, users = s.users.set j w → i = j ∧ v = w := by
    intro j w he
    rw [he] at hv
    by_cases hij : j = i
    · subst hij
      obtain ⟨hlt, -⟩ := List.getElem?_eq_some_iff.mp hu
      rw [List.getElem?_set_self hlt, Option.some.injEq] at hv
      exact ⟨rfl, hv.symm⟩
    · rw [List.getElem?_set_ne hij, hu, Option.some.injEq] at hv
      exact absurd (hv ▸ ⟨rfl, rfl⟩) hne
  have found : ∀ {n j} {w : UserRecord}, findUserLocked s.users n = some (j, w) → i = j →
      w = u := by
    intro n j w hfind hij
    have hw := (findUserLocked_some hfind).1
    rw [← hij, hu, Option.some.injEq] at hw
    exact hw.symm
  cases ht with
  | same =>
    rw [hu, Option.some.injEq] at hv
    exact absurd (hv ▸ ⟨rfl, rfl⟩) hne
  | loaded => cases hop
  | seeded => cases hop
  | failed hfind =>
    obtain ⟨hij, rfl⟩ := written rfl
    exact absurd (found hfind hij ▸ ⟨rfl, rfl⟩) hne
  | accepted hfind =>
    obtain ⟨hij, rfl⟩ := written rfl
    exact absurd (found hfind hij ▸ ⟨rfl, rfl⟩) hne
  | recovered hfind hrec =>
    obtain ⟨hij, -⟩ := written rfl
    have hw := found hfind hij
    subst hw
    obtain ⟨hrole, rfl⟩ := isRecovery_role hrec
    exact .recovered hrole (findUserLocked_some hfind).2.2
  | created =>
    obtain ⟨hlt, -⟩ := List.getElem?_eq_some_iff.mp hu
    rw [List.getElem?_append_left hlt, hu, Option.some.injEq] at hv
    exact absurd (hv ▸ ⟨rfl, rfl⟩) hne
  | @rewritten caller oldPassword newPassword salt io j w hfind hhash =>
    obtain ⟨hij, -⟩ := written rfl
    have hw := found hfind hij
    subst hw
    refine .rewritten (CharField.ext ?_) hhash
    rw [(findUserLocked_some hfind).2.2, List.take_of_length_le caller.username.fits]
  | deleted hfind =>
    obtain ⟨hij, rfl⟩ := written rfl
    exact absurd (found hfind hij ▸ ⟨rfl, rfl⟩) hne

/-- The state after an `auth_init` that finds no file. -/
def seededState : AuthState :=
  (authInit (AuthState.start fun _ => none) (some (lit "u.csv")) (drawn true 0)).2

/-- The ADMIN logs in and begins a change of the default password. -/
def adminChange : List CallOp :=
  [.call (.login (some (lit "admin")) (some (lit "x")) true (zeroLogin 0)),
    .changeBegin 0 (some (List.replicate 64 48)) (some smAuthDefaultAdminPassword)
      (some (lit "new password")) 0]

def adminSeed : UserRecord :=
  seedUser (lit "admin") .admin smAuthDefaultAdminPassword (Vector.replicate _ 0)

theorem adminSeed_hash :
    hashPassword adminSeed.salt smAuthDefaultAdminPassword = adminSeed.hash := by
  simp only [adminSeed, seedUser]

theorem seededState_admin : findUserLocked seededState.users (lit "admin") = some (0, adminSeed) :=
  rfl

theorem adminChange_login :
    authLogin seededState (some (lit "admin")) (some (lit "x")) true (zeroLogin 0) =
      openSession (seededState.setUser 0 adminSeed) adminSeed (zeroLogin 0) :=
  login_accepted seededState_admin rfl rfl (Or.inl rfl)

theorem change_accepted {s : AuthState} {caller : AuthUser} {i : ℕ} {u : UserRecord}
    (hfind : findUserLocked s.users caller.username.chars = some (i, u)) {oldPassword : Str}
    (hhash : hashPassword u.salt oldPassword = u.hash) (newPassword : Str) (salt : Salt)
    (io : UserIo) :
    changePasswordLocked s caller oldPassword newPassword salt true io =
      (s.setUser i (u.withPassword salt newPassword)).save io := by
  have hright : consttimeEq (hashPassword u.salt oldPassword) u.hash = true :=
    (consttimeEq_iff _ _).mpr hhash
  simp only [changePasswordLocked, hfind, hright, Bool.not_true, Bool.false_eq_true, if_false]
  rfl

/-- From any state of the module: another salt or hash of an account is the work
of the second section of a change, begun with a session of the account's name and
naming a password that hashes to what was stored; or the account has role ADMIN
and a login gives the default password. -/
theorem password_changed_by (auth : AuthState) (ops : List CallOp) (op : CallOp) (hop : op.Runs)
    (i : ℕ) (u v : UserRecord)
    (hu : (Machine.final callStep ⟨auth, fun _ => none⟩ ops).auth.users[i]? = some u)
    (hv : (callStep (Machine.final callStep ⟨auth, fun _ => none⟩ ops) op).1.auth.users[i]? =
      some v)
    (hne : ¬ (v.salt = u.salt ∧ v.hash = u.hash)) :
    (∃ thread salt io c, op = .changeEnd thread salt true io ∧
        Begun ⟨auth, fun _ => none⟩ ops thread c ∧ c.caller.username = u.username ∧
        hashPassword u.salt c.oldPassword = u.hash) ∨
      (u.role = .admin ∧ ∃ username input,
        op = .call (.login (some username) (some smAuthDefaultAdminPassword) true input) ∧
        u.username.chars = username.take smAuthMaxUsername) := by
  have hbegun := @pending_begun ⟨auth, fun _ => none⟩ (fun _ => rfl) ops
  generalize Machine.final callStep ⟨auth, fun _ => none⟩ ops = s at hu hv hbegun
  have same : ∀ {users : List UserRecord}, users = s.auth.users → users[i]? = some v → False := by
    intro users hsame hi
    rw [hsame, hu, Option.some.injEq] at hi
    exact hne (hi ▸ ⟨rfl, rfl⟩)
  cases op with
  | call op =>
    have hpath : op.path = none := by
      cases op with
      | init => exact hop.elim
      | _ => rfl
    cases authStep_rewrites hpath hu hv hne with
    | recovered hrole hname => exact Or.inr ⟨hrole, _, _, rfl, hname⟩
    | rewritten => exact hop.elim
  | changeBegin thread token oldPassword newPassword now =>
    simp only [callStep] at hv
    split at hv
    case h_1 => exact (same (changeBegin_users ..).1 hv).elim
    case h_2 => exact (same rfl hv).elim
  | changeEnd thread salt lockOk io =>
    simp only [callStep] at hv
    split at hv
    case h_1 => exact (same rfl hv).elim
    case h_2 c hc =>
      have hrewrites := @authStep_rewrites s.auth
        (.rewrite c.caller c.oldPassword c.newPassword salt lockOk io) rfl i u v hu hv hne
      cases hrewrites with
      | rewritten hname hhash =>
        exact Or.inl ⟨thread, salt, io, c, rfl, hbegun thread c hc, hname, hhash⟩

theorem password_changed_by_admin :
    (∃ thread salt io c,
        CallOp.changeEnd 0 (Vector.replicate _ 7) true UserIo.all = .changeEnd thread salt true io ∧
        Begun ⟨seededState, fun _ => none⟩ adminChange thread c ∧
        c.caller.username = adminSeed.username ∧
        hashPassword adminSeed.salt c.oldPassword = adminSeed.hash) ∨
      (adminSeed.role = .admin ∧ ∃ username input,
        CallOp.changeEnd 0 (Vector.replicate _ 7) true UserIo.all =
          .call (.login (some username) (some smAuthDefaultAdminPassword) true input) ∧
        adminSeed.username.chars = username.take smAuthMaxUsername) := by
  obtain ⟨s1, hs1⟩ : ∃ s1 : Calls, s1 = ⟨(authLogin seededState (some (lit "admin"))
    (some (lit "x")) true (zeroLogin 0)).2, fun _ => none⟩ := ⟨_, rfl⟩
  obtain ⟨s2, hs2⟩ : ∃ s2, s2 = changeBegin s1 0 (some (List.replicate 64 48))
    (some smAuthDefaultAdminPassword) (some (lit "new password")) 0 := ⟨_, rfl⟩
  have hfinal : Machine.final callStep ⟨seededState, fun _ => none⟩ adminChange = s2 := by
    rw [hs2, hs1]
    rfl
  have husers : s2.auth.users = seededState.users.set 0 adminSeed := by
    rw [hs2, (changeBegin_users ..).1, hs1, adminChange_login, (openSession_users ..).1]
    rfl
  have hverify : (authVerifySession s1.auth (some (List.replicate 64 48)) 0).1 = .ok adminUser := by
    rw [hs1]
    rfl
  have hpending : s2.pending 0 = some ⟨List.replicate 64 48, adminUser, smAuthDefaultAdminPassword,
      lit "new password"⟩ := hs2 ▸ changeBegin_ok hverify (by decide) 0
  have hfind : findUserLocked s2.auth.users (lit "admin") = some (0, adminSeed) := by
    rw [husers]
    rfl
  have hafter :
      (callStep s2 (.changeEnd 0 (Vector.replicate _ 7) true UserIo.all)).1.auth.users[0]? =
        some (adminSeed.withPassword (Vector.replicate _ 7) (lit "new password")) := by
    have hstep : (callStep s2 (.changeEnd 0 (Vector.replicate _ 7) true UserIo.all)).1.auth =
        ((s2.auth.setUser 0 (adminSeed.withPassword (Vector.replicate _ 7)
          (lit "new password"))).save UserIo.all).2 := by
      simp only [callStep, hpending]
      exact congrArg Prod.snd (@change_accepted s2.auth adminUser 0 adminSeed hfind
        smAuthDefaultAdminPassword adminSeed_hash (lit "new password") (Vector.replicate _ 7)
        UserIo.all)
    rw [hstep]
    show (s2.auth.users.set 0 _)[0]? = _
    rw [husers]
    exact List.getElem?_set_self (by decide)
  have hbefore : s2.auth.users[0]? = some adminSeed := by
    rw [husers]
    exact List.getElem?_set_self (by decide)
  rw [← hfinal] at hbefore hafter
  refine password_changed_by seededState adminChange
    (.changeEnd 0 (Vector.replicate _ 7) true UserIo.all) trivial 0 adminSeed _ hbefore hafter
    (fun h => ?_)
  have hne : (Vector.replicate 16 7 : Salt) ≠ Vector.replicate 16 0 := by decide
  exact hne h.1

/-- A login with the default password, accepted whatever the stored hash, gives
an ADMIN another salt and saves it. -/
theorem login_resalts :
    let s := (authInit (AuthState.start (adminFile 48 (lit "0"))) (some (lit "u.csv"))
      (drawn true 0)).2
    let r := authLogin s (some (lit "admin")) (some smAuthDefaultAdminPassword) true
      { zeroLogin 0 with salt := Vector.replicate _ 7 }
    (∃ session, r.1 = .ok session) ∧ s.users = [adminRecord 0 0] ∧
      r.2.users.map UserRecord.salt = [Vector.replicate _ 7] := by
  have hstart := (authRun_adminInit adminFile_loads []).trans (Machine.final_nil ..)
  rw [show (authInit (AuthState.start (adminFile 48 (lit "0"))) (some (lit "u.csv"))
    (drawn true 0)).2 = loadedState (adminFile 48 (lit "0")) [adminRecord 0 0] from hstart]
  exact ⟨⟨⟨List.replicate 64 48, adminUser, 1800⟩, rfl⟩, rfl, rfl⟩

end SubscriberMgmt
