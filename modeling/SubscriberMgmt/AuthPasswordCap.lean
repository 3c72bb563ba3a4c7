import SubscriberMgmt.AuthPasswords
import SubscriberMgmt.AuthFile

/-!
# Passwords that have one hash (`auth.c:152-174, 444-542, 668-759`)

`hash_password` reads at most 200 bytes of a password. Two passwords that agree
in these have one hash; all others have two, unless SHA-256 maps two of the
messages met on the way to one digest.
-/

namespace SubscriberMgmt
open CText

/-! ### Hashes -/

/-- What `hash_password` gives to SHA-256 for the `k`-th time. -/
def hashedMessage (salt : Salt) (password : Str) : ℕ → List UInt8
  | 0 => salt.toList ++ password.take 200
  | k + 1 => (smSha256 (hashedMessage salt password k)).toList

theorem hashedMessage_iterate (salt : Salt) (password : Str) (n : ℕ) :
    (fun out : Digest => smSha256 out.toList)^[n] (smSha256 (salt.toList ++ password.take 200)) =
      smSha256 (hashedMessage salt password n) := by
  induction n with
  | zero => rfl
  | succ n ih => rw [Function.iterate_succ_apply', ih, hashedMessage]

theorem hashPassword_eq (salt : Salt) (password : Str) :
    hashPassword salt password =
      smSha256 (hashedMessage salt password (smAuthHashIterations - 1)) := by
  unfold hashPassword
  exact hashedMessage_iterate salt password (smAuthHashIterations - 1)

/-- The two computations meet two messages with one digest in the same round. -/
def Sha256Collides (salt : Salt) (p q : Str) : Prop :=
  ∃ k < smAuthHashIterations, hashedMessage salt p k ≠ hashedMessage salt q k ∧
    smSha256 (hashedMessage salt p k) = smSha256 (hashedMessage salt q k)

theorem hashedMessage_agree {salt : Salt} {p q : Str} {k n : ℕ} (hkn : k ≤ n)
    (h : smSha256 (hashedMessage salt p k) = smSha256 (hashedMessage salt q k)) :
    smSha256 (hashedMessage salt p n) = smSha256 (hashedMessage salt q n) := by
  induction n, hkn using Nat.le_induction with
  | base => exact h
  | succ n _ ih => rw [hashedMessage, hashedMessage, ih]

/-- Digests that agree in a round came from one message, or collided by then. -/
theorem digest_eq_cases {salt : Salt} {p q : Str} {n : ℕ}
    (h : smSha256 (hashedMessage salt p n) = smSha256 (hashedMessage salt q n)) :
    p.take 200 = q.take 200 ∨ ∃ k ≤ n, hashedMessage salt p k ≠ hashedMessage salt q k ∧
      smSha256 (hashedMessage salt p k) = smSha256 (hashedMessage salt q k) := by
  induction n with
  | zero =>
    by_cases hm : hashedMessage salt p 0 = hashedMessage salt q 0
    · exact Or.inl (List.append_cancel_left hm)
    · exact Or.inr ⟨0, le_rfl, hm, h⟩
  | succ n ih =>
    by_cases hm : hashedMessage salt p (n + 1) = hashedMessage salt q (n + 1)
    · rcases ih (Vector.toList_inj.mp hm) with hpq | ⟨k, hk, hc⟩
      · exact Or.inl hpq
      · exact Or.inr ⟨k, hk.trans n.le_succ, hc⟩
    · exact Or.inr ⟨n + 1, le_rfl, hm, h⟩

/-- One hash: the same first 200 bytes, or a collision. -/
def HashedAlike (salt : Salt) (p q : Str) : Prop :=
  p.take 200 = q.take 200 ∨ Sha256Collides salt p q

theorem hashPassword_eq_iff (salt : Salt) (p q : Str) :
    hashPassword salt p = hashPassword salt q ↔ HashedAlike salt p q := by
  rw [hashPassword_eq, hashPassword_eq]
  constructor
  · intro h
    refine (digest_eq_cases h).imp_right fun hc => ?_
    obtain ⟨k, hk, hc⟩ := hc
    exact ⟨k, Nat.lt_of_le_of_lt hk (by decide), hc⟩
  · intro h
    rcases h with hpq | ⟨k, hk, -, hc⟩
    · refine hashedMessage_agree (Nat.zero_le _) ?_
      rw [hashedMessage, hashedMessage, hpq]
    · exact hashedMessage_agree (Nat.le_sub_one_of_lt hk) hc

/-! ### The account with a password -/

/-- The account is not deleted and no change of its password is accepted, and
`auth_init` is only called to open the file of the accounts again. -/
def AuthOp.Leaves (name path : Str) (s : AuthState) : AuthOp → Prop
  | .init (some p) input => p = path ∧ input.readOk = true
  | .deleteUser (some username) _ => name.take smAuthMaxUsername ≠ username.take smAuthMaxUsername
  | .rewrite caller oldPassword newPassword salt true io =>
    caller.username.chars = name.take smAuthMaxUsername →
      (changePasswordLocked s caller oldPassword newPassword salt true io).1 = .errUnauthorized
  | _ => True

section Account

variable {name path password : Str} {salt : Salt} {s : AuthState}

theorem AuthOp.Leaves.reopens {op : AuthOp} (h : op.Leaves name path s) : op.Reopens path := by
  cases op with
  | init p input => cases p <;> exact h
  | _ => trivial

theorem StoredPassword.readBack {users : List UserRecord}
    (h : StoredPassword name salt password users) :
    StoredPassword name salt password (readBack users) := by
  obtain ⟨i, u, hfind, hrole, hsalt, hhash⟩ := h
  obtain ⟨j, hfind'⟩ := readBack_some hfind
  exact ⟨j, u.reread, hfind', fun h => hrole (reread_admin h), hsalt, hhash⟩

theorem StoredPassword.step (h : StoredPassword name salt password s.users) {op : AuthOp}
    (hpath : op.path = none) (hop : op.Leaves name path s) :
    StoredPassword name salt password (authStep s op).1.users := by
  obtain ⟨i, u, hfind, hrole, hsalt, hhash⟩ := h
  have hstep := authStep_account s op hpath name
  rw [hfind] at hstep
  generalize hnew : findUserLocked (authStep s op).1.users name = new at hstep
  cases hstep with
  | kept => exact ⟨i, u, hnew, hrole, hsalt, hhash⟩
  | failed => exact ⟨i, _, hnew, hrole, hsalt, hhash⟩
  | accepted => exact ⟨i, _, hnew, hrole, hsalt, hhash⟩
  | recovered hname hrec => exact absurd (isRecovery_role hrec).1 hrole
  | deleted hname => exact absurd hname hop
  | @rewritten caller oldPassword newPassword salt' io _ _ hname hold =>
    have hfind' : findUserLocked s.users caller.username.chars = some (i, u) := by
      rw [← hname, findUserLocked_same (List.take_take.trans (by rw [Nat.min_self])), hfind]
    have hrefused := hop hname.symm
    rw [change_accepted hfind' hold newPassword salt' io] at hrefused
    exact absurd hrefused (AuthState.save_ne (by decide) _ io)

theorem storedPassword_created (haccounts : AccountsInv s.users) {role : SmRole} {io : UserIo}
    (hrole : role ≠ .admin)
    (hok : (authCreateUser s (some name) (some password) role salt io).1 = .ok) :
    Lasting (StoredPassword name salt password) s.usersPath.chars
      (authCreateUser s (some name) (some password) role salt io).2 := by
  have hstored := authCreateUser_stored hrole hok
  have hinv : AccountsInv (authCreateUser s (some name) (some password) role salt io).2.users :=
    @AccountsInv.step s haccounts (.createUser (some name) (some password) role salt io) trivial
  have hpath := authStep_path s (.createUser (some name) (some password) role salt io)
  simp only [authStep, AuthOp.path, Option.elim_none] at hpath
  obtain ⟨s', hs'⟩ := authCreateUser_saves hok
  rw [hs'] at hok hstored hinv hpath ⊢
  rw [← hpath]
  exact Lasting.of_save (Q := StoredPassword name salt password)
    (fun _ => StoredPassword.readBack) hok hinv hstored

theorem storedPassword_run {ops : List AuthOp}
    (h : Lasting (StoredPassword name salt password) path s)
    (hops : Machine.Along authStep (fun t op => op.InTime ∧ op.Leaves name path t) s ops) :
    Lasting (StoredPassword name salt password) path (Machine.final authStep s ops) :=
  hops.invariant (fun _ _ ht hop => ht.step (fun _ => StoredPassword.readBack) hop.1 hop.2.reopens
    fun hpath => ht.table.step hpath hop.2) h

/-- Another password does not log in. -/
theorem StoredPassword.login_refused (h : StoredPassword name salt password s.users) {other : Str}
    (hother : ¬ HashedAlike salt password other) (outSession : Bool) (input : LoginInput)
    (session : Session) :
    (authLogin s (some name) (some other) outSession input).1 ≠ .ok session := by
  obtain ⟨i, u, hfind, hrole, rfl, hhash⟩ := h
  intro hok
  cases outSession with
  | false => cases hok
  | true =>
    obtain ⟨j, v, hfind', -, -, hv⟩ := authLogin_ok hok
    rw [hfind] at hfind'
    cases hfind'
    exact hother ((hashPassword_eq_iff _ _ _).mp ((hv.resolve_left hrole).trans hhash).symm)

/-- Another password is not taken for the old one of a change. -/
theorem StoredPassword.change_refused (h : StoredPassword name salt password s.users) {other : Str}
    (hother : ¬ HashedAlike salt password other) {caller : AuthUser}
    (hcaller : caller.username.chars = name.take smAuthMaxUsername) (newPassword : Str)
    (newSalt : Salt) (io : UserIo) :
    changePasswordLocked s caller other newPassword newSalt true io = (.errUnauthorized, s) := by
  obtain ⟨i, u, hfind, hrole, rfl, hhash⟩ := h
  have hfind' : findUserLocked s.users caller.username.chars = some (i, u) := by
    rw [hcaller, findUserLocked_same (List.take_take.trans (by rw [Nat.min_self])), hfind]
  have hwrong : consttimeEq (hashPassword u.salt other) u.hash = false := by
    rw [← Bool.not_eq_true, consttimeEq_iff, hhash]
    exact fun he => hother ((hashPassword_eq_iff _ _ _).mp he.symm)
  simp only [changePasswordLocked, hfind', hwrong, Bool.not_true, Bool.not_false,
    Bool.false_eq_true, if_false, if_true]

theorem StoredPassword.verify (h : StoredPassword name salt password s.users)
    (token : Option Str) (now : ℤ) :
    StoredPassword name salt password (authVerifySession s token now).2.users := by
  rw [(authVerifySession_accounts s token now).1]
  exact h

end Account

/-! ### Passwords compared by their first 200 bytes -/

/-- Two passwords have one hash only if they agree in their first 200 bytes or
collide. An account that is not ADMIN keeps the password it was created with in
every run that does not delete it or change its password, restarts from its file
included, and with that password stored every password that has another hash is
refused by a login and as the old password of a change. -/
theorem passwords_compared_to_cap :
    (∀ salt p q, hashPassword salt p = hashPassword salt q ↔
        p.take 200 = q.take 200 ∨ Sha256Collides salt p q) ∧
      (∀ (files : Str → Option Str) (before ops : List AuthOp) (name p : Str) (role : SmRole)
          (salt : Salt) (io : UserIo), (∀ op ∈ before, op.InTime) → role ≠ .admin →
        let s := authRun files before
        let r := authCreateUser s (some name) (some p) role salt io
        r.1 = .ok →
        Machine.Along authStep (fun t op => op.InTime ∧ op.Leaves name s.usersPath.chars t)
          r.2 ops →
        StoredPassword name salt p (Machine.final authStep r.2 ops).users) ∧
      ∀ (s : AuthState) (name p q : Str) (salt : Salt), StoredPassword name salt p s.users →
        ¬ (p.take 200 = q.take 200 ∨ Sha256Collides salt p q) →
        (∀ outSession input session,
          (authLogin s (some name) (some q) outSession input).1 ≠ .ok session) ∧
        ∀ token newPassword now newSalt io caller, ¬ newPassword.length < 8 →
          (authVerifySession s (some token) now).1 = .ok caller →
          caller.username.chars = name.take smAuthMaxUsername →
          authChangePassword s (some token) (some q) (some newPassword) now newSalt true io =
            (.errUnauthorized, (authVerifySession s (some token) now).2) := by
  refine ⟨hashPassword_eq_iff, ?_, fun s name p q salt hstored hother =>
    ⟨hstored.login_refused hother, ?_⟩⟩
  · intro files before ops name p role salt io htime hrole s r hok hops
    exact (storedPassword_run
      (storedPassword_created (authRun_accounts files htime) hrole hok) hops).table
  · intro token newPassword now newSalt io caller hlen hverify hcaller
    have hafter := (hstored.verify (some token) now).change_refused hother hcaller newPassword
      newSalt io
    simp only [authChangePassword, if_neg hlen]
    generalize authVerifySession s (some token) now = r at hverify hafter ⊢
    obtain ⟨r, s'⟩ := r
    cases hverify
    exact hafter

/-- An OPERATOR created with that password. -/
def bobWith (password : Str) : AuthState :=
  (authCreateUser (authRun (adminFile 48 (lit "0")) [adminInit]) (some (lit "bob"))
    (some password) .operator (Vector.replicate _ 7) UserIo.all).2

def bobRecord (password : Str) : UserRecord :=
  ⟨true, CharField.copy _ (lit "bob"), Vector.replicate _ 7,
    hashPassword (Vector.replicate _ 7) password, .operator, 0, 0⟩

theorem bobWith_accounts (password : Str) (hlen : 8 ≤ password.length) :
    (bobWith password).users =
        (authRun (adminFile 48 (lit "0")) [adminInit]).users ++ [bobRecord password] ∧
      (bobWith password).usersPath.chars = lit "u.csv" ∧
      ∀ j, (bobWith password).table j = none := by
  rw [bobWith, authRun_adminInit adminFile_loads, Machine.final_nil,
    authCreateUser_accepted (by decide) hlen (by decide) rfl (by decide)]
  exact ⟨rfl, rfl, fun j => rfl⟩

/-- bob is created and the program started again. -/
theorem passwords_compared_to_cap_bob :
    ¬ ((lit "password").take 200 = (lit "Password").take 200 ∨
        Sha256Collides (Vector.replicate _ 7) (lit "password") (lit "Password")) →
      (∀ outSession input session,
        (authLogin (Machine.final authStep (bobWith (lit "password")) [adminInit])
          (some (lit "bob")) (some (lit "Password")) outSession input).1 ≠ .ok session) := by
  intro hother
  have hstored := passwords_compared_to_cap.2.1 (adminFile 48 (lit "0")) [adminInit] [adminInit]
    (lit "bob") (lit "password") .operator (Vector.replicate _ 7) UserIo.all
    (fun op hop => by
      rw [List.mem_singleton.mp hop]
      trivial)
    (fun h => (by cases h)) (by rw [authRun_adminInit adminFile_loads]; rfl)
    ⟨⟨trivial, rfl, rfl⟩, trivial⟩
  exact (passwords_compared_to_cap.2.2 _ _ _ _ _ hstored hother).1

/-- Two passwords of 201 bytes that differ in the last one. -/
def longPassword (last : UInt8) : Str := List.replicate 200 97 ++ [last]

/-- They have one hash for every salt though no messages collide, and an account
created with one lets in the other, at a login and as the old password. -/
theorem long_passwords_alike :
    longPassword 98 ≠ longPassword 99 ∧
      (∀ salt, hashPassword salt (longPassword 98) = hashPassword salt (longPassword 99) ∧
        ¬ Sha256Collides salt (longPassword 98) (longPassword 99)) ∧
      (∃ session, (authLogin (bobWith (longPassword 98)) (some (lit "bob"))
        (some (longPassword 99)) true (zeroLogin 0)).1 = .ok session) ∧
      (changePasswordLocked (bobWith (longPassword 98)) ⟨CharField.copy _ (lit "bob"), .operator⟩
        (longPassword 99) (lit "new password") (Vector.replicate _ 8) true UserIo.all).1 = .ok := by
  have htake : (longPassword 98).take 200 = (longPassword 99).take 200 := by
    rw [longPassword, longPassword, List.take_left' List.length_replicate,
      List.take_left' List.length_replicate]
  have hhash : ∀ salt, hashPassword salt (longPassword 98) = hashPassword salt (longPassword 99) :=
    fun salt => (hashPassword_eq_iff salt _ _).mpr (Or.inl htake)
  have hmessages : ∀ salt k, hashedMessage salt (longPassword 98) k =
      hashedMessage salt (longPassword 99) k := by
    intro salt k
    induction k with
    | zero => rw [hashedMessage, hashedMessage, htake]
    | succ k ih => rw [hashedMessage, hashedMessage, ih]
  obtain ⟨husers, hpath, htable⟩ := bobWith_accounts (longPassword 98) (by
    rw [longPassword, List.length_append, List.length_replicate]
    decide)
  have hnone : findUserLocked (authRun (adminFile 48 (lit "0")) [adminInit]).users (lit "bob") =
      none := by
    rw [authRun_adminInit adminFile_loads]
    rfl
  generalize bobWith (longPassword 98) = s at husers hpath htable ⊢
  obtain ⟨u, hu⟩ : ∃ u, u = bobRecord (longPassword 98) := ⟨_, rfl⟩
  rw [← hu] at husers
  have hname : u.answers (lit "bob") = true := by
    rw [UserRecord.answers_iff, hu]
    exact ⟨rfl, rfl⟩
  have hfind : ∃ i, findUserLocked s.users (lit "bob") = some (i, u) := by
    rw [husers, findUserLocked_append_none hnone, if_pos hname]
    exact ⟨_, rfl⟩
  obtain ⟨i, hfind⟩ := hfind
  have hright : hashPassword u.salt (longPassword 99) = u.hash := by
    rw [hu]
    exact (hhash _).symm
  refine ⟨fun he => ?_, fun salt => ⟨hhash salt, fun hc => ?_⟩, ?_, ?_⟩
  · exact absurd (List.append_cancel_left he) (by decide)
  · obtain ⟨k, -, hne, -⟩ := hc
    exact hne (hmessages salt k)
  · rw [login_accepted hfind (by rw [hu]; rfl) (by rw [hu]; rfl) (Or.inr hright)]
    rcases openSession_cases (s.setUser i u.cleared) u.cleared (zeroLogin 0) with
      ⟨-, -, hfull⟩ | ⟨j, -, hok, -⟩
    · obtain ⟨l, hl, -⟩ := hfull ⟨0, by decide⟩
      cases (htable _).symm.trans hl
    · exact ⟨_, hok⟩
  · rw [@change_accepted s ⟨CharField.copy _ (lit "bob"), .operator⟩ i u hfind _ hright]
    exact @AuthState.save_good (s.setUser i (u.withPassword (Vector.replicate _ 8)
      (lit "new password"))) (hpath.trans_ne (by decide)) _
      UserIo.all_good

end SubscriberMgmt
