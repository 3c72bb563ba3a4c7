import SubscriberMgmt.AuthSessions

/-!
# Who can log in (`auth.c:349-542`)

Accounts with role ADMIN are let in whatever the password, and the default
password lifts their lock; all other accounts need their own password.
-/

namespace SubscriberMgmt
open CText

theorem foldl_xor_eq_zero (l : List (UInt8 × UInt8)) (diff : UInt8) :
    l.foldl (fun diff p => diff ||| (p.1 ^^^ p.2)) diff = 0 ↔ diff = 0 ∧ ∀ p ∈ l, p.1 = p.2 := by
  induction l generalizing diff with
  | nil => simp
  | cons p l ih =>
    rw [List.foldl_cons, ih, UInt8.or_eq_zero_iff, UInt8.xor_eq_zero_iff, List.forall_mem_cons,
      and_assoc]

theorem consttimeEq_iff {n : ℕ} (a b : Vector UInt8 n) : consttimeEq a b = true ↔ a = b := by
  have hlen : a.toList.length = b.toList.length := by simp
  rw [consttimeEq, beq_iff_eq, foldl_xor_eq_zero, ← Vector.toList_inj]
  constructor
  · intro h
    obtain ⟨-, h⟩ := h
    apply List.ext_getElem hlen
    intro i h1 h2
    exact h (a.toList[i], b.toList[i]) (List.mem_iff_getElem.mpr ⟨i, by simpa using h1, by simp⟩)
  · intro h
    refine ⟨rfl, fun p hp => ?_⟩
    rw [h, List.zip_eq_zipWith, List.zipWith_self] at hp
    obtain ⟨x, -, rfl⟩ := List.mem_map.mp hp
    rfl

theorem findUserLocked_some {users : List UserRecord} {username : Str} {i : ℕ} {u : UserRecord}
    (h : findUserLocked users username = some (i, u)) :
    users[i]? = some u ∧ u.inUse = true ∧
      u.username.chars = username.take smAuthMaxUsername := by
  obtain ⟨e, he, hf⟩ := List.exists_of_findSome?_eq_some h
  split at hf
  case isTrue hm =>
    cases hf
    simp only [Bool.and_eq_true, strncmpEq, decide_eq_true_eq,
      List.take_of_length_le e.1.username.fits] at hm
    exact ⟨List.mem_zipIdx_iff_getElem?.mp he, hm⟩
  case isFalse => cases hf

theorem checkCredentials_ok {s s' : AuthState} {username password : Str} {input : LoginInput}
    {u' : UserRecord} (h : checkCredentials s username password input = (.ok u', s')) :
    ∃ i u, findUserLocked s.users username = some (i, u) ∧ u'.username = u.username ∧
      u'.role = u.role ∧ (isLocked u input.now = false ∨ isRecovery u password = true) ∧
      (u.role = .admin ∨ hashPassword u.salt password = u.hash) := by
  unfold checkCredentials at h
  split at h
  case h_1 => cases h
  case h_2 i u hfind =>
    refine ⟨i, u, hfind, ?_⟩
    split at h
    case isTrue => cases h
    case isFalse hlock =>
      have hlock' : isLocked u input.now = false ∨ isRecovery u password = true := by
        cases hl : isLocked u input.now <;> simp_all
      dsimp only at h
      cases hrec : isRecovery u password with
      | true =>
        have hrole : u.role = .admin := by
          simp only [isRecovery, Bool.and_eq_true, beq_iff_eq] at hrec
          exact hrec.1
        rw [hrec] at h hlock'
        simp only [if_true, Bool.not_true, Bool.and_false, Bool.false_eq_true, if_false] at h
        cases h
        exact ⟨rfl, rfl, hlock', Or.inl hrole⟩
      | false =>
        rw [hrec] at h hlock'
        simp only [Bool.false_eq_true, if_false, Bool.not_false, Bool.and_true] at h
        split at h
        case isTrue => cases h
        case isFalse hacc =>
          cases h
          refine ⟨rfl, rfl, hlock', ?_⟩
          rcases eq_or_ne u.role .admin with hrole | hrole
          · exact Or.inl hrole
          · right
            rw [← consttimeEq_iff]
            simpa [hrole] using hacc

theorem authLogin_ok {s : AuthState} {username password : Str} {input : LoginInput}
    {session : Session}
    (h : (authLogin s (some username) (some password) true input).1 = .ok session) :
    ∃ i u, findUserLocked s.users username = some (i, u) ∧
      session.user = ⟨u.username, u.role⟩ ∧
      (isLocked u input.now = false ∨ isRecovery u password = true) ∧
      (u.role = .admin ∨ hashPassword u.salt password = u.hash) := by
  simp only [authLogin] at h
  split at h
  case h_1 => cases h
  case h_2 u' s' heq =>
    obtain ⟨i, u, hfind, hname, hrole, hacc⟩ := checkCredentials_ok heq
    refine ⟨i, u, hfind, ?_, hacc⟩
    rcases openSession_cases s' u' input with ⟨herr, -⟩ | ⟨j, -, hok, -⟩
    · rw [herr] at h
      cases h
    · rw [hok] at h
      cases h
      rw [← hname, ← hrole]
      rfl

theorem isLocked_eq_false {u : UserRecord} {now : ℤ} :
    isLocked u now = false ↔ u.lockedUntil = 0 ∨ u.lockedUntil ≤ now := by
  simp only [isLocked, Bool.and_eq_false_iff, bne_eq_false_iff_eq, decide_eq_false_iff_not,
    Int.not_lt]

/-- A login succeeds only for a live account, the one whose session it opens. Its
name is the one given, if that has at most 32 bytes. If its role is not ADMIN, it is
not locked and the password matches the stored hash; if it is, the account is not
locked or the password is the default one. -/
theorem login_sound (s : AuthState) (username password : Str) (input : LoginInput)
    (session : Session)
    (hok : (authLogin s (some username) (some password) true input).1 = .ok session) :
    ∃ u ∈ s.users, u.inUse = true ∧ session.user = ⟨u.username, u.role⟩ ∧
      (username.length ≤ smAuthMaxUsername → u.username.chars = username) ∧
      (u.role ≠ .admin → (u.lockedUntil = 0 ∨ u.lockedUntil ≤ input.now) ∧
        hashPassword u.salt password = u.hash) ∧
      (u.role = .admin → (u.lockedUntil = 0 ∨ u.lockedUntil ≤ input.now) ∨
        password = smAuthDefaultAdminPassword) := by
  obtain ⟨i, u, hfind, huser, hlock, hhash⟩ := authLogin_ok hok
  obtain ⟨hget, huse, hchars⟩ := findUserLocked_some hfind
  rw [isLocked_eq_false] at hlock
  refine ⟨u, List.mem_of_getElem? hget, huse, huser, fun hname => ?_, fun hrole => ⟨?_, ?_⟩,
    fun hrole => ?_⟩
  · rw [hchars, List.take_of_length_le hname]
  · rcases hlock with hlock | hrec
    · exact hlock
    · simp [isRecovery, hrole] at hrec
  · exact hhash.resolve_left hrole
  · apply hlock.imp id
    intro hrec
    simpa [isRecovery, hrole] using hrec

theorem login_sound_admin :
    ∃ u ∈ (authRun (adminFile 48 (lit "0")) [adminInit]).users, u.inUse = true ∧
      adminUser = ⟨u.username, u.role⟩ ∧
      ((lit "admin").length ≤ smAuthMaxUsername → u.username.chars = lit "admin") ∧
      (u.role ≠ .admin → (u.lockedUntil = 0 ∨ u.lockedUntil ≤ 7) ∧
        hashPassword u.salt (lit "x") = u.hash) ∧
      (u.role = .admin → (u.lockedUntil = 0 ∨ u.lockedUntil ≤ 7) ∨
        lit "x" = smAuthDefaultAdminPassword) :=
  login_sound _ _ _ (zeroLogin 7) ⟨List.replicate 64 48, adminUser, 1807⟩ (by
    rw [authRun_adminInit adminFile_loads]
    rfl)

/-- A file with one account, an ADMIN of the 32 bytes "aa…a". -/
def longNameFile : Str → Option Str := fun path =>
  if path = lit "u.csv" then
    some (List.replicate 32 97 ++ comma :: List.replicate 32 48 ++ comma ::
      List.replicate 64 48 ++ lit ",ADMIN,0,0" ++ [newline])
  else none

def longNameRecord : UserRecord :=
  ⟨true, CharField.copy _ (List.replicate 32 97), Vector.replicate _ 0, Vector.replicate _ 0,
    .admin, 0, 0⟩

theorem longNameFile_loads : (longNameFile (lit "u.csv")).map
    (loadUsersLocked fun _ => ([], [])) = some [longNameRecord] := by decide +kernel

/-- An accepted login says nothing about the password of an ADMIN: the same salt
and password are accepted for two different hashes. The default password also
logs in a locked account, and a name of 33 bytes finds the account of the first 32. -/
theorem admin_login_unchecked :
    (¬ ∀ files ops username password input session,
        (authLogin (authRun files ops) (some username) (some password) true input).1 =
          .ok session →
        ∃ u ∈ (authRun files ops).users, u.inUse = true ∧ u.username.chars = username ∧
          (u.lockedUntil = 0 ∨ u.lockedUntil ≤ input.now) ∧
          hashPassword u.salt password = u.hash) ∧
      (∃ session, (authLogin (authRun (adminFile 48 (lit "1000")) [adminInit])
          (some (lit "admin")) (some smAuthDefaultAdminPassword) true (zeroLogin 0)).1 =
            .ok session) ∧
      (∀ u ∈ (authRun (adminFile 48 (lit "1000")) [adminInit]).users,
        ¬ (u.lockedUntil = 0 ∨ u.lockedUntil ≤ 0)) ∧
      (∃ session, (authLogin (authRun longNameFile [adminInit]) (some (List.replicate 33 97))
          (some (lit "x")) true (zeroLogin 0)).1 = .ok session) ∧
      ∀ u ∈ (authRun longNameFile [adminInit]).users,
        u.username.chars ≠ List.replicate 33 97 := by
  have h49 : (adminFile 49 (lit "0") (lit "u.csv")).map (loadUsersLocked fun _ => ([], [])) =
      some [adminRecord 17 0] := by decide +kernel
  have hl : (adminFile 48 (lit "1000") (lit "u.csv")).map (loadUsersLocked fun _ => ([], [])) =
      some [adminRecord 0 1000] := by decide +kernel
  rw [authRun_adminInit hl, authRun_adminInit longNameFile_loads]
  refine ⟨fun h => ?_, ⟨⟨List.replicate 64 48, adminUser, 1800⟩, rfl⟩, fun u hu => ?_,
    ⟨⟨List.replicate 64 48, ⟨CharField.copy _ (List.replicate 32 97), .admin⟩, 1800⟩, rfl⟩,
    fun u hu => ?_⟩
  · obtain ⟨u, hu, -, -, -, e48⟩ := h (adminFile 48 (lit "0")) [adminInit] (lit "admin") (lit "x")
      (zeroLogin 0) ⟨List.replicate 64 48, adminUser, 1800⟩ (by
        rw [authRun_adminInit adminFile_loads]
        rfl)
    obtain ⟨v, hv, -, -, -, e49⟩ := h (adminFile 49 (lit "0")) [adminInit] (lit "admin") (lit "x")
      (zeroLogin 0) ⟨List.replicate 64 48, adminUser, 1800⟩ (by
        rw [authRun_adminInit h49]
        rfl)
    rw [authRun_adminInit adminFile_loads] at hu
    rw [authRun_adminInit h49] at hv
    cases List.mem_singleton.mp hu
    cases List.mem_singleton.mp hv
    have hne : (Vector.replicate 32 0 : Digest) ≠ Vector.replicate 32 17 := by decide
    exact hne (e48.symm.trans e49)
  · cases List.mem_singleton.mp hu
    simp [adminRecord]
  · cases List.mem_singleton.mp hu
    decide

end SubscriberMgmt
