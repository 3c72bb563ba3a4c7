import SubscriberMgmt.LoadedLines

/-!
# The first administrator (`auth.c:179-220`, `auth.c:359-431`)

`auth_init` seeds the default accounts when the credential file cannot be opened.
A file that is readable is taken as it is, with an administrator or without.
-/

namespace SubscriberMgmt
open CText

def HasAdmin (users : List UserRecord) : Prop := ∃ u ∈ users, u.inUse = true ∧ u.role = .admin

/-! ### The lines of administrators -/

/-- No comment, six fields, two of them in hex, and the role is `ADMIN`. -/
def AdminLine (piece : Str) (stale : Str × Str) : Prop :=
  (cutLine piece).head? ≠ some 35 ∧
    ∃ username saltHex hashHex failedAttempts lockedUntil,
      scanCredential (cutLine piece) =
        some (username, saltHex, hashHex, lit "ADMIN", failedAttempts, lockedUntil) ∧
      (smHexDecode (saltHex ++ 0 :: stale.1) smAuthSaltBytes).isSome = true ∧
      (smHexDecode (hashHex ++ 0 :: stale.2) 32).isSome = true

/-- The table has room when the loop comes to the `k`-th piece. -/
def RoomAt (stale : ℕ → Str × Str) (content : Str) (k : ℕ) : Prop :=
  (accountPieces stale 0 ((filePieces content).take k)).length < smAuthMaxUsers

theorem smRoleFromStr_admin (s : Str) : smRoleFromStr s = .admin ↔ s = lit "ADMIN" := by
  unfold smRoleFromStr
  split
  case isTrue h => exact iff_of_true rfl h
  case isFalse h =>
    refine iff_of_false (fun hr => ?_) h
    split at hr
    · cases hr
    · split at hr <;> cases hr

theorem scanCredential_nil : scanCredential [] = none := rfl

theorem credentialLine_inUse {piece : Str} {stale : Str × Str} {u : UserRecord}
    (h : credentialLine piece stale = some u) : u.inUse = true := by
  simp only [credentialLine, Option.bind_eq_bind] at h
  split at h
  case isTrue => cases h
  case isFalse =>
    obtain ⟨fields, -, h⟩ := Option.bind_eq_some_iff.mp h
    obtain ⟨salt, -, h⟩ := Option.bind_eq_some_iff.mp h
    obtain ⟨hash, -, h⟩ := Option.bind_eq_some_iff.mp h
    cases h
    rfl

theorem credentialLine_admin (piece : Str) (stale : Str × Str) :
    (∃ u, credentialLine piece stale = some u ∧ u.role = .admin) ↔ AdminLine piece stale := by
  constructor
  · rintro ⟨u, hu, hrole⟩
    simp only [credentialLine, Bool.or_eq_true, beq_iff_eq, Option.bind_eq_bind] at hu
    split at hu
    case isTrue => cases hu
    case isFalse hline =>
      rw [not_or] at hline
      obtain ⟨⟨username, saltHex, hashHex, roleStr, failedAttempts, lockedUntil⟩, hscan, hu⟩ :=
        Option.bind_eq_some_iff.mp hu
      obtain ⟨salt, hsalt, hu⟩ := Option.bind_eq_some_iff.mp hu
      obtain ⟨hash, hhash, hu⟩ := Option.bind_eq_some_iff.mp hu
      cases hu
      rw [(smRoleFromStr_admin roleStr).mp hrole] at hscan
      exact ⟨hline.2, username, saltHex, hashHex, failedAttempts, lockedUntil, hscan,
        Option.isSome_of_eq_some hsalt, Option.isSome_of_eq_some hhash⟩
  · rintro ⟨hcomment, username, saltHex, hashHex, failedAttempts, lockedUntil, hscan, hsalt, hhash⟩
    obtain ⟨salt, hsalt⟩ := Option.isSome_iff_exists.mp hsalt
    obtain ⟨hash, hhash⟩ := Option.isSome_iff_exists.mp hhash
    have hempty : (cutLine piece).isEmpty = false := by
      cases hcut : cutLine piece with
      | nil =>
        rw [hcut, scanCredential_nil] at hscan
        cases hscan
      | cons c rest => rfl
    have hhead : ((cutLine piece).head? == some 35) = false := beq_false_of_ne hcomment
    refine ⟨⟨true, CharField.copy _ username, salt, hash, smRoleFromStr (lit "ADMIN"),
      UInt32.ofNat failedAttempts, lockedUntil⟩, ?_, rfl⟩
    simp only [credentialLine, hempty, hhead, Bool.or_self, Bool.false_eq_true, if_false, hscan,
      hsalt, hhash, Option.bind_eq_bind, Option.bind_some]
    rfl

theorem loadUsersLocked_admin (stale : ℕ → Str × Str) (content : Str) :
    HasAdmin (loadUsersLocked stale content) ↔
      ∃ k piece, (filePieces content)[k]? = some piece ∧ AdminLine piece (stale k) ∧
        RoomAt stale content k := by
  rw [loadUsersLocked_eq]
  constructor
  · rintro ⟨u, hu, -, hrole⟩
    obtain ⟨⟨k, v⟩, hk, rfl⟩ := List.mem_map.mp hu
    obtain ⟨piece, hpiece, hline, hroom⟩ := (loadedAccounts_iff stale content k v).mp hk
    exact ⟨k, piece, hpiece, (credentialLine_admin _ _).mp ⟨v, hline, hrole⟩, hroom⟩
  · rintro ⟨k, piece, hpiece, hadmin, hroom⟩
    obtain ⟨u, hline, hrole⟩ := (credentialLine_admin _ _).mpr hadmin
    have hk := (loadedAccounts_iff stale content k u).mpr ⟨piece, hpiece, hline, hroom⟩
    exact ⟨u, List.mem_map.mpr ⟨(k, u), hk, rfl⟩, credentialLine_inUse hline, hrole⟩

/-! ### The start -/

theorem authInit_opened {s : AuthState} {path : Str} {input : InitInput} {content : Str}
    (hfile : s.disk.files path = some content) (hread : input.readOk = true) :
    (authInit s (some path) input).1 = .ok := by
  have hr : readUsers s.disk.files path input = some (loadUsersLocked input.stale content) := by
    simp only [readUsers, hread, if_true, hfile, Option.map_some]
  simp only [authInit, hr]

theorem seedDefaultUsersLocked_admin (adminSalt : Salt) (operator viewer : SeedDraw) :
    HasAdmin (seedDefaultUsersLocked adminSalt operator viewer) :=
  ⟨_, List.mem_cons_self .., rfl, rfl⟩

/-- After a start that succeeds there is an administrator exactly when the file
cannot be opened or has the line of one, before the table is full. -/
theorem auth_init_admin_iff (s : AuthState) (path : Str) (input : InitInput) :
    ((authInit s (some path) input).1 = .ok → HasAdmin (authInit s (some path) input).2.users) ↔
      ∀ content, s.disk.files path = some content → input.readOk = true →
        ∃ k piece, (filePieces content)[k]? = some piece ∧ AdminLine piece (input.stale k) ∧
          RoomAt input.stale content k := by
  constructor
  · intro h content hfile hread
    have hadmin := h (authInit_opened hfile hread)
    rw [(authInit_read hfile hread).2] at hadmin
    exact (loadUsersLocked_admin input.stale content).mp hadmin
  · intro h _
    by_cases hread : input.readOk = true
    · cases hfile : s.disk.files path with
      | none =>
        have hr : readUsers s.disk.files path input = none := by
          simp only [readUsers, hread, if_true, hfile, Option.map_none]
        simp only [authInit, hr]
        exact seedDefaultUsersLocked_admin ..
      | some content =>
        rw [(authInit_read hfile hread).2]
        exact (loadUsersLocked_admin input.stale content).mpr (h content hfile hread)
    · rw [authInit_unread (Bool.eq_false_iff.mpr hread)]
      exact seedDefaultUsersLocked_admin ..

/-- An empty file gives no account, and neither does one whose only line is a comment
or is cut off. -/
theorem authInit_no_account {content : Str}
    (hc : content ∈ [[], lit "# nobody" ++ [newline], lit "admin,00" ++ [newline]]) :
    let r := authInit (AuthState.start fun _ => some content) (some (lit "u.csv")) (drawn true 0)
    r.1 = .ok ∧ ¬ HasAdmin r.2.users := by
  intro r
  have hok : r.1 = .ok := authInit_opened (s := AuthState.start fun _ => some content) rfl rfl
  have hnone : r.2.users = [] := by
    refine (authInit_read (s := AuthState.start fun _ => some content) rfl rfl).2.trans ?_
    simp only [List.mem_cons, List.not_mem_nil, or_false] at hc
    rw [loadUsersLocked]
    rcases hc with rfl | rfl | rfl
    · rw [fgetsAll]
      rfl
    · rw [fgetsAll_line (by decide) (by decide), fgetsAll]
      rfl
    · rw [fgetsAll_line (by decide) (by decide), fgetsAll]
      rfl
  refine ⟨hok, fun hadmin => ?_⟩
  obtain ⟨u, hu, -⟩ := hadmin
  rw [hnone] at hu
  cases hu

theorem no_administrator :
    let r (content : Str) :=
      authInit (AuthState.start fun _ => some content) (some (lit "u.csv")) (drawn true 0)
    ((r []).1 = .ok ∧ ¬ HasAdmin (r []).2.users) ∧
      ((r (lit "# nobody" ++ [newline])).1 = .ok ∧
        ¬ HasAdmin (r (lit "# nobody" ++ [newline])).2.users) ∧
      (r (lit "admin,00" ++ [newline])).1 = .ok ∧
        ¬ HasAdmin (r (lit "admin,00" ++ [newline])).2.users :=
  ⟨authInit_no_account (by simp), authInit_no_account (by simp), authInit_no_account (by simp)⟩

end SubscriberMgmt
