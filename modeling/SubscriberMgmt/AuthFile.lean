import SubscriberMgmt.AuthReload

/-!
# What a restart finds (`auth.c:179-347, 410-542, 668-777`)

Between two calls of `auth_init` the file of the accounts is as it was or as
`save_users_locked` writes the table. What holds of the table and is still said
by its lines therefore holds again after `auth_init` opens the file.
-/

namespace SubscriberMgmt
open CText

/-! ### The file after a section -/

/-- The file of the accounts is as it was, or as a save of the table writes it. -/
def FileFrom (s s' : AuthState) : Prop :=
  s'.disk.files s.usersPath.chars = s.disk.files s.usersPath.chars ∨
    s'.disk.files s.usersPath.chars = some (credentialFile s'.users)

section File

variable {s s' s'' : AuthState}

theorem FileFrom.of_disk (h : s'.disk = s.disk) : FileFrom s s' := Or.inl (by rw [h])

theorem FileFrom.of_save (h : s'.disk = s.disk) (hpath : s'.usersPath = s.usersPath)
    (io : UserIo) : FileFrom s (s'.save io).2 := by
  have hlen : s.usersPath.chars.length < 512 := Nat.lt_succ_of_le s.usersPath.fits
  have hfiles := saveUsersLocked_files s'.users hlen io s'.disk
  rw [h] at hfiles
  simp only [FileFrom, AuthState.save, hpath, h]
  exact hfiles

theorem FileFrom.trans (h : FileFrom s s') (h' : FileFrom s' s'')
    (hpath : s'.usersPath = s.usersPath) (husers : s''.users = s'.users) : FileFrom s s'' := by
  rw [FileFrom, hpath] at h'
  rcases h' with h' | h'
  · rw [FileFrom, h', husers]
    exact h
  · exact Or.inr h'

theorem openSession_file (s : AuthState) (u : UserRecord) (input : LoginInput) :
    FileFrom s (openSession s u input).2 := by
  unfold openSession
  split
  · exact .of_disk rfl
  · exact .of_save rfl rfl _

theorem checkCredentials_file (s : AuthState) (username password : Str) (input : LoginInput) :
    FileFrom s (checkCredentials s username password input).2 := by
  rcases checkCredentials_cases s username password input with ⟨-, he⟩ | ⟨i, u, -, hc⟩
  · rw [he]
    exact .of_disk rfl
  · generalize checkCredentials s username password input = r at hc ⊢
    cases hc with
    | locked => exact .of_disk rfl
    | failed => exact .of_save rfl rfl _
    | accepted => exact .of_disk rfl
    | recovered hrec hs =>
      -- the account is written to the table twice, and saved in between
      subst hs
      have hsaved : FileFrom s ((s.setUser i (u.cleared.withPassword input.salt password)).save
        input.recoverySave).2 := .of_save rfl rfl _
      exact hsaved.trans (.of_disk rfl) rfl (List.set_set ..)

theorem authLogin_file (s : AuthState) (username password : Option Str) (outSession : Bool)
    (input : LoginInput) : FileFrom s (authLogin s username password outSession input).2 := by
  unfold authLogin
  split
  case h_1 username password =>
    have hfile := checkCredentials_file s username password input
    have hpath := checkCredentials_path s username password input
    split
    case h_1 st s' heq =>
      rw [heq] at hfile
      exact hfile
    case h_2 u s' heq =>
      rw [heq] at hfile hpath
      exact hfile.trans (openSession_file s' u input) hpath (openSession_users s' u input).1
  case h_2 => exact .of_disk rfl

/-- A section other than `auth_init` leaves the file or writes the table to it. -/
theorem authStep_file (s : AuthState) {op : AuthOp} (hop : op.path = none) :
    FileFrom s (authStep s op).1 := by
  cases op with
  | init path input =>
    cases path with
    | none => exact .of_disk rfl
    | some path => cases hop
  | shutdown io =>
    simp only [authStep, authShutdown]
    split
    · exact @FileFrom.of_save s s rfl rfl io
    · exact .of_disk rfl
  | login username password outSession input =>
    exact authLogin_file s username password outSession input
  | logout token =>
    apply FileFrom.of_disk
    simp only [authStep, authLogout]
    split
    · rfl
    · split <;> rfl
  | verify token now => exact .of_disk (authVerifySession_disk s token now)
  | createUser username password role salt io =>
    simp only [authStep, authCreateUser]
    split
    · split
      · exact .of_disk rfl
      · split
        · exact .of_disk rfl
        · split
          · exact .of_disk rfl
          · exact .of_save rfl rfl io
    · exact .of_disk rfl
  | rewrite caller oldPassword newPassword salt lockOk io =>
    simp only [authStep, changePasswordLocked]
    split
    · exact .of_disk rfl
    · split
      · exact .of_disk rfl
      · split
        · exact .of_disk rfl
        · exact .of_save rfl rfl io
  | deleteUser username io =>
    simp only [authStep, authDeleteUser]
    split
    · exact .of_disk rfl
    · split
      · exact .of_disk rfl
      · exact .of_save rfl rfl io

end File

/-! ### The table that is read back -/

theorem findUserLocked_find? (users : List UserRecord) (name : Str) :
    (findUserLocked users name).map Prod.snd = users.find? fun u => u.answers name := by
  cases hfind : findUserLocked users name with
  | none =>
    refine (List.find?_eq_none.mpr fun u hu => ?_).symm
    exact Bool.eq_false_iff.mp (findUserLocked_none_iff.mp hfind u hu)
  | some e =>
    obtain ⟨i, u⟩ := e
    obtain ⟨hu, hans, hno⟩ := findUserLocked_some_iff.mp hfind
    obtain ⟨hlt, he⟩ := List.getElem?_eq_some_iff.mp hu
    have hfirst : users.find? (fun u => u.answers name) = some u := by
      refine List.find?_eq_some_iff_getElem.mpr ⟨hans, i, hlt, he, fun j hj => ?_⟩
      rw [hno j hj _ (List.getElem?_eq_getElem (hj.trans hlt))]
      rfl
    exact hfirst.symm

theorem readBack_find (users : List UserRecord) (name : Str) :
    (findUserLocked (readBack users) name).map Prod.snd =
      ((findUserLocked users name).map Prod.snd).map UserRecord.reread := by
  have hlive : ∀ u : UserRecord, (u.inUse && u.answers name) = u.answers name := fun u => by
    rw [UserRecord.answers, ← Bool.and_assoc, Bool.and_self]
  have hans : ((fun u : UserRecord => u.answers name) ∘ UserRecord.reread) =
      fun u => u.answers name := rfl
  rw [findUserLocked_find?, findUserLocked_find?, readBack, List.find?_map, hans,
    List.find?_filter]
  simp only [Bool.decide_and, Bool.decide_eq_true, hlive]

theorem readBack_none {users : List UserRecord} {name : Str}
    (h : findUserLocked users name = none) : findUserLocked (readBack users) name = none := by
  have hfind := readBack_find users name
  rw [h] at hfind
  exact Option.map_eq_none_iff.mp hfind

theorem readBack_some {users : List UserRecord} {name : Str} {i : ℕ} {u : UserRecord}
    (h : findUserLocked users name = some (i, u)) :
    ∃ j, findUserLocked (readBack users) name = some (j, u.reread) := by
  have hfind := readBack_find users name
  rw [h] at hfind
  obtain ⟨e, he, hu⟩ := Option.map_eq_some_iff.mp hfind
  exact ⟨e.1, he.trans (congrArg some (Prod.ext rfl hu))⟩

theorem reread_admin {u : UserRecord} (h : u.reread.role = .admin) : u.role = .admin := by
  have hother : smRoleFromStr (lit "UNKNOWN") ≠ .admin := by decide
  simp only [UserRecord.reread] at h
  cases hrole : u.role with
  | admin => rfl
  | other code =>
    rw [hrole] at h
    exact absurd h hother
  | _ =>
    rw [hrole] at h
    exact absurd h (by decide)

/-! ### Facts that a restart keeps -/

/-- A fact about the table that holds of what is read back from it. -/
def Rereads (Q : List UserRecord → Prop) : Prop := ∀ users, Q users → Q (readBack users)

/-- `auth_init` is only called to open the file at `path`, and can read it. -/
def AuthOp.Reopens (path : Str) : AuthOp → Prop
  | .init (some p) input => p = path ∧ input.readOk = true
  | _ => True

/-- The fact holds of the table, and of what a restart finds at `path`. -/
structure Lasting (Q : List UserRecord → Prop) (path : Str) (s : AuthState) : Prop where
  accounts : AccountsInv s.users
  table : Q s.users
  atPath : s.usersPath.chars = path
  file : ∃ content, s.disk.files path = some content ∧ ∀ stale, Q (loadUsersLocked stale content)

section Lasting

variable {Q : List UserRecord → Prop} {path : Str} {s : AuthState}

theorem Lasting.of_save (hQ : Rereads Q) {io : UserIo} (hok : (s.save io).1 = .ok)
    (haccounts : AccountsInv s.users) (htable : Q s.users) :
    Lasting Q s.usersPath.chars (s.save io).2 := by
  obtain ⟨content, hfile, hread⟩ := AuthState.save_reads hok haccounts
  refine ⟨haccounts, htable, rfl, content, hfile, fun stale => ?_⟩
  rw [hread stale]
  exact hQ _ htable

/-- A section keeps the fact if it keeps it of the table; a restart keeps it. -/
theorem Lasting.step (h : Lasting Q path s) (hQ : Rereads Q) {op : AuthOp} (htime : op.InTime)
    (hop : op.Reopens path) (htable : op.path = none → Q (authStep s op).1.users) :
    Lasting Q path (authStep s op).1 := by
  have haccounts : AccountsInv (authStep s op).1.users := h.accounts.step htime
  obtain ⟨content, hfile, hread⟩ := h.file
  cases hpath : op.path with
  | none =>
    have hsame : (authStep s op).1.usersPath = s.usersPath := by
      rw [authStep_path, hpath]
      rfl
    refine ⟨haccounts, htable hpath, hsame ▸ h.atPath, ?_⟩
    have hfrom := authStep_file s hpath
    rw [FileFrom, h.atPath] at hfrom
    rcases hfrom with he | he
    · exact ⟨content, he.trans hfile, hread⟩
    · refine ⟨_, he, fun stale => ?_⟩
      rw [loadUsersLocked_saved stale haccounts.good haccounts.room]
      exact hQ _ (htable hpath)
  | some p =>
    cases op with
    | init p' input =>
      cases hpath
      obtain ⟨rfl, hok⟩ := hop
      obtain ⟨hdisk, husers⟩ := authInit_read hfile hok
      have hlen : p.length ≤ 511 := h.atPath ▸ s.usersPath.fits
      refine ⟨haccounts, ?_, ?_, content, ?_, hread⟩
      · exact Eq.mpr (congrArg Q husers) (hread _)
      · rw [authStep_path]
        exact CharField.copy_chars hlen
      · exact (congrArg (fun d => d.files p) hdisk).trans hfile
    | _ => cases hpath

end Lasting

end SubscriberMgmt
