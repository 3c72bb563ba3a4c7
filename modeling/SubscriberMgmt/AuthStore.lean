import SubscriberMgmt.Sha256
import SubscriberMgmt.Lib.Disk

/-!
# Accounts and the credential file (`auth.c:22-357`)

Random bytes and the outcomes of the file operations are inputs. The POSIX
branch of `save_users_locked` is modelled.
-/

namespace SubscriberMgmt
open CText

def smAuthMaxUsername : ℕ := 32
def smAuthSaltBytes : ℕ := 16
def smAuthHashIterations : ℕ := 100000
def smAuthTokenBytes : ℕ := 32
def smAuthMaxAttempts : UInt32 := 5
def smAuthLockoutSeconds : ℤ := 300
def smAuthSessionSeconds : ℤ := 1800
def smAuthMaxUsers : ℕ := 256
def smAuthMaxSessions : ℕ := 128

/-- `sm_role_t`; `other` is a value outside the enumerators, which
`auth_create_user` does not refuse. -/
inductive SmRole where
  | admin
  | operator
  | viewer
  | unknown
  | other (code : ℕ)
  deriving DecidableEq, Repr

def smRoleToStr : SmRole → Str
  | .admin => lit "ADMIN"
  | .operator => lit "OPERATOR"
  | .viewer => lit "VIEWER"
  | _ => lit "UNKNOWN"

def smRoleFromStr (s : Str) : SmRole :=
  if s = lit "ADMIN" then .admin
  else if s = lit "OPERATOR" then .operator
  else if s = lit "VIEWER" then .viewer
  else .unknown

abbrev Salt := Vector UInt8 smAuthSaltBytes

structure UserRecord where
  inUse : Bool
  username : CharField smAuthMaxUsername
  salt : Salt
  hash : Digest
  role : SmRole
  failedAttempts : UInt32
  lockedUntil : ℤ
  deriving DecidableEq

/-! ### Passwords -/

/-- `hash_password`: SHA-256 iterated on the salt and the first 200 bytes of
the password. -/
@[irreducible]
def hashPassword (salt : Salt) (password : Str) : Digest :=
  (fun out : Digest => smSha256 out.toList)^[smAuthHashIterations - 1]
    (smSha256 (salt.toList ++ password.take 200))

def consttimeEq {n : ℕ} (a b : Vector UInt8 n) : Bool :=
  (a.toList.zip b.toList).foldl (fun diff p => diff ||| (p.1 ^^^ p.2)) 0 == 0

/-! ### Reading the credential file -/

/-- `line[strcspn(line, "\r\n")] = '\0'` -/
def cutLine (piece : Str) : Str :=
  (cString piece).takeWhile fun c => c != carriageReturn && c != newline

def scanCredential (line : Str) : Option (Str × Str × Str × Str × ℕ × ℤ) := do
  let (username, s) ← scanSet 32 (· != comma) line
  let s ← scanChar comma s
  let (saltHex, s) ← scanSet 32 (· != comma) s
  let s ← scanChar comma s
  let (hashHex, s) ← scanSet 64 (· != comma) s
  let s ← scanChar comma s
  let (roleStr, s) ← scanSet 15 (· != comma) s
  let s ← scanChar comma s
  let (failedAttempts, s) ← scanUInt 32 s
  let s ← scanChar comma s
  let (lockedUntil, _) ← scanInt (-2 ^ 63) (2 ^ 63 - 1) s
  return (username, saltHex, hashHex, roleStr, failedAttempts, lockedUntil)

/-- The account of a line, if it is not empty, a comment or malformed. `stale`
is what stands behind the NUL in `salt_hex` and in `hash_hex`. -/
def credentialLine (piece : Str) (stale : Str × Str) : Option UserRecord :=
  let line := cutLine piece
  if line.isEmpty || line.head? == some 35 then none
  else do
    let (username, saltHex, hashHex, roleStr, failedAttempts, lockedUntil) ← scanCredential line
    let salt ← smHexDecode (saltHex ++ 0 :: stale.1) smAuthSaltBytes
    let hash ← smHexDecode (hashHex ++ 0 :: stale.2) 32
    return ⟨true, CharField.copy _ username, salt, hash, smRoleFromStr roleStr,
      UInt32.ofNat failedAttempts, lockedUntil⟩

/-- The loop of `load_users_locked`; `stale i` belongs to the `i`-th line. -/
def loadUsers (stale : ℕ → Str × Str) (i : ℕ) (users : List UserRecord) :
    List Str → List UserRecord
  | [] => users
  | piece :: pieces =>
    if users.length < smAuthMaxUsers then
      loadUsers stale (i + 1) (users ++ (credentialLine piece (stale i)).toList) pieces
    else users

def loadUsersLocked (stale : ℕ → Str × Str) (content : Str) : List UserRecord :=
  loadUsers stale 0 [] (fgetsAll (smMaxLineLen - 2) content)

/-! ### Writing the credential file -/

def credentialHeader : Str :=
  lit "# username,salt_hex,hash_hex,role,failed_attempts,locked_until\n"

def userLine (u : UserRecord) : Str :=
  u.username.chars ++ comma :: (smHexEncode u.salt.toList ++ comma ::
    (smHexEncode u.hash.toList ++ comma :: (smRoleToStr u.role ++ comma ::
    (decimal u.failedAttempts.toNat ++ comma :: (signedDecimal u.lockedUntil ++ [newline])))))

/-- Outcomes of the file operations of one `save_users_locked`. `mkdirOk` also
when the directory exists. -/
structure UserIo where
  mkdirOk : Bool
  openOk : Bool
  header : WriteOutcome
  lines : ℕ → WriteOutcome
  flush : WriteOutcome
  close : WriteOutcome
  renameOk : Bool
  cleanupOk : Bool

def UserIo.all : UserIo :=
  ⟨true, true, ⟨true, 0⟩, fun _ => ⟨true, 0⟩, ⟨true, 0⟩, ⟨true, 0⟩, true, true⟩

def dirPart (path : Str) : Option Str :=
  match path.reverse.dropWhile fun c => c != 47 && c != 92 with
  | [] => none
  | _ :: dir => some dir.reverse

/-- A `mkdir` is made when there is a directory part that fits `dir_buf`. -/
def makesDir (path : Str) : Bool :=
  match dirPart path with
  | none => false
  | some dir => decide (dir.length < 512)

def usersTmpPath (path : Str) : Str := (path ++ lit ".tmp").take 559

def userLines (users : List UserRecord) : List Str :=
  (users.filter UserRecord.inUse).map userLine

def writeUsers (fp : OutStream Str) (io : UserIo) (users : List UserRecord) : Bool × Disk Str :=
  let h := fp.write io.header credentialHeader
  let w := if h.1 then h.2.writeAll io.lines (userLines users) else h
  let f := w.2.flush io.flush
  let c := f.2.flush io.close
  (w.1 && f.1 && c.1, c.2.disk)

def saveUsersLocked (users : List UserRecord) (path : Str) (io : UserIo) (d : Disk Str) :
    SmStatus × Disk Str :=
  if path.isEmpty then (.errNullParam, d)
  else if makesDir path && !io.mkdirOk then (.errIo, d)
  else
    let tmp := usersTmpPath path
    match d.openWrite io.openOk tmp with
    | none => (.errIo, d)
    | some fp =>
      match writeUsers fp io users with
      | (false, d) => (.errIo, (d.remove io.cleanupOk tmp).2)
      | (true, d) =>
        match d.rename io.renameOk tmp path with
        | (false, d) => (.errIo, (d.remove io.cleanupOk tmp).2)
        | (true, d) => (.ok, d)

/-- The operations of a save all succeed; `n` is the number of live accounts. -/
def UserIo.Succeeds (io : UserIo) (path : Str) (n : ℕ) : Prop :=
  path ≠ [] ∧ (makesDir path = true → io.mkdirOk = true) ∧ io.openOk = true ∧
    io.header.ok = true ∧ (∀ i < n, (io.lines i).ok = true) ∧ io.flush.ok = true ∧
    io.close.ok = true ∧ io.renameOk = true

theorem writeUsers_ok_iff (fp : OutStream Str) (io : UserIo) (users : List UserRecord) :
    (writeUsers fp io users).1 = true ↔
      io.header.ok = true ∧ (∀ i < (userLines users).length, (io.lines i).ok = true) ∧
        io.flush.ok = true ∧ io.close.ok = true := by
  have hflush : ∀ (f : OutStream Str) (o : WriteOutcome), (f.flush o).1 = o.ok := by
    intro f o
    unfold OutStream.flush
    cases o.ok <;> rfl
  simp only [writeUsers, hflush, Bool.and_eq_true, and_assoc]
  have hw : (fp.write io.header credentialHeader).1 = io.header.ok := rfl
  cases hh : io.header.ok with
  | false => simp [hw, hh]
  | true => simp [hw, hh, OutStream.writeAll_ok_iff]

def credentialFile (users : List UserRecord) : Str := credentialHeader ++ (userLines users).flatten

theorem writeUsers_content (fp : OutStream Str) (io : UserIo) (users : List UserRecord)
    (hok : (writeUsers fp io users).1 = true) :
    (writeUsers fp io users).2.files fp.path = some (fp.text ++ credentialFile users) := by
  obtain ⟨hh, hl, hf, hc⟩ := (writeUsers_ok_iff fp io users).mp hok
  have hw : (fp.write io.header credentialHeader).1 = io.header.ok := rfl
  simp only [writeUsers, hw, hh, if_true]
  have htext := OutStream.writeAll_text (f := (fp.write io.header credentialHeader).2)
    ((OutStream.writeAll_ok_iff _ io.lines (userLines users)).mpr hl)
  rw [OutStream.write_text] at htext
  have hpath :
      ((fp.write io.header credentialHeader).2.writeAll io.lines (userLines users)).2.path =
        fp.path := OutStream.writeAll_path _ _ _
  generalize ((fp.write io.header credentialHeader).2.writeAll io.lines (userLines users)).2 = w
    at htext hpath
  obtain ⟨hfile, hempty⟩ := OutStream.flush_file (f := w) hf
  have hlast := OutStream.flush_empty (f := (w.flush io.flush).2) hempty
    (by rw [OutStream.flush_path]; exact hfile) io.close
  rw [OutStream.flush_path, hpath, htext] at hlast
  rw [hlast, credentialFile, List.append_assoc]

/-- The stream of a save before anything is written. -/
def usersStream (d : Disk Str) (path : Str) : OutStream Str :=
  ⟨d.set (usersTmpPath path) (some []), usersTmpPath path, []⟩

/-- A save does not get to its file, fails with it and removes it, or moves it to
the path. -/
inductive SaveUsersCase (users : List UserRecord) (path : Str) (io : UserIo) (d : Disk Str) :
    SmStatus × Disk Str → Prop
  | notOpened {st : SmStatus} (hst : st ≠ .ok)
      (hio : ¬ io.Succeeds path (userLines users).length) : SaveUsersCase users path io d (st, d)
  | failed (hio : ¬ io.Succeeds path (userLines users).length) :
      SaveUsersCase users path io d (.errIo, ((writeUsers (usersStream d path) io users).2.remove
        io.cleanupOk (usersTmpPath path)).2)
  | replaced {d' : Disk Str} (hio : io.Succeeds path (userLines users).length)
      (hw : writeUsers (usersStream d path) io users = (true, d')) :
      SaveUsersCase users path io d
        (.ok, ⟨Function.update (Function.update d'.files (usersTmpPath path) none) path
          (some (credentialFile users)), d'.files :: d'.past⟩)

theorem saveUsersLocked_cases (users : List UserRecord) (path : Str) (io : UserIo)
    (d : Disk Str) : SaveUsersCase users path io d (saveUsersLocked users path io d) := by
  unfold saveUsersLocked
  split
  case isTrue hpath => exact .notOpened (by decide) fun h => h.1 (List.isEmpty_iff.mp hpath)
  case isFalse hpath =>
    split
    case isTrue hmk =>
      simp only [Bool.and_eq_true, Bool.not_eq_true'] at hmk
      refine .notOpened (by decide) fun h => ?_
      rw [h.2.1 hmk.1] at hmk
      cases hmk.2
    case isFalse hmk =>
      cases ho : io.openOk with
      | false =>
        refine .notOpened (by decide) fun h => ?_
        rw [h.2.2.1] at ho
        cases ho
      | true =>
        simp only [Disk.openWrite, if_true]
        have hok := writeUsers_ok_iff (usersStream d path) io users
        have hfile := writeUsers_content (usersStream d path) io users
        have hempty : (usersStream d path).text = [] := by
          simp [OutStream.text, Disk.set, usersStream]
        rw [hempty, List.nil_append] at hfile
        have hfailed := @SaveUsersCase.failed users path io d
        have hreplaced := @SaveUsersCase.replaced users path io d
        simp only [usersStream] at hok hfile hfailed hreplaced ⊢
        generalize writeUsers ⟨d.set (usersTmpPath path) (some []), usersTmpPath path, []⟩ io users
          = r at hok hfile hfailed hreplaced ⊢
        obtain ⟨ok, d'⟩ := r
        cases ok with
        | false =>
          exact hfailed fun h => Bool.false_ne_true
            (hok.mpr ⟨h.2.2.2.1, h.2.2.2.2.1, h.2.2.2.2.2.1, h.2.2.2.2.2.2.1⟩)
        | true =>
          have hcontent := hfile rfl
          obtain ⟨h1, h2, h3, h4⟩ := hok.mp rfl
          dsimp only at hcontent
          simp only [Disk.rename, hcontent]
          cases hr : io.renameOk with
          | false =>
            refine hfailed fun h => ?_
            rw [h.2.2.2.2.2.2.2] at hr
            cases hr
          | true =>
            refine hreplaced ⟨fun he => hpath (List.isEmpty_iff.mpr he), fun hdir => ?_, ho, h1, h2,
              h3, h4, hr⟩ rfl
            rw [hdir] at hmk
            simpa using hmk

theorem saveUsersLocked_ok_iff (users : List UserRecord) (path : Str) (io : UserIo)
    (d : Disk Str) :
    (saveUsersLocked users path io d).1 = .ok ↔ io.Succeeds path (userLines users).length := by
  have hcase := saveUsersLocked_cases users path io d
  generalize saveUsersLocked users path io d = r at hcase ⊢
  cases hcase with
  | notOpened hst hio => exact iff_of_false hst hio
  | failed hio => exact iff_of_false (fun h => by cases h) hio
  | replaced hio => exact iff_of_true rfl hio

/-- A save that succeeds leaves the header and one line for each live account. -/
theorem saveUsersLocked_written {users : List UserRecord} {path : Str} {io : UserIo}
    {d : Disk Str} (hok : (saveUsersLocked users path io d).1 = .ok) :
    (saveUsersLocked users path io d).2.files path = some (credentialFile users) := by
  have hcase := saveUsersLocked_cases users path io d
  generalize saveUsersLocked users path io d = r at hcase hok ⊢
  cases hcase with
  | notOpened hst => exact absurd hok hst
  | failed => cases hok
  | replaced => exact Function.update_self ..

theorem writeUsers_steady {d : Disk Str} {q path : Str} {old : Option Str} (h : d.Steady q old)
    (htmp : q ≠ usersTmpPath path) (io : UserIo) (users : List UserRecord) :
    (writeUsers (usersStream d path) io users).2.Steady q old := by
  have hopen : (d.set (usersTmpPath path) (some [])).Steady q old := h.set htmp
  have hhead := OutStream.write_steady (f := usersStream d path) hopen htmp io.header
    credentialHeader
  simp only [writeUsers]
  split
  · have hlines := OutStream.writeAll_steady hhead htmp io.lines (userLines users)
    refine OutStream.flush_steady (OutStream.flush_steady hlines ?_ _) ?_ _
    · rw [OutStream.writeAll_path]
      exact htmp
    · rw [OutStream.flush_path, OutStream.writeAll_path]
      exact htmp
  · refine OutStream.flush_steady (OutStream.flush_steady hhead htmp _) ?_ _
    rw [OutStream.flush_path]
    exact htmp

/-- A save touches its path and the temporary one. -/
theorem saveUsersLocked_steady {d : Disk Str} {q path : Str} {old : Option Str}
    (h : d.Steady q old) (hpath : q ≠ path) (htmp : q ≠ usersTmpPath path)
    (users : List UserRecord) (io : UserIo) :
    (saveUsersLocked users path io d).2.Steady q old := by
  have hwrite := writeUsers_steady h htmp io users
  have hcase := saveUsersLocked_cases users path io d
  generalize saveUsersLocked users path io d = r at hcase ⊢
  cases hcase with
  | notOpened => exact h
  | failed => exact Disk.Steady.remove hwrite htmp _
  | replaced hio hw =>
    rw [hw] at hwrite
    intro m hm
    rcases List.mem_cons.mp hm with rfl | hm
    · dsimp only
      rw [Function.update_of_ne hpath, Function.update_of_ne htmp]
      exact hwrite.now
    · exact hwrite m hm

/-! ### Replacing the file -/

theorem usersTmpPath_ne {path : Str} (hlen : path.length < 512) : path ≠ usersTmpPath path := by
  intro he
  have htmp := congrArg List.length he
  have hext : (lit ".tmp").length = 4 := rfl
  rw [usersTmpPath, List.length_take, List.length_append, hext] at htmp
  omega

/-- After a save the path has the content that it had, or the new one. -/
theorem saveUsersLocked_files (users : List UserRecord) {path : Str} (hlen : path.length < 512)
    (io : UserIo) (d : Disk Str) :
    (saveUsersLocked users path io d).2.files path = d.files path ∨
      (saveUsersLocked users path io d).2.files path = some (credentialFile users) := by
  have htmp := usersTmpPath_ne hlen
  have hwrite : (writeUsers (usersStream d path) io users).2.files path = d.files path := by
    have hopen : (usersStream d path).disk.files path = d.files path :=
      Function.update_of_ne htmp _ _
    have hhead : ((usersStream d path).write io.header credentialHeader).2.disk.files path =
        d.files path := (OutStream.write_files htmp _ _).trans hopen
    simp only [writeUsers]
    split
    · rw [OutStream.flush_files, OutStream.flush_files, OutStream.writeAll_files, hhead]
      · exact htmp
      · rwa [OutStream.writeAll_path]
      · rwa [OutStream.flush_path, OutStream.writeAll_path]
    · rw [OutStream.flush_files, OutStream.flush_files, hhead]
      · exact htmp
      · rwa [OutStream.flush_path]
  have hcase := saveUsersLocked_cases users path io d
  generalize saveUsersLocked users path io d = r at hcase ⊢
  cases hcase with
  | notOpened => exact Or.inl rfl
  | failed => exact Or.inl ((Disk.remove_files htmp _).trans hwrite)
  | replaced => exact Or.inr (Function.update_self ..)

/-- When every operation up to the rename succeeds, SM_OK is returned, and the path goes
from its old content to the new one in one moment, the last. When one fails, SM_OK is
not returned and the path has its old content at every moment. -/
theorem saveUsersLocked_atomic (users : List UserRecord) {path : Str} (hlen : path.length < 512)
    (io : UserIo) (files : Str → Option Str) :
    let r := saveUsersLocked users path io (Disk.start files)
    (io.Succeeds path (userLines users).length → r.1 = .ok ∧
        r.2.files path = some (credentialFile users) ∧ ∀ m ∈ r.2.past, m path = files path) ∧
      (¬ io.Succeeds path (userLines users).length → r.1 ≠ .ok ∧
        ∀ m ∈ r.2.moments, m path = files path) := by
  intro r
  have hstart := Disk.start_steady files path
  have htmp := usersTmpPath_ne hlen
  have hwrite := writeUsers_steady hstart htmp io users
  have hcase := saveUsersLocked_cases users path io (Disk.start files)
  simp only [r]
  generalize saveUsersLocked users path io (Disk.start files) = r at hcase ⊢
  cases hcase with
  | notOpened hst hio => exact ⟨fun h => absurd h hio, fun _ => ⟨hst, hstart⟩⟩
  | failed hio =>
    refine ⟨fun h => absurd h hio, fun _ => ⟨fun h => (by cases h), ?_⟩⟩
    exact Disk.Steady.remove hwrite htmp _
  | replaced hio hw =>
    rw [hw] at hwrite
    exact ⟨fun _ => ⟨rfl, Function.update_self .., hwrite⟩, fun h => absurd hio h⟩

/-- An account with a lock that is due, beside a deleted one. -/
def twoRecords : List UserRecord :=
  [⟨true, CharField.copy _ (lit "bob"), Vector.replicate _ 7, Vector.replicate _ 255, .operator, 5,
      300⟩,
    ⟨false, CharField.copy _ (lit "ann"), Vector.replicate _ 0, Vector.replicate _ 0, .operator, 0,
      0⟩]

/-- The old content is there until the new one replaces it; when the header cannot be written it
stays. -/
theorem saveUsersLocked_atomic_default :
    let path := lit "data/users.csv"
    let files := fun p => if p = path then some (lit "old\n") else none
    let r := saveUsersLocked twoRecords path UserIo.all (Disk.start files)
    let failed := saveUsersLocked twoRecords path { UserIo.all with header := ⟨false, 3⟩ }
      (Disk.start files)
    (r.1 = .ok ∧ (∀ m ∈ r.2.past, m path = some (lit "old\n")) ∧
        r.2.files path = some (credentialHeader ++ lit "bob," ++
          (List.replicate 16 (lit "07")).flatten ++ comma :: List.replicate 64 102 ++
            lit ",OPERATOR,5,300\n")) ∧
      failed.1 ≠ .ok ∧ ∀ m ∈ failed.2.moments, m path = some (lit "old\n") := by
  intro path files r failed
  have hlen : path.length < 512 := by decide
  have hgood : UserIo.all.Succeeds path (userLines twoRecords).length :=
    ⟨by decide, fun _ => rfl, rfl, rfl, fun _ _ => rfl, rfl, rfl, rfl⟩
  have hbad : ¬ ({ UserIo.all with header := ⟨false, 3⟩ } : UserIo).Succeeds path
      (userLines twoRecords).length := by
    intro h
    have hheader := h.2.2.2.1
    cases hheader
  have hnew : credentialFile twoRecords = credentialHeader ++ lit "bob," ++
      (List.replicate 16 (lit "07")).flatten ++ comma :: List.replicate 64 102 ++
        lit ",OPERATOR,5,300\n" := by decide +kernel
  obtain ⟨hok, hfile, hpast⟩ := (saveUsersLocked_atomic twoRecords hlen UserIo.all files).1 hgood
  rw [hnew] at hfile
  exact ⟨⟨hok, hpast, hfile⟩, (saveUsersLocked_atomic twoRecords hlen _ files).2 hbad⟩

end SubscriberMgmt
