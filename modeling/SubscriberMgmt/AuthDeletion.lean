import SubscriberMgmt.AuthFile

/-!
# Deleted accounts (`auth.c:179-220, 349-357, 444-542, 763-777`)

`auth_delete_user` deletes the first live account whose stored name agrees with
the argument in 32 bytes. The loader does not look for a name that is there
already, as `auth_create_user` does.
-/

namespace SubscriberMgmt
open CText

/-! ### The table -/

/-- At most one live account has the name. -/
def OneNamed (users : List UserRecord) (name : Str) : Prop :=
  ∀ (i j : ℕ) (u v : UserRecord), users[i]? = some u → users[j]? = some v → u.inUse = true →
    v.inUse = true → u.username.chars = name → v.username.chars = name → i = j

/-- The live accounts of the name are gone, and the others are as they were. -/
structure DeletedExactly (users users' : List UserRecord) (name : Str) : Prop where
  gone : ∀ u ∈ users', u.inUse = true → u.username.chars ≠ name
  others : ∀ (i : ℕ) (u : UserRecord), users[i]? = some u → u.inUse = true →
    u.username.chars ≠ name → users'[i]? = some u

theorem authDeleteUser_ok {s : AuthState} {name : Str} {io : UserIo}
    (hok : (authDeleteUser s (some name) io).1 = .ok) :
    ∃ i u, findUserLocked s.users name = some (i, u) ∧
      authDeleteUser s (some name) io = (s.setUser i { u with inUse := false }).save io := by
  simp only [authDeleteUser] at hok ⊢
  cases hfind : findUserLocked s.users name with
  | none =>
    rw [hfind] at hok
    cases hok
  | some e => exact ⟨e.1, e.2, rfl, rfl⟩

theorem deletedExactly_iff {users : List UserRecord} {name : Str} {i : ℕ} {u : UserRecord}
    (hfind : findUserLocked users name = some (i, u)) :
    DeletedExactly users (users.set i { u with inUse := false }) name ↔
      name.length ≤ smAuthMaxUsername ∧ OneNamed users name := by
  obtain ⟨hu, huse, hchars⟩ := findUserLocked_some hfind
  obtain ⟨hlt, -⟩ := List.getElem?_eq_some_iff.mp hu
  have hself := List.getElem?_set_self (a := { u with inUse := false }) hlt
  constructor
  · intro h
    have hname : u.username.chars = name := by
      by_contra hne
      have hkept := h.others i u hu huse hne
      rw [hself, Option.some.injEq] at hkept
      have hoff : u.inUse = false := (congrArg UserRecord.inUse hkept).symm
      rw [huse] at hoff
      cases hoff
    have hfirst : ∀ (j : ℕ) (v : UserRecord), users[j]? = some v → v.inUse = true →
        v.username.chars = name → i = j := by
      intro j v hv hvuse hvname
      by_contra hij
      have hmem : v ∈ users.set i { u with inUse := false } :=
        List.mem_of_getElem? ((List.getElem?_set_ne hij).trans hv)
      exact h.gone v hmem hvuse hvname
    refine ⟨hname ▸ u.username.fits, fun j k v w hv hw hvuse hwuse hvname hwname => ?_⟩
    exact (hfirst j v hv hvuse hvname).symm.trans (hfirst k w hw hwuse hwname)
  · intro h
    obtain ⟨hlen, hone⟩ := h
    have hname : u.username.chars = name := by rw [hchars, List.take_of_length_le hlen]
    constructor
    · intro v hv hvuse hvname
      obtain ⟨j, hj⟩ := List.mem_iff_getElem?.mp hv
      by_cases hij : i = j
      · subst hij
        rw [hself, Option.some.injEq] at hj
        rw [← hj] at hvuse
        cases hvuse
      · rw [List.getElem?_set_ne hij] at hj
        exact hij (hone i j u v hu hj huse hvuse hname hvname)
    · intro j v hv hvuse hvname
      have hij : i ≠ j := by
        intro hij
        subst hij
        rw [hu, Option.some.injEq] at hv
        exact hvname (hv ▸ hname)
      rw [List.getElem?_set_ne hij, hv]

/-! ### Names in a run -/

theorem OneNamed.set {users : List UserRecord} {name : Str} (h : OneNamed users name) {i : ℕ}
    {u w : UserRecord} (hu : users[i]? = some u) (hname : w.username = u.username)
    (huse : w.inUse = true → u.inUse = true) : OneNamed (users.set i w) name := by
  obtain ⟨hlt, -⟩ := List.getElem?_eq_some_iff.mp hu
  -- each entry was an entry with that name before, and was in use if it is
  have before : ∀ (j : ℕ) (v : UserRecord), (users.set i w)[j]? = some v → v.inUse = true →
      ∃ v' : UserRecord, users[j]? = some v' ∧ v'.inUse = true ∧ v'.username = v.username := by
    intro j v hv hvuse
    by_cases hij : i = j
    · subst hij
      rw [List.getElem?_set_self hlt, Option.some.injEq] at hv
      subst hv
      exact ⟨u, hu, huse hvuse, hname.symm⟩
    · rw [List.getElem?_set_ne hij] at hv
      exact ⟨v, hv, hvuse, rfl⟩
  intro j k v v' hv hv' hvuse hvuse' hvname hvname'
  obtain ⟨x, hx, hxuse, hxname⟩ := before j v hv hvuse
  obtain ⟨y, hy, hyuse, hyname⟩ := before k v' hv' hvuse'
  exact h j k x y hx hy hxuse hyuse (hxname ▸ hvname) (hyname ▸ hvname')

theorem OneNamed.append {users : List UserRecord} {name : Str} (h : OneNamed users name)
    {w : UserRecord}
    (hnew : w.username.chars = name → ∀ u ∈ users, u.inUse = true → u.username.chars ≠ name) :
    OneNamed (users ++ [w]) name := by
  have cases_of : ∀ (j : ℕ) (v : UserRecord), (users ++ [w])[j]? = some v →
      users[j]? = some v ∨ j = users.length ∧ v = w := by
    intro j v hv
    rcases Nat.lt_trichotomy j users.length with hj | rfl | hj
    · rw [List.getElem?_append_left hj] at hv
      exact Or.inl hv
    · rw [List.getElem?_concat_length, Option.some.injEq] at hv
      exact Or.inr ⟨rfl, hv.symm⟩
    · rw [List.getElem?_eq_none (by rw [List.length_append, List.length_singleton]; omega)] at hv
      cases hv
  intro j k v v' hv hv' hvuse hvuse' hvname hvname'
  rcases cases_of j v hv with hold | ⟨rfl, rfl⟩
  · rcases cases_of k v' hv' with hold' | ⟨-, rfl⟩
    · exact h j k v v' hold hold' hvuse hvuse' hvname hvname'
    · exact absurd hvname (hnew hvname' v (List.mem_of_getElem? hold) hvuse)
  · rcases cases_of k v' hv' with hold' | ⟨rfl, -⟩
    · exact absurd hvname' (hnew hvname v' (List.mem_of_getElem? hold') hvuse')
    · rfl

/-- The accounts that an `auth_init` loads have each name once. -/
def LoadsOnce (name : Str) (s : AuthState) : AuthOp → Prop
  | .init (some path) input =>
    ∀ users, readUsers s.disk.files path input = some users → OneNamed users name
  | _ => True

theorem OneNamed.seeded (name : Str) (adminSalt : Salt) (operator viewer : SeedDraw) :
    OneNamed (seedDefaultUsersLocked adminSalt operator viewer) name := by
  intro i j u v hu hv _ _ hname hname'
  have hnames : ((seedDefaultUsersLocked adminSalt operator viewer).map fun u =>
      u.username.chars) = [lit "admin", lit "operator", lit "viewer"] := rfl
  have hnodup : ((seedDefaultUsersLocked adminSalt operator viewer).map fun u =>
      u.username.chars).Nodup := hnames ▸ by decide
  have hi : ((seedDefaultUsersLocked adminSalt operator viewer).map fun u =>
      u.username.chars)[i]? = some name := by rw [List.getElem?_map, hu, ← hname]; rfl
  have hj : ((seedDefaultUsersLocked adminSalt operator viewer).map fun u =>
      u.username.chars)[j]? = some name := by rw [List.getElem?_map, hv, ← hname']; rfl
  exact (List.getElem?_inj (List.getElem?_eq_some_iff.mp hi).1 hnodup).mp (hi.trans hj.symm)

theorem OneNamed.step {s : AuthState} {name : Str} (h : OneNamed s.users name) {op : AuthOp}
    (hop : LoadsOnce name s op) : OneNamed (authStep s op).1.users name := by
  have ht := authStep_users s op
  have written : ∀ {n i u} {v : UserRecord}, findUserLocked s.users n = some (i, u) →
      v.username = u.username → OneNamed (s.users.set i v) name := fun hfind hname =>
    h.set (findUserLocked_some hfind).1 hname fun _ => (findUserLocked_some hfind).2.1
  generalize (authStep s op).1.users = users at ht
  cases ht with
  | same => exact h
  | loaded hread => exact hop _ hread
  | seeded => exact .seeded name _ _ _
  | failed hfind => exact written hfind rfl
  | accepted hfind => exact written hfind rfl
  | recovered hfind => exact written hfind rfl
  | rewritten hfind => exact written hfind rfl
  | deleted hfind => exact written hfind rfl
  | @created username password role salt io hname hrole hnew hroom =>
    refine h.append fun hw u hu huse huname => ?_
    have hno := findUserLocked_none_iff.mp hnew u hu
    have hcopy : (CharField.copy smAuthMaxUsername username).chars =
        username.take smAuthMaxUsername := rfl
    rw [UserRecord.answers_iff.mpr ⟨huse, huname.trans (hw.symm.trans hcopy)⟩] at hno
    cases hno

theorem oneNamed_run (files : Str → Option Str) {name : Str} {ops : List AuthOp}
    (h : Machine.Along authStep (LoadsOnce name) (AuthState.start files) ops) :
    OneNamed (authRun files ops).users name :=
  h.invariant (P := fun s : AuthState => OneNamed s.users name) (fun _ _ hs hop => hs.step hop)
    fun i j u v hu => by cases hu

/-! ### While the name is gone -/

/-- What may happen while the account is gone: no account of that name is created,
and `auth_init` is only called to open the same file again. -/
def AuthOp.LeavesGone (name path : Str) : AuthOp → Prop
  | .init (some p) input => p = path ∧ input.readOk = true
  | .createUser (some username) _ _ _ _ => username ≠ name
  | _ => True

/-- No account of the name is in the table, nor in the file that a restart reads. -/
def Gone (name path : Str) (s : AuthState) : Prop :=
  Lasting (fun users => findUserLocked users name = none) path s

section Gone

variable {name path : Str} {s : AuthState}

theorem absent_set {users : List UserRecord} (h : ∀ u ∈ users, u.answers name = false) {n : Str}
    {i : ℕ} {u v : UserRecord} (hfind : findUserLocked users n = some (i, u))
    (hname : v.username = u.username) : ∀ w ∈ users.set i v, w.answers name = false := by
  intro w hw
  rcases List.mem_or_eq_of_mem_set hw with hw | rfl
  · exact h w hw
  · obtain ⟨hget, huse, -⟩ := findUserLocked_some hfind
    have hu := h u (List.mem_of_getElem? hget)
    rw [← Bool.not_eq_true, UserRecord.answers_iff] at hu ⊢
    exact fun hw => hu ⟨huse, hname ▸ hw.2⟩

theorem absent_step (h : ∀ u ∈ s.users, u.answers name = false)
    (hname : name.length ≤ smAuthMaxUsername) {op : AuthOp} (hpath : op.path = none)
    (hop : op.LeavesGone name path) : ∀ u ∈ (authStep s op).1.users, u.answers name = false := by
  have ht := authStep_users s op
  generalize (authStep s op).1.users = users at ht
  cases ht with
  | same => exact h
  | loaded => cases hpath
  | seeded => cases hpath
  | failed hfind => exact absent_set h hfind rfl
  | accepted hfind => exact absent_set h hfind rfl
  | recovered hfind => exact absent_set h hfind rfl
  | rewritten hfind => exact absent_set h hfind rfl
  | deleted hfind => exact absent_set h hfind rfl
  | @created username password role salt io hvalid hrole hnew hroom =>
    intro u hu
    rcases List.mem_append.mp hu with hu | hu
    · exact h u hu
    · rw [List.mem_singleton.mp hu, ← Bool.not_eq_true, UserRecord.answers_iff,
        List.take_of_length_le hname]
      exact fun hu => hop ((CharField.copy_chars (validUsername_fits hvalid)).symm.trans hu.2)

theorem AuthOp.LeavesGone.reopens {op : AuthOp} (h : op.LeavesGone name path) :
    op.Reopens path := by
  cases op with
  | init p input => cases p <;> exact h
  | _ => trivial

theorem Gone.step (h : Gone name path s) (hname : name.length ≤ smAuthMaxUsername) {op : AuthOp}
    (htime : op.InTime) (hop : op.LeavesGone name path) : Gone name path (authStep s op).1 := by
  refine Lasting.step h (fun _ => readBack_none) htime hop.reopens fun hpath => ?_
  exact findUserLocked_none_iff.mpr
    (absent_step (findUserLocked_none_iff.mp h.table) hname hpath hop)

theorem Gone.login_notFound (h : Gone name path s) (password : Str) (input : LoginInput) :
    (authLogin s (some name) (some password) true input).1 = .error .errNotFound := by
  simp only [authLogin, SubscriberMgmt.checkCredentials, h.table]

end Gone

/-! ### A deletion in a run -/

/-- What a deletion promises: the table, and that the name finds no account in any
later run, restarts from the file of the accounts included. -/
structure DeletionExact (s s' : AuthState) (name : Str) : Prop where
  table : DeletedExactly s.users s'.users name
  refused : ∀ later : List AuthOp,
    (∀ op ∈ later, op.InTime ∧ op.LeavesGone name s.usersPath.chars) →
    ∀ password input,
      (authLogin (Machine.final authStep s' later) (some name) (some password) true input).1 =
        .error .errNotFound

theorem gone_of_deleted {s : AuthState} (haccounts : AccountsInv s.users) {name : Str} {io : UserIo}
    (hok : (authDeleteUser s (some name) io).1 = .ok) (hname : name.length ≤ smAuthMaxUsername)
    (hgone : ∀ u ∈ (authDeleteUser s (some name) io).2.users, u.inUse = true →
      u.username.chars ≠ name) :
    Gone name s.usersPath.chars (authDeleteUser s (some name) io).2 := by
  have hinv : AccountsInv (authDeleteUser s (some name) io).2.users :=
    @AccountsInv.step s haccounts (.deleteUser (some name) io) trivial
  have habsent : findUserLocked (authDeleteUser s (some name) io).2.users name = none := by
    refine findUserLocked_none_iff.mpr fun v hv => ?_
    rw [← Bool.not_eq_true, UserRecord.answers_iff, List.take_of_length_le hname]
    exact fun hans => hgone v hv hans.1 hans.2
  obtain ⟨i, u, -, he⟩ := authDeleteUser_ok hok
  rw [he] at hok hinv habsent ⊢
  exact Lasting.of_save (Q := fun users => findUserLocked users name = none)
    (fun _ => readBack_none) hok hinv habsent

/-- A deletion that succeeds is exact when the name fits and is the name of one live
account only, and not otherwise. The second holds as long as every file that was
loaded has the name once. -/
theorem deletion_exact_iff (files : Str → Option Str) (ops : List AuthOp)
    (htime : ∀ op ∈ ops, op.InTime) (name : Str) (io : UserIo)
    (hok : (authDeleteUser (authRun files ops) (some name) io).1 = .ok) :
    (DeletionExact (authRun files ops) (authDeleteUser (authRun files ops) (some name) io).2 name ↔
      name.length ≤ smAuthMaxUsername ∧ OneNamed (authRun files ops).users name) ∧
    (Machine.Along authStep (LoadsOnce name) (AuthState.start files) ops →
      OneNamed (authRun files ops).users name) := by
  refine ⟨?_, oneNamed_run files⟩
  have haccounts := authRun_accounts files htime
  generalize authRun files ops = s at hok haccounts ⊢
  obtain ⟨i, u, hfind, he⟩ := authDeleteUser_ok hok
  have hiff : DeletedExactly s.users (authDeleteUser s (some name) io).2.users name ↔
      name.length ≤ smAuthMaxUsername ∧ OneNamed s.users name := by
    rw [he]
    exact deletedExactly_iff hfind
  constructor
  · exact fun h => hiff.mp h.table
  · intro h
    have htable := hiff.mpr h
    refine ⟨htable, fun later hlater password input => ?_⟩
    have hgone := Machine.final_keeps
      (fun t op (ht : Gone name s.usersPath.chars t) hop => ht.step h.1 hop.1 hop.2)
      (gone_of_deleted haccounts hok h.1 htable.gone) hlater
    exact hgone.login_notFound password input

theorem deletion_exact_iff_admin :
    let s := authRun (adminFile 48 (lit "0")) [adminInit]
    (DeletionExact s (authDeleteUser s (some (lit "admin")) UserIo.all).2 (lit "admin") ↔
      (lit "admin").length ≤ smAuthMaxUsername ∧ OneNamed s.users (lit "admin")) ∧
    (Machine.Along authStep (LoadsOnce (lit "admin")) (AuthState.start (adminFile 48 (lit "0")))
        [adminInit] → OneNamed s.users (lit "admin")) :=
  deletion_exact_iff (adminFile 48 (lit "0")) [adminInit]
    (fun op hop => by rw [List.mem_singleton.mp hop]; trivial) (lit "admin") UserIo.all
    (by
      rw [authRun_adminInit adminFile_loads]
      rfl)

/-- A file with the account "op" on two lines. -/
def twiceFile : Str → Option Str := fun path =>
  if path = lit "u.csv" then
    let line := lit "op," ++ List.replicate 32 48 ++ comma :: List.replicate 64 48 ++
      lit ",ADMIN,0,0" ++ [newline]
    some (line ++ line)
  else none

def twiceRecord : UserRecord :=
  ⟨true, CharField.copy _ (lit "op"), Vector.replicate _ 0, Vector.replicate _ 0, .admin, 0, 0⟩

theorem twiceFile_loads : (twiceFile (lit "u.csv")).map (loadUsersLocked fun _ => ([], [])) =
    some [twiceRecord, twiceRecord] := by decide +kernel

/-- The second line of a name logs in after the deletion, and a name of 33 bytes
deletes the account of the first 32. -/
theorem deletion_inexact :
    (let s := authRun twiceFile [adminInit]
     let r := authDeleteUser s (some (lit "op")) UserIo.all
     r.1 = .ok ∧
       (authLogin r.2 (some (lit "op")) (some (lit "x")) true (zeroLogin 0)).1.isOk = true ∧
       ¬ DeletionExact s r.2 (lit "op")) ∧
    (let s := authRun longNameFile [adminInit]
     let r := authDeleteUser s (some (List.replicate 33 97)) UserIo.all
     r.1 = .ok ∧ ¬ DeletionExact s r.2 (List.replicate 33 97)) := by
  constructor
  · have hlogin : (authLogin (authDeleteUser (authRun twiceFile [adminInit]) (some (lit "op"))
        UserIo.all).2 (some (lit "op")) (some (lit "x")) true (zeroLogin 0)).1.isOk = true := by
      rw [authRun_adminInit twiceFile_loads]
      rfl
    refine ⟨?_, hlogin, fun h => ?_⟩
    · rw [authRun_adminInit twiceFile_loads]
      rfl
    have hrefused := h.refused [] (fun op hop => by cases hop) (lit "x") (zeroLogin 0)
    rw [Machine.final_nil] at hrefused
    rw [hrefused] at hlogin
    cases hlogin
  · have hok : (authDeleteUser (authRun longNameFile [adminInit]) (some (List.replicate 33 97))
        UserIo.all).1 = .ok := by
      rw [authRun_adminInit longNameFile_loads]
      rfl
    refine ⟨hok, fun h => ?_⟩
    obtain ⟨i, u, hfind, he⟩ := authDeleteUser_ok hok
    have htable := h.table
    rw [he] at htable
    have hlen := ((deletedExactly_iff hfind).mp htable).1
    exact absurd hlen (by decide)

end SubscriberMgmt
