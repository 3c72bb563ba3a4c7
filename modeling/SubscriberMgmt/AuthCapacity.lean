import SubscriberMgmt.AuthAccounts
import SubscriberMgmt.AuthReload

/-!
# Room for another account (`auth.c:349-357, 668-702, 763-777`)

`auth_create_user` counts the entries of the table that were ever used since
`auth_init`, and `auth_delete_user` leaves the entry of a deleted account behind.
-/

namespace SubscriberMgmt
open CText

/-! ### Entries and live accounts -/

/-- All entries are live accounts exactly if none was deleted. -/
theorem liveAccounts_full_iff (users : List UserRecord) :
    users.length ≤ (liveAccounts users).length ↔ ∀ u ∈ users, u.inUse = true := by
  rw [liveAccounts, List.length_map, ← List.length_filter_eq_length_iff]
  have hle := List.length_filter_le UserRecord.inUse users
  omega

theorem length_step {s : AuthState} (h : s.users.length ≤ smAuthMaxUsers) (op : AuthOp) :
    (authStep s op).1.users.length ≤ smAuthMaxUsers := by
  have ht := authStep_users s op
  generalize (authStep s op).1.users = users at ht
  cases ht with
  | same => exact h
  | loaded hread =>
    unfold readUsers at hread
    split at hread
    case isFalse => cases hread
    case isTrue =>
      obtain ⟨content, -, rfl⟩ := Option.map_eq_some_iff.mp hread
      exact (loadUsers_good _ 0 _ (fun u hu => absurd hu List.not_mem_nil) (Nat.zero_le _)).2
  | seeded => exact (show 3 ≤ smAuthMaxUsers by decide)
  | created hname hrole hnew hroom =>
    rw [List.length_append, List.length_singleton]
    exact hroom
  | failed => rwa [List.length_set]
  | accepted => rwa [List.length_set]
  | recovered => rwa [List.length_set]
  | rewritten => rwa [List.length_set]
  | deleted => rwa [List.length_set]

theorem length_run (files : Str → Option Str) (ops : List AuthOp) :
    (authRun files ops).users.length ≤ smAuthMaxUsers :=
  Machine.final_invariant (P := fun s : AuthState => s.users.length ≤ smAuthMaxUsers)
    (fun _ op h => length_step h op) (Nat.zero_le _) ops

/-! ### Names that are left -/

theorem decimal_valid {n : ℕ} (hn : n < 10 ^ 32) : validUsername (decimal n) = true := by
  have hlen : (decimal n).length ≤ smAuthMaxUsername := decimal_length (by decide) hn
  have hall : (decimal n).all isNameChar = true := by
    rw [List.all_eq_true]
    intro c hc
    rw [isNameChar, decimal_isDigit n c hc]
    rfl
  simp [validUsername, decimal_ne_nil, hlen, hall]

/-- There are more valid names than entries. -/
theorem exists_free_name {users : List UserRecord} (hroom : users.length ≤ smAuthMaxUsers) :
    ∃ name, validUsername name = true ∧ findUserLocked users name = none := by
  by_contra hnone
  push Not at hnone
  have hlen : ∀ n < smAuthMaxUsers + 1, n < 10 ^ 32 := fun n hn =>
    hn.trans (by decide)
  have hsub : (List.range (smAuthMaxUsers + 1)).map decimal ⊆
      users.map fun u => u.username.chars := by
    intro name hname
    obtain ⟨n, hn, rfl⟩ := List.mem_map.mp hname
    have hn := hlen n (List.mem_range.mp hn)
    obtain ⟨e, he⟩ := Option.ne_none_iff_exists'.mp (hnone _ (decimal_valid hn))
    obtain ⟨hget, -, hchars⟩ := findUserLocked_some he
    refine List.mem_map.mpr ⟨e.2, List.mem_of_getElem? hget, ?_⟩
    exact hchars.trans (List.take_of_length_le (decimal_length (by decide) hn))
  have hnodup : ((List.range (smAuthMaxUsers + 1)).map decimal).Nodup :=
    List.nodup_range.map fun m n hmn => by
      rw [← digitsValue_decimal m, hmn, digitsValue_decimal]
  have hle := (hnodup.subperm hsub).length_le
  rw [List.length_map, List.length_map, List.length_range] at hle
  omega

/-! ### When a table is full -/

theorem authCreateUser_capacity_iff {s : AuthState} {name password : Str} {role : SmRole}
    (hname : validUsername name = true) (hlen : 8 ≤ password.length) (hrole : role ≠ .unknown)
    (hnew : findUserLocked s.users name = none) (salt : Salt) (io : UserIo) :
    (authCreateUser s (some name) (some password) role salt io).1 = .errCapacity ↔
      smAuthMaxUsers ≤ s.users.length := by
  constructor
  · intro hst
    by_contra hroom
    rw [authCreateUser_accepted hname hlen hrole hnew (Nat.lt_of_not_le hroom)] at hst
    exact AuthState.save_ne (by decide) _ io hst
  · intro hfull
    have harg : (!validUsername name || decide (password.length < 8) || role == .unknown) =
        false := by
      simp [hname, hlen, hrole]
    simp only [authCreateUser, harg, hnew, Bool.false_eq_true, if_false, if_pos hfull]

/-- In every state that a run reaches: the table is full for a new account only when
there are 256 live ones, exactly if fewer than 256 entries were used or no account
of them was deleted. -/
theorem capacity_only_when_full_iff (files : Str → Option Str) (ops : List AuthOp) :
    let s := authRun files ops
    (∀ name password role salt io, validUsername name = true → 8 ≤ password.length →
        role ≠ .unknown → findUserLocked s.users name = none →
        (authCreateUser s (some name) (some password) role salt io).1 = .errCapacity →
        smAuthMaxUsers ≤ (liveAccounts s.users).length) ↔
      s.users.length < smAuthMaxUsers ∨ ∀ u ∈ s.users, u.inUse = true := by
  intro s
  have hroom : s.users.length ≤ smAuthMaxUsers := length_run files ops
  rw [← liveAccounts_full_iff]
  constructor
  · intro h
    by_cases hfull : s.users.length < smAuthMaxUsers
    · exact Or.inl hfull
    · obtain ⟨name, hname, hnew⟩ := exists_free_name hroom
      have hst := (@authCreateUser_capacity_iff s name (lit "password") .viewer hname (by decide)
        (by decide) hnew (Vector.replicate _ 0) UserIo.all).mpr (Nat.le_of_not_lt hfull)
      exact Or.inr (hroom.trans (h _ _ _ _ _ hname (by decide) (by decide) hnew hst))
  · intro h name password role salt io hname hlen hrole hnew hst
    have hfull := (authCreateUser_capacity_iff hname hlen hrole hnew salt io).mp hst
    rcases h with hroom | hall
    · omega
    · exact hfull.trans hall

/-! ### Accounts that come and go -/

/-- The seeded accounts, and as many deleted entries. -/
structure Churned (s : AuthState) (n : ℕ) : Prop where
  entries : s.users.length = 3 + n
  free : findUserLocked s.users (lit "x") = none
  live : (liveAccounts s.users).length = 3

/-- An account is created and deleted. -/
def churn : List AuthOp :=
  [.createUser (some (lit "x")) (some (lit "password")) .viewer (Vector.replicate _ 0) UserIo.all,
    .deleteUser (some (lit "x")) UserIo.all]

theorem Churned.step {s : AuthState} {n : ℕ} (h : Churned s n) (hn : 3 + n < smAuthMaxUsers) :
    Churned (Machine.final authStep s churn) (n + 1) := by
  have hcreate := @authCreateUser_accepted s (lit "x") (lit "password") .viewer (by decide)
    (by decide) (by decide) h.free (by rw [h.entries]; exact hn) (Vector.replicate _ 0) UserIo.all
  obtain ⟨u, hu⟩ : ∃ u : UserRecord, u = ⟨true, CharField.copy _ (lit "x"), Vector.replicate _ 0,
    hashPassword (Vector.replicate _ 0) (lit "password"), .viewer, 0, 0⟩ := ⟨_, rfl⟩
  rw [← hu] at hcreate
  have hname : u.answers (lit "x") = true := by
    rw [UserRecord.answers_iff, hu]
    exact ⟨rfl, rfl⟩
  have hfind : findUserLocked (s.users ++ [u]) (lit "x") = some (s.users.length, u) :=
    (findUserLocked_append_none h.free).trans (if_pos hname)
  have husers : (Machine.final authStep s churn).users =
      (s.users ++ [u]).set s.users.length { u with inUse := false } := by
    show (authDeleteUser (authCreateUser s _ _ _ _ _).2 _ _).2.users = _
    rw [hcreate]
    simp only [authDeleteUser, AuthState.save, hfind, AuthState.setUser]
  have hset : (s.users ++ [u]).set s.users.length { u with inUse := false } =
      s.users ++ [{ u with inUse := false }] := by
    simp
  rw [hset] at husers
  refine ⟨?_, ?_, ?_⟩
  · rw [husers, List.length_append, h.entries]
    rfl
  · rw [husers]
    exact (findUserLocked_append_none h.free).trans (if_neg fun hc => by cases hc)
  · rw [husers, ← h.live]
    simp [liveAccounts]

theorem churned_run {s : AuthState} (h : Churned s 0) (n : ℕ) (hn : 3 + n ≤ smAuthMaxUsers) :
    Churned (Machine.final authStep s (List.replicate n churn).flatten) n := by
  induction n with
  | zero => exact h
  | succ n ih =>
    rw [List.replicate_succ', List.flatten_append, Machine.final_append, List.flatten_singleton]
    exact (ih (Nat.le_of_succ_le hn)).step hn

/-- An `auth_init` without a file seeds three accounts. When another one was created
and deleted 253 times, it cannot be created again, though three are live. -/
theorem capacity_of_three :
    let s := authRun (fun _ => none)
      (.init (some (lit "u.csv")) (drawn true 0) :: (List.replicate 253 churn).flatten)
    validUsername (lit "x") = true ∧ findUserLocked s.users (lit "x") = none ∧
      (authCreateUser s (some (lit "x")) (some (lit "password")) .viewer (Vector.replicate _ 0)
        UserIo.all).1 = .errCapacity ∧ (liveAccounts s.users).length = 3 := by
  intro s
  have h : Churned s 253 := by
    rw [show s = authRun (fun _ => none) (.init (some (lit "u.csv")) (drawn true 0) ::
      (List.replicate 253 churn).flatten) from rfl, authRun, Machine.final_cons]
    exact churned_run ⟨rfl, rfl, rfl⟩ 253 (by decide)
  refine ⟨by decide, h.free, ?_, h.live⟩
  exact (authCreateUser_capacity_iff (by decide) (by decide) (by decide) h.free _ _).mpr
    h.entries.symm.le

end SubscriberMgmt
