import SubscriberMgmt.Auth
import SubscriberMgmt.Lib.Lease
import SubscriberMgmt.Lib.Machine

/-!
# The session table (`auth.c:407-634`)

A session is a lease of its token: a login issues it, a verification prolongs
it, a logout drops it, and `auth_init` clears all. The slots track the leases.
-/

namespace SubscriberMgmt
open CText Lease

/-! ### One critical section -/

/-- What is done under one hold of `g_auth_lock`. `auth_authorize` is a
`verify`, and `auth_change_password` a `verify` followed by a `rewrite`. -/
inductive AuthOp where
  | init (usersCsvPath : Option Str) (input : InitInput)
  | shutdown (io : UserIo)
  | login (username password : Option Str) (outSession : Bool) (input : LoginInput)
  | logout (token : Option Str)
  | verify (token : Option Str) (now : ℤ)
  | createUser (username password : Option Str) (role : SmRole) (salt : Salt) (io : UserIo)
  | rewrite (caller : AuthUser) (oldPassword newPassword : Str) (salt : Salt) (lockOk : Bool)
      (io : UserIo)
  | deleteUser (username : Option Str) (io : UserIo)

def AuthOp.times : AuthOp → List ℤ
  | .login _ _ _ input => [input.now]
  | .verify _ now => [now]
  | _ => []

def loginEvents (now : ℤ) : Except SmStatus Session → List (Event Str AuthUser)
  | .ok session => [.issued session.token session.user now]
  | .error _ => []

def verifyEvents (token : Option Str) (now : ℤ) :
    Except SmStatus AuthUser → List (Event Str AuthUser)
  | .ok _ => token.toList.map fun k => .used k now
  | .error _ => []

/-- The state after a critical section, and what it did to sessions. An
`auth_init` that refuses NULL does nothing. -/
def authStep (s : AuthState) : AuthOp → AuthState × List (Event Str AuthUser)
  | .init path input =>
    ((authInit s path input).2, path.toList.map fun _ => .cleared)
  | .shutdown io => (authShutdown s io, [])
  | .login username password outSession input =>
    let r := authLogin s username password outSession input
    (r.2, loginEvents input.now r.1)
  | .logout token => ((authLogout s token).2, token.toList.map .dropped)
  | .verify token now =>
    let r := authVerifySession s token now
    (r.2, verifyEvents token now r.1)
  | .createUser username password role salt io =>
    ((authCreateUser s username password role salt io).2, [])
  | .rewrite caller oldPassword newPassword salt lockOk io =>
    ((changePasswordLocked s caller oldPassword newPassword salt lockOk io).2, [])
  | .deleteUser username io => ((authDeleteUser s username io).2, [])

def authRun (files : Str → Option Str) (ops : List AuthOp) : AuthState :=
  Machine.final authStep (AuthState.start files) ops

def authLog (files : Str → Option Str) (ops : List AuthOp) : List (Event Str AuthUser) :=
  (Machine.outputs authStep (AuthState.start files) ops).flatten

/-! ### Slots as leases -/

def SessionSlot.entry (slot : SessionSlot) : Option (Entry Str AuthUser) :=
  if slot.inUse then some ⟨slot.session.token, slot.session.user, slot.session.expiresAt⟩
  else none

def AuthState.table (s : AuthState) : Table SlotIndex Str AuthUser := fun j =>
  (s.sessions j).entry

def WholeTokens (s : AuthState) : Prop :=
  ∀ j l, s.table j = some l → l.key.length = 2 * smAuthTokenBytes

theorem SessionSlot.entry_eq_some {slot : SessionSlot} {l : Entry Str AuthUser} :
    slot.entry = some l ↔ slot.inUse = true ∧
      l = ⟨slot.session.token, slot.session.user, slot.session.expiresAt⟩ := by
  unfold SessionSlot.entry
  cases slot.inUse <;> simp [eq_comm]

theorem strncmpEq_whole {n : ℕ} {a b : Str} (ha : a.length < n) :
    strncmpEq n a b = true ↔ a = b := by
  simp only [strncmpEq, decide_eq_true_eq, List.take_of_length_le (Nat.le_of_lt ha)]
  constructor
  · intro h
    have hb : b.length < n := by
      have hl := congrArg List.length h
      rw [List.length_take] at hl
      omega
    rwa [List.take_of_length_le (Nat.le_of_lt hb)] at h
  · intro he
    subst he
    exact (List.take_of_length_le (Nat.le_of_lt ha)).symm

theorem WholeTokens.hasToken {s : AuthState} (h : WholeTokens s) (token : Str) (j : SlotIndex) :
    (s.sessions j).hasToken token = true ↔ ∃ l, s.table j = some l ∧ l.key = token := by
  have hlen : (s.sessions j).inUse = true →
      (s.sessions j).session.token.length < 2 * smAuthTokenBytes + 1 := fun huse =>
    Nat.lt_succ_of_le (Nat.le_of_eq (h j _ (SessionSlot.entry_eq_some.mpr ⟨huse, rfl⟩)))
  simp only [AuthState.table, SessionSlot.entry_eq_some, SessionSlot.hasToken, Bool.and_eq_true]
  constructor
  · intro h
    obtain ⟨huse, heq⟩ := h
    exact ⟨_, ⟨huse, rfl⟩, (strncmpEq_whole (hlen huse)).mp heq⟩
  · intro h
    obtain ⟨l, ⟨huse, rfl⟩, rfl⟩ := h
    exact ⟨huse, (strncmpEq_whole (hlen huse)).mpr rfl⟩

theorem AuthState.findSlot_some {s : AuthState} {p : SessionSlot → Bool} {j : SlotIndex}
    (h : s.findSlot p = some j) : p (s.sessions j) = true := by
  simpa using List.find?_some h

theorem AuthState.findSlot_none {s : AuthState} {p : SessionSlot → Bool} :
    s.findSlot p = none ↔ ∀ j, p (s.sessions j) = false := by
  simp [AuthState.findSlot]

theorem AuthState.table_setSlot (s : AuthState) (j : SlotIndex) (slot : SessionSlot) :
    (s.setSlot j slot).table = Function.update s.table j slot.entry := by
  funext i
  by_cases hi : i = j
  · subst hi
    simp [AuthState.table, AuthState.setSlot]
  · simp [AuthState.table, AuthState.setSlot, hi]

@[simp] theorem AuthState.table_save (s : AuthState) (io : UserIo) :
    (s.save io).2.table = s.table := rfl

/-! ### What each function does to the table -/

theorem authInit_table (s : AuthState) (path : Str) (input : InitInput) :
    (authInit s (some path) input).2.table = fun _ => none := by
  simp only [authInit]
  split <;> rfl

theorem authShutdown_table (s : AuthState) (io : UserIo) :
    (authShutdown s io).table = s.table := by
  unfold authShutdown
  split <;> rfl

theorem checkCredentials_table (s : AuthState) (username password : Str) (input : LoginInput) :
    (checkCredentials s username password input).2.table = s.table := by
  unfold checkCredentials
  split
  · rfl
  · split
    · rfl
    · dsimp only
      split <;> split <;> rfl

theorem openSession_cases (s : AuthState) (u : UserRecord) (input : LoginInput) :
    ((openSession s u input).1 = .error .errCapacity ∧ (openSession s u input).2 = s ∧
        ∀ j, ∃ l, s.table j = some l ∧ input.now ≤ l.expiry) ∨
      ∃ j, (∀ l, s.table j = some l → l.expiry < input.now) ∧
        (openSession s u input).1 = .ok (newSession u input) ∧
        (openSession s u input).2.table = Function.update s.table j
          (some ⟨smHexEncode input.token.toList, ⟨u.username, u.role⟩,
            input.now + smAuthSessionSeconds⟩) := by
  unfold openSession
  cases hj : s.findSlot (SessionSlot.takeable input.now) with
  | none =>
    left
    refine ⟨rfl, rfl, fun j => ?_⟩
    have htake := AuthState.findSlot_none.mp hj j
    simp only [SessionSlot.takeable, Bool.or_eq_false_iff, Bool.not_eq_false',
      decide_eq_false_iff_not, Int.not_lt] at htake
    exact ⟨_, SessionSlot.entry_eq_some.mpr ⟨htake.1, rfl⟩, htake.2⟩
  | some j =>
    right
    refine ⟨j, fun l hl => ?_, rfl, ?_⟩
    · have htake := AuthState.findSlot_some hj
      obtain ⟨huse, rfl⟩ := SessionSlot.entry_eq_some.mp hl
      simpa [SessionSlot.takeable, huse] using htake
    · simp only [AuthState.table_save, AuthState.table_setSlot]
      rfl

theorem authLogin_cases (s : AuthState) (username password : Option Str) (outSession : Bool)
    (input : LoginInput) :
    (∃ st, (authLogin s username password outSession input).1 = .error st ∧
        (authLogin s username password outSession input).2.table = s.table) ∨
      ∃ u j, (∀ l, s.table j = some l → l.expiry < input.now) ∧
        (authLogin s username password outSession input).1 = .ok (newSession u input) ∧
        (authLogin s username password outSession input).2.table = Function.update s.table j
          (some ⟨smHexEncode input.token.toList, ⟨u.username, u.role⟩,
            input.now + smAuthSessionSeconds⟩) := by
  unfold authLogin
  split
  case h_1 username password =>
    have htab := checkCredentials_table s username password input
    split
    case h_1 st s' heq =>
      rw [heq] at htab
      exact Or.inl ⟨st, rfl, htab⟩
    case h_2 u s' heq =>
      rw [heq] at htab
      rw [← htab]
      rcases openSession_cases s' u input with ⟨herr, hs, -⟩ | ⟨j, hj, hok, ht⟩
      · exact Or.inl ⟨_, herr, congrArg AuthState.table hs⟩
      · exact Or.inr ⟨u, j, hj, hok, ht⟩
  case h_2 => exact Or.inl ⟨_, rfl, rfl⟩

theorem authLogout_cases {s : AuthState} (hw : WholeTokens s) (token : Str) :
    ((∀ j l, s.table j = some l → l.key ≠ token) ∧ (authLogout s (some token)).2 = s) ∨
      ∃ j l, s.table j = some l ∧ l.key = token ∧
        (authLogout s (some token)).2.table = Function.update s.table j none := by
  simp only [authLogout]
  cases hj : s.findSlot (SessionSlot.hasToken token) with
  | none =>
    left
    refine ⟨fun j l hl hk => ?_, rfl⟩
    have hno := AuthState.findSlot_none.mp hj j
    rw [(hw.hasToken token j).mpr ⟨l, hl, hk⟩] at hno
    cases hno
  | some j =>
    obtain ⟨l, hl, hk⟩ := (hw.hasToken token j).mp (AuthState.findSlot_some hj)
    exact Or.inr ⟨j, l, hl, hk, by rw [AuthState.table_setSlot]; rfl⟩

theorem authVerifySession_cases {s : AuthState} (hw : WholeTokens s) (token : Str) (now : ℤ) :
    ((∀ j l, s.table j = some l → l.key ≠ token) ∧
        authVerifySession s (some token) now = (.error .errUnauthorized, s)) ∨
      ∃ j l, s.table j = some l ∧ l.key = token ∧
        ((l.expiry < now ∧ (authVerifySession s (some token) now).1 = .error .errUnauthorized ∧
            (authVerifySession s (some token) now).2.table = Function.update s.table j none) ∨
          (now ≤ l.expiry ∧ (authVerifySession s (some token) now).1 = .ok l.holder ∧
            (authVerifySession s (some token) now).2.table = Function.update s.table j
              (some { l with expiry := now + smAuthSessionSeconds }))) := by
  simp only [authVerifySession]
  cases hj : s.findSlot (SessionSlot.hasToken token) with
  | none =>
    left
    refine ⟨fun j l hl hk => ?_, rfl⟩
    have hno := AuthState.findSlot_none.mp hj j
    rw [(hw.hasToken token j).mpr ⟨l, hl, hk⟩] at hno
    cases hno
  | some j =>
    right
    obtain ⟨l, hl, hk⟩ := (hw.hasToken token j).mp (AuthState.findSlot_some hj)
    obtain ⟨huse, rfl⟩ := SessionSlot.entry_eq_some.mp hl
    refine ⟨j, _, hl, hk, ?_⟩
    dsimp only
    split
    case isTrue hexp => exact Or.inl ⟨hexp, rfl, by rw [AuthState.table_setSlot]; rfl⟩
    case isFalse hexp =>
      refine Or.inr ⟨by omega, rfl, ?_⟩
      rw [AuthState.table_setSlot]
      congr 1
      simp [SessionSlot.entry, huse]

theorem authCreateUser_table (s : AuthState) (username password : Option Str) (role : SmRole)
    (salt : Salt) (io : UserIo) :
    (authCreateUser s username password role salt io).2.table = s.table := by
  unfold authCreateUser
  split
  · split
    · rfl
    · split
      · rfl
      · split <;> rfl
  · rfl

theorem changePasswordLocked_table (s : AuthState) (caller : AuthUser)
    (oldPassword newPassword : Str) (salt : Salt) (lockOk : Bool) (io : UserIo) :
    (changePasswordLocked s caller oldPassword newPassword salt lockOk io).2.table = s.table := by
  unfold changePasswordLocked
  split
  · rfl
  · split
    · rfl
    · split <;> rfl

theorem authDeleteUser_table (s : AuthState) (username : Option Str) (io : UserIo) :
    (authDeleteUser s username io).2.table = s.table := by
  unfold authDeleteUser
  split
  · rfl
  · split <;> rfl

/-! ### Runs -/

/-- The slots hold whole tokens and track the leases of the log `es`. -/
structure SessionsInv (s : AuthState) (es : List (Event Str AuthUser)) (times : List ℤ) :
    Prop where
  whole : WholeTokens s
  tracks : Tracks smAuthSessionSeconds s.table (Ledger.applyAll (fun _ => none) es)
    (issuedKeys es) times

namespace SessionsInv

variable {s : AuthState} {es : List (Event Str AuthUser)} {times : List ℤ}

theorem start (files : Str → Option Str) : SessionsInv (AuthState.start files) [] [] :=
  ⟨fun _ _ hl => (by cases hl), Tracks.empty _ _ _⟩

theorem mono (h : SessionsInv s es times) {s' : AuthState} (hs : s'.table = s.table)
    {times' : List ℤ} (htimes : ∀ x ∈ times, x ∈ times') : SessionsInv s' es times' := by
  refine ⟨fun j l hl => h.whole j l (hs ▸ hl), ?_⟩
  rw [hs]
  exact h.tracks.mono (fun _ hk => hk) htimes

theorem whole_update {tab : Table SlotIndex Str AuthUser} {s' : AuthState} {j : SlotIndex}
    {o : Option (Entry Str AuthUser)}
    (htab : ∀ i l, tab i = some l → l.key.length = 2 * smAuthTokenBytes)
    (hs : s'.table = Function.update tab j o)
    (ho : ∀ l, o = some l → l.key.length = 2 * smAuthTokenBytes) : WholeTokens s' := by
  intro i l hl
  rw [hs] at hl
  by_cases hi : i = j
  · subst hi
    exact ho l (by simpa using hl)
  · exact htab i l (by simpa [hi] using hl)

theorem init (path : Option Str) (input : InitInput) (h : SessionsInv s es times) :
    SessionsInv (authInit s path input).2 (es ++ path.toList.map fun _ => .cleared) times := by
  cases path with
  | none => simpa [authInit] using h
  | some path =>
    have htab := authInit_table s path input
    refine ⟨fun j l hl => ?_, ?_⟩
    · rw [htab] at hl
      cases hl
    · simp only [Option.toList_some, List.map_cons, List.map_nil, Ledger.applyAll_concat, htab]
      exact Tracks.empty _ _ _

theorem login (username password : Option Str) (outSession : Bool) (input : LoginInput)
    (h : SessionsInv s es times)
    (hfresh : (issuedKeys (es ++ loginEvents input.now
      (authLogin s username password outSession input).1)).Nodup) :
    SessionsInv (authLogin s username password outSession input).2
      (es ++ loginEvents input.now (authLogin s username password outSession input).1)
      (input.now :: times) := by
  rcases authLogin_cases s username password outSession input with
    ⟨st, herr, htab⟩ | ⟨u, j, hj, hok, htab⟩
  · simp only [herr, loginEvents, List.append_nil]
    exact h.mono htab fun _ => List.mem_cons_of_mem _
  · simp only [hok, loginEvents] at hfresh ⊢
    have hlen : (smHexEncode input.token.toList).length = 2 * smAuthTokenBytes := by
      rw [smHexEncode_length, Vector.length_toList]
    refine ⟨whole_update h.whole htab fun l hl => ?_, ?_⟩
    · cases hl
      exact hlen
    · have hk : smHexEncode input.token.toList ∉ issuedKeys es := by
        rw [issuedKeys_append] at hfresh
        exact fun hm => (List.nodup_append.mp hfresh).2.2 _ hm _ (List.mem_singleton_self _) rfl
      rw [htab, Ledger.applyAll_concat]
      refine (h.tracks.issue hj hk _).mono (fun k hm => ?_) fun _ hx => hx
      rw [issuedKeys_append]
      exact List.mem_append.mpr ((List.mem_cons.mp hm).symm.imp id List.mem_singleton.mpr)

theorem logout (token : Option Str) (h : SessionsInv s es times) :
    SessionsInv (authLogout s token).2 (es ++ token.toList.map .dropped) times := by
  cases token with
  | none => simpa [authLogout] using h
  | some token =>
    simp only [Option.toList_some, List.map_cons, List.map_nil]
    have hkeys : ∀ k ∈ issuedKeys es, k ∈ issuedKeys (es ++ [.dropped token]) := fun k hk => by
      rw [issuedKeys_append]
      exact List.mem_append_left _ hk
    rcases authLogout_cases h.whole token with ⟨hno, hs⟩ | ⟨j, l, hl, rfl, htab⟩
    · rw [hs]
      refine ⟨h.whole, ?_⟩
      rw [Ledger.applyAll_concat]
      exact (h.tracks.drop_absent hno).mono hkeys fun _ hx => hx
    · refine ⟨whole_update h.whole htab fun _ hl' => (by cases hl'), ?_⟩
      rw [htab, Ledger.applyAll_concat]
      exact (h.tracks.drop hl).mono hkeys fun _ hx => hx

theorem verify (token : Option Str) (now : ℤ) (h : SessionsInv s es times) :
    SessionsInv (authVerifySession s token now).2
      (es ++ verifyEvents token now (authVerifySession s token now).1) (now :: times) := by
  cases token with
  | none =>
    simp only [authVerifySession, verifyEvents, List.append_nil]
    exact h.mono rfl fun _ => List.mem_cons_of_mem _
  | some token =>
    rcases authVerifySession_cases h.whole token now with
      ⟨-, heq⟩ | ⟨j, l, hl, rfl, ⟨hexp, herr, htab⟩ | ⟨hle, hok, htab⟩⟩
    · rw [heq]
      simp only [verifyEvents, List.append_nil]
      exact h.mono rfl fun _ => List.mem_cons_of_mem _
    · simp only [herr, verifyEvents, List.append_nil]
      refine ⟨whole_update h.whole htab fun _ hl' => (by cases hl'), ?_⟩
      rw [htab]
      exact h.tracks.expire hl hexp
    · simp only [hok, verifyEvents, Option.toList_some, List.map_cons, List.map_nil]
      refine ⟨whole_update h.whole htab fun l' hl' => ?_, ?_⟩
      · cases hl'
        exact h.whole j l hl
      · rw [htab, Ledger.applyAll_concat]
        refine (h.tracks.use hl now).mono (fun k hk => ?_) fun _ hx => hx
        rw [issuedKeys_append]
        exact List.mem_append_left _ hk

theorem step (h : SessionsInv s es times) (op : AuthOp)
    (hfresh : (issuedKeys (es ++ (authStep s op).2)).Nodup) :
    SessionsInv (authStep s op).1 (es ++ (authStep s op).2) (op.times ++ times) := by
  cases op with
  | init path input => exact h.init path input
  | shutdown io =>
    simp only [authStep, List.append_nil]
    exact h.mono (authShutdown_table s io) fun _ hx => hx
  | login username password outSession input =>
    exact h.login username password outSession input hfresh
  | logout token => exact h.logout token
  | verify token now => exact h.verify token now
  | createUser username password role salt io =>
    simp only [authStep, List.append_nil]
    exact h.mono (authCreateUser_table s username password role salt io) fun _ hx => hx
  | rewrite caller oldPassword newPassword salt lockOk io =>
    simp only [authStep, List.append_nil]
    exact h.mono (changePasswordLocked_table s caller oldPassword newPassword salt lockOk io)
      fun _ hx => hx
  | deleteUser username io =>
    simp only [authStep, List.append_nil]
    exact h.mono (authDeleteUser_table s username io) fun _ hx => hx

theorem verified (h : SessionsInv s es times) {token : Str} {user : AuthUser} {now : ℤ}
    (hok : (authVerifySession s (some token) now).1 = .ok user) :
    ∃ last, Held es token user last ∧ now ≤ last + smAuthSessionSeconds := by
  rcases authVerifySession_cases h.whole token now with
    ⟨-, heq⟩ | ⟨j, l, hl, rfl, ⟨-, herr, -⟩ | ⟨hle, hok', -⟩⟩
  · rw [heq] at hok
    cases hok
  · rw [herr] at hok
    cases hok
  · rw [hok'] at hok
    cases hok
    exact ⟨_, applyAll_eq_some_iff.mp (h.tracks.recorded j l hl), by omega⟩

theorem verify_ok_iff (h : SessionsInv s es times) {t : ℤ} (hclock : ∀ x ∈ times, x ≤ t)
    (token : Str) (user : AuthUser) :
    (authVerifySession s (some token) t).1 = .ok user ↔
      ∃ last, Held es token user last ∧ t ≤ last + smAuthSessionSeconds := by
  refine ⟨h.verified, fun hheld => ?_⟩
  rw [← valid_iff_held, h.tracks.valid_iff hclock] at hheld
  obtain ⟨i, l', hl', hk, rfl, hle⟩ := hheld
  rcases authVerifySession_cases h.whole token t with
    ⟨hno, -⟩ | ⟨j, l, hl, rfl, ⟨hexp, -⟩ | ⟨-, hok, -⟩⟩
  · exact absurd hk (hno i l' hl')
  all_goals
    obtain rfl := h.tracks.distinct i j l' l hl' hl hk
    rw [hl] at hl'
    cases hl'
  · omega
  · exact hok

theorem capacity_iff (h : SessionsInv s es times) {username password : Str} {input : LoginInput}
    (hclock : ∀ x ∈ times, x ≤ input.now) {u : UserRecord} {s' : AuthState}
    (haccept : checkCredentials s username password input = (.ok u, s')) :
    (authLogin s (some username) (some password) true input).1 = .error .errCapacity ↔
      ∀ j, (s.sessions j).inUse = true ∧
        ∃ last, Held es (s.sessions j).session.token (s.sessions j).session.user last ∧
          input.now ≤ last + smAuthSessionSeconds := by
  have htab := checkCredentials_table s username password input
  have hlogin :
      authLogin s (some username) (some password) true input = openSession s' u input := by
    simp only [authLogin, haccept]
  rw [haccept] at htab
  rw [hlogin]
  simp only [← valid_iff_held, h.tracks.valid_iff hclock]
  rcases openSession_cases s' u input with ⟨herr, -, hall⟩ | ⟨j, hj, hok, -⟩
  · rw [herr]
    refine ⟨fun _ j => ?_, fun _ => rfl⟩
    obtain ⟨l, hl, hle⟩ := hall j
    rw [htab] at hl
    obtain ⟨huse, rfl⟩ := SessionSlot.entry_eq_some.mp hl
    exact ⟨huse, j, _, hl, rfl, rfl, hle⟩
  · rw [hok]
    simp only [reduceCtorEq, false_iff]
    intro hall
    obtain ⟨huse, i, l, hl, hk, -, hle⟩ := hall j
    have hself : s.table j = some _ := SessionSlot.entry_eq_some.mpr ⟨huse, rfl⟩
    obtain rfl := h.tracks.distinct i j l _ hl hself hk
    have hexp := hj l (by rw [htab]; exact hl)
    omega

end SessionsInv

theorem authRun_inv (files : Str → Option Str) (ops : List AuthOp)
    (hfresh : (issuedKeys (authLog files ops)).Nodup) :
    SessionsInv (authRun files ops) (authLog files ops) (ops.flatMap AuthOp.times) := by
  refine Machine.log_invariant (P := fun ops s es => SessionsInv s es (ops.flatMap AuthOp.times))
    (Q := fun es => (issuedKeys es).Nodup) (fun _ _ => issuedKeys_nodup_left)
    (fun ops s es op h hgood => ?_) (SessionsInv.start files) ops hfresh
  apply (h.step op hgood).mono rfl
  intro t ht
  simp only [List.flatMap_append, List.flatMap_singleton, List.mem_append] at ht ⊢
  exact ht.symm

/-- After every run in which no token was issued twice, and at a time not
before any earlier one: a token is verified as that of `user` exactly when some
login issued it to `user`, it was not logged out and `auth_init` did not clear
the table since, and at most 1800 seconds have passed since that login and
every verification of it. A login with accepted credentials finds no slot
exactly when all 128 slots hold such sessions. -/
theorem session_table_correct (files : Str → Option Str) (ops : List AuthOp) (now : ℤ)
    (hfresh : (issuedKeys (authLog files ops)).Nodup)
    (hclock : ∀ t ∈ ops.flatMap AuthOp.times, t ≤ now) :
    (∀ token user, (authVerifySession (authRun files ops) (some token) now).1 = .ok user ↔
      ∃ last, Held (authLog files ops) token user last ∧ now ≤ last + smAuthSessionSeconds) ∧
    ∀ username password input u s', input.now = now →
      checkCredentials (authRun files ops) username password input = (.ok u, s') →
      ((authLogin (authRun files ops) (some username) (some password) true input).1 =
          .error .errCapacity ↔
        ∀ j, ((authRun files ops).sessions j).inUse = true ∧
          ∃ last, Held (authLog files ops) ((authRun files ops).sessions j).session.token
            ((authRun files ops).sessions j).session.user last ∧
            now ≤ last + smAuthSessionSeconds) := by
  have hinv := authRun_inv files ops hfresh
  refine ⟨fun token user => hinv.verify_ok_iff hclock token user, ?_⟩
  intro username password input u s' he haccept
  subst he
  exact hinv.capacity_iff hclock haccept

/-- A credential file with one account of role ADMIN, its hash given by a digit. -/
def adminFile (digit : UInt8) (lockedUntil : Str) : Str → Option Str := fun path =>
  if path = lit "u.csv" then
    some (lit "admin," ++ List.replicate 32 48 ++ comma :: List.replicate 64 digit ++
      lit ",ADMIN,0," ++ lockedUntil ++ [newline])
  else none

def adminInit : AuthOp :=
  .init (some (lit "u.csv")) ⟨true, fun _ => ([], []), Vector.replicate _ 0,
    ⟨Vector.replicate _ 0, Vector.replicate _ 0⟩, ⟨Vector.replicate _ 0, Vector.replicate _ 0⟩,
    UserIo.all⟩

def zeroLogin (now : ℤ) : LoginInput :=
  ⟨now, Vector.replicate _ 0, Vector.replicate _ 0, UserIo.all, UserIo.all⟩

def adminUser : AuthUser := ⟨CharField.copy _ (lit "admin"), .admin⟩

def adminRecord (byte : UInt8) (lockedUntil : ℤ) : UserRecord :=
  ⟨true, CharField.copy _ (lit "admin"), Vector.replicate _ 0, Vector.replicate _ byte, .admin, 0,
    lockedUntil⟩

/-- The state after an `auth_init` that read these accounts. -/
def loadedState (files : Str → Option Str) (users : List UserRecord) : AuthState :=
  { AuthState.start files with
    users := users, usersPath := CharField.copy 511 (lit "u.csv"), initialized := true }

section Loaded

variable {files : Str → Option Str} {users : List UserRecord}

theorem adminInit_step
    (h : (files (lit "u.csv")).map (loadUsersLocked fun _ => ([], [])) = some users) :
    authStep (AuthState.start files) adminInit = (loadedState files users, [.cleared]) := by
  simp only [authStep, adminInit, authInit, readUsers, AuthState.start, Disk.start, if_true, h]
  rfl

theorem authRun_adminInit
    (h : (files (lit "u.csv")).map (loadUsersLocked fun _ => ([], [])) = some users)
    (ops : List AuthOp) :
    authRun files (adminInit :: ops) = Machine.final authStep (loadedState files users) ops := by
  rw [authRun, Machine.final_cons, adminInit_step h]

theorem authLog_adminInit
    (h : (files (lit "u.csv")).map (loadUsersLocked fun _ => ([], [])) = some users)
    (ops : List AuthOp) :
    authLog files (adminInit :: ops) =
      .cleared :: (Machine.outputs authStep (loadedState files users) ops).flatten := by
  rw [authLog, Machine.outputs, adminInit_step h]
  rfl

end Loaded

theorem adminFile_loads : (adminFile 48 (lit "0") (lit "u.csv")).map
    (loadUsersLocked fun _ => ([], [])) = some [adminRecord 0 0] := by decide +kernel

theorem session_table_correct_admin :
    (authVerifySession (authRun (adminFile 48 (lit "0"))
        [adminInit, .login (some (lit "admin")) (some (lit "x")) true (zeroLogin 7)])
      (some (List.replicate 64 48)) 1807).1 = .ok adminUser := by
  refine ((session_table_correct _ _ _ ?_ ?_).1 _ _).mpr
    ⟨7, ⟨[.cleared], 7, [], ?_, ?_, rfl⟩, ?_⟩
  · rw [authLog_adminInit adminFile_loads]
    decide
  · decide
  · rw [authLog_adminInit adminFile_loads]
    rfl
  · exact fun _ hm => absurd hm List.not_mem_nil
  · decide

end SubscriberMgmt
