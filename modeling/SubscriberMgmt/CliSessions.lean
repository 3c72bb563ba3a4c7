import SubscriberMgmt.Cli
import SubscriberMgmt.AuthSessions
import SubscriberMgmt.Lib.StateHoare

/-!
# The session behind each call of the menu program (`main.c:1-17`, `main.c:232-440`)

An action is authorized before its prompts, and its call is made after them. The
session is held for a fixed time after the authorization, whatever is typed.
-/

namespace SubscriberMgmt
open StateHoare Lease

/-- The session used is present, not expired, and its role allows the action. -/
def StoreCall.Live (c : StoreCall) : Prop :=
  ∃ j, (c.auth.sessions j).inUse = true ∧ (c.auth.sessions j).session.token = c.token ∧
    c.now ≤ (c.auth.sessions j).session.expiresAt ∧
    authRoleAllows (c.auth.sessions j).session.user.role c.action = true

/-- The call is made while the authorization holds the session. -/
def StoreCall.InTime (c : StoreCall) : Prop := c.now ≤ c.authorizedAt + smAuthSessionSeconds

theorem StoreCall.live_iff (c : StoreCall) : c.Live ↔ ∃ j l, c.auth.table j = some l ∧
    l.key = c.token ∧ c.now ≤ l.expiry ∧ authRoleAllows l.holder.role c.action = true := by
  constructor
  · intro h
    obtain ⟨j, huse, hkey, hexp, hrole⟩ := h
    exact ⟨j, _, SessionSlot.entry_eq_some.mpr ⟨huse, rfl⟩, hkey, hexp, hrole⟩
  · intro h
    obtain ⟨j, l, hl, hkey, hexp, hrole⟩ := h
    obtain ⟨huse, rfl⟩ := SessionSlot.entry_eq_some.mp hl
    exact ⟨j, huse, hkey, hexp, hrole⟩

/-! ### The one session of the program -/

/-- At most one slot is in use, under this token. -/
def OnlySession (s : AuthState) (token : Option Str) : Prop :=
  ∃ j, (∀ i, i ≠ j → s.table i = none) ∧
    ∀ l, s.table j = some l → token = some l.key ∧ l.key.length = 2 * smAuthTokenBytes

/-- The one session, and what it allows until when. -/
def HeldUntil (s : AuthState) (token : Str) (action : SmAction) (expiry : ℤ) : Prop :=
  ∃ j l, (∀ i, i ≠ j → s.table i = none) ∧ s.table j = some l ∧ l.key = token ∧
    l.expiry = expiry ∧ authRoleAllows l.holder.role action = true

namespace OnlySession

variable {s s' : AuthState} {token : Str}

theorem whole {t : Option Str} (h : OnlySession s t) : WholeTokens s := by
  obtain ⟨j, hnone, hkey⟩ := h
  intro i l hl
  by_cases hi : i = j
  · rw [hi] at hl
    exact (hkey l hl).2
  · rw [hnone i hi] at hl
    cases hl

theorem congr {t : Option Str} (h : OnlySession s t) (hs : s'.table = s.table) :
    OnlySession s' t := by
  unfold OnlySession
  rw [hs]
  exact h

theorem of_empty {t : Option Str} (h : ∀ j, s.table j = none) : OnlySession s t := by
  refine ⟨⟨0, by decide⟩, fun i _ => h i, fun l hl => ?_⟩
  rw [h] at hl
  cases hl

theorem empty (h : OnlySession s none) (j : SlotIndex) : s.table j = none := by
  obtain ⟨k, hnone, hkey⟩ := h
  by_cases hj : j = k
  · cases hl : s.table j with
    | none => rfl
    | some l =>
      rw [hj] at hl
      cases (hkey l hl).1
  · exact hnone j hj

/-- Only a slot with the token can be in use. -/
theorem absent (h : OnlySession s (some token)) (hno : ∀ j l, s.table j = some l → l.key ≠ token) :
    ∀ j, s.table j = none := by
  obtain ⟨k, hnone, hkey⟩ := h
  intro j
  by_cases hj : j = k
  · cases hl : s.table j with
    | none => rfl
    | some l =>
      have htoken := (hkey l (hj ▸ hl)).1
      exact absurd (Option.some.inj htoken).symm (hno j l hl)
  · exact hnone j hj

theorem slot {j : SlotIndex} {l : Entry Str AuthUser} {t : Option Str} (h : OnlySession s t)
    (hl : s.table j = some l) : ∀ i, i ≠ j → s.table i = none := by
  obtain ⟨k, hnone, -⟩ := h
  have hj : j = k := by
    by_contra hne
    rw [hnone j hne] at hl
    cases hl
  exact hj ▸ hnone

theorem dropped {j : SlotIndex} {l : Entry Str AuthUser} {t t' : Option Str}
    (h : OnlySession s t) (hl : s.table j = some l)
    (hs : s'.table = Function.update s.table j none) : OnlySession s' t' := by
  apply of_empty
  intro i
  rw [hs]
  by_cases hi : i = j
  · rw [hi, Function.update_self]
  · rw [Function.update_of_ne hi, h.slot hl i hi]

theorem login (h : OnlySession s none) (username password : Str) (input : LoginInput) :
    let r := authLogin s (some username) (some password) true input
    (∀ st, r.1 = .error st → OnlySession r.2 none) ∧
      ∀ session, r.1 = .ok session → OnlySession r.2 (some session.token) := by
  intro r
  rcases authLogin_cases s (some username) (some password) true input with
    ⟨st, herr, htable⟩ | ⟨u, j, -, hok, htable⟩
  · refine ⟨fun _ _ => h.congr htable, fun session hr => ?_⟩
    rw [herr] at hr
    cases hr
  · refine ⟨fun st hr => ?_, fun session hr => ?_⟩
    · rw [hok] at hr
      cases hr
    · rw [hok] at hr
      cases hr
      refine ⟨j, fun i hi => ?_, fun l hl => ?_⟩
      · rw [htable, Function.update_of_ne hi, h.empty i]
      · rw [htable, Function.update_self] at hl
        cases hl
        exact ⟨rfl, by simp [smHexEncode_length]⟩

theorem logout (h : OnlySession s (some token)) :
    OnlySession (authLogout s (some token)).2 none := by
  rcases authLogout_cases h.whole token with ⟨hno, hs⟩ | ⟨j, l, hl, -, hs⟩
  · rw [hs]
    exact of_empty (h.absent hno)
  · exact h.dropped hl hs

/-- A verification prolongs the session, or leaves none. -/
theorem verify (h : OnlySession s (some token)) (now : ℤ) :
    let r := authVerifySession s (some token) now
    (∀ st, r.1 = .error st → OnlySession r.2 none) ∧
      ∀ user, r.1 = .ok user → OnlySession r.2 (some token) ∧
        ∀ action, authRoleAllows user.role action = true →
          HeldUntil r.2 token action (now + smAuthSessionSeconds) := by
  intro r
  rcases authVerifySession_cases h.whole token now with
    ⟨hno, hr⟩ | ⟨j, l, hl, hkey, ⟨-, herr, hs⟩ | ⟨-, hok, hs⟩⟩
  · refine ⟨fun _ _ => ?_, fun user hu => ?_⟩
    · show OnlySession (authVerifySession s (some token) now).2 none
      rw [hr]
      exact of_empty (h.absent hno)
    · have hu : (authVerifySession s (some token) now).1 = .ok user := hu
      rw [hr] at hu
      cases hu
  · refine ⟨fun _ _ => h.dropped hl hs, fun user hu => ?_⟩
    rw [herr] at hu
    cases hu
  · refine ⟨fun st hst => ?_, fun user hu => ?_⟩
    · rw [hok] at hst
      cases hst
    · have hholder : l.holder = user := Except.ok.inj (hok.symm.trans hu)
      have hothers : ∀ i, i ≠ j → r.2.table i = none := fun i hi => by
        rw [hs, Function.update_of_ne hi, h.slot hl i hi]
      have hslot : r.2.table j = some { l with expiry := now + smAuthSessionSeconds } := by
        rw [hs, Function.update_self]
      refine ⟨⟨j, hothers, fun l' hl' => ?_⟩, fun action hrole =>
        ⟨j, _, hothers, hslot, hkey, rfl, hholder ▸ hrole⟩⟩
      rw [hslot] at hl'
      cases hl'
      exact ⟨congrArg some hkey.symm, h.whole j l hl⟩

theorem changePassword (h : OnlySession s (some token)) (oldPassword newPassword : Str) (now : ℤ)
    (salt : Salt) (lockOk : Bool) (io : UserIo) :
    OnlySession (authChangePassword s (some token) (some oldPassword) (some newPassword) now salt
      lockOk io).2 (some token) := by
  have hverify := h.verify now
  simp only [authChangePassword]
  split
  case isTrue => exact h
  case isFalse =>
    generalize authVerifySession s (some token) now = r at hverify ⊢
    obtain ⟨st | caller, s'⟩ := r
    · exact of_empty (hverify.1 st rfl).empty
    · exact (hverify.2 caller rfl).1.congr (changePasswordLocked_table ..)

end OnlySession

/-- While the session is held, a call with it is live up to the expiry. -/
theorem HeldUntil.live_iff {c : StoreCall}
    (h : HeldUntil c.auth c.token c.action (c.authorizedAt + smAuthSessionSeconds)) :
    c.Live ↔ c.InTime := by
  obtain ⟨j, l, hnone, hl, hkey, hexp, hrole⟩ := h
  rw [c.live_iff, StoreCall.InTime, ← hexp]
  constructor
  · intro h
    obtain ⟨i, l', hl', -, hnow, -⟩ := h
    by_cases hi : i = j
    · rw [hi, hl] at hl'
      cases hl'
      exact hnow
    · rw [hnone i hi] at hl'
      cases hl'
  · intro hnow
    exact ⟨j, l, hl, hkey, hnow, hrole⟩

/-! ### What the program keeps -/

/-- The part of the state that is about access. -/
structure Access where
  auth : AuthState
  session : Option Session
  authorizedAt : ℤ
  calls : List StoreCall

def CliState.access (s : CliState) : Access := ⟨s.auth, s.session, s.authorizedAt, s.calls⟩

def Access.token (a : Access) : Option Str := a.session.map Session.token

/-- The sessions are those of a program with this token, and the calls made so
far were live as long as they were in time. -/
def Access.Ready (token : Option Str) (a : Access) : Prop :=
  OnlySession a.auth token ∧ ∀ c ∈ a.calls, c.Live ↔ c.InTime

/-- The invariant of the program between two actions. -/
def Access.Sound (a : Access) : Prop := a.Ready a.token

/-- Logged in with a token. -/
def Access.Holding (token : Str) (a : Access) : Prop := a.Sound ∧ a.token = some token

def Access.LoggedOut (a : Access) : Prop := a.Ready none ∧ a.session = none

/-- Authorized for an action. -/
def Access.Granted (token : Str) (action : SmAction) (a : Access) : Prop :=
  a.Sound ∧ HeldUntil a.auth token action (a.authorizedAt + smAuthSessionSeconds)

section Frame

theorem interact_leaves : Leaves CliState.access interact := fun _ => rfl

theorem print_leaves (text : Str) : Leaves CliState.access (print text) := fun _ => rfl

theorem puts_leaves (text : String) : Leaves CliState.access (puts text) := print_leaves _

theorem readLine_leaves (len : ℕ) : Leaves CliState.access (readLine len) := fun _ => rfl

theorem ask_leaves (prompt : String) (len : ℕ) : Leaves CliState.access (ask prompt len) :=
  Leaves.bind (puts_leaves _) fun _ => readLine_leaves _

theorem readMenuChoice_leaves : Leaves CliState.access readMenuChoice :=
  Leaves.bind (readLine_leaves _) fun _ => Leaves.pure

theorem readId_leaves : Leaves CliState.access readId :=
  Leaves.bind (readLine_leaves _) fun _ => Leaves.pure

theorem printSubscriber_leaves (sub : Subscriber) :
    Leaves CliState.access (printSubscriber sub) := fun _ => rfl

theorem query_leaves {α : Type} (f : Outside → SStrPool → SubscriberDb → α × SStrPool) :
    Leaves CliState.access (query f) := fun _ => rfl

end Frame

section Calls

variable {token : Str} {action : SmAction}

theorem Access.Holding.only {a : Access} (h : a.Holding token) :
    OnlySession a.auth (some token) := h.2 ▸ h.1.1

/-- The program stays logged in while the sessions change. -/
theorem Access.Holding.rest {a : Access} {auth : AuthState} {t : ℤ} (h : a.Holding token)
    (hauth : OnlySession auth (some token)) : Access.Sound ⟨auth, a.session, t, a.calls⟩ :=
  ⟨(h.2 : a.session.map Session.token = some token) ▸ hauth, h.1.2⟩

theorem Access.LoggedOut.sound {a : Access} (h : a.LoggedOut) : a.Sound := by
  have htoken : a.token = none := congrArg (Option.map Session.token) h.2
  rw [Access.Sound, htoken]
  exact h.1

/-- A successful authorization holds the session from now on. -/
theorem authorize_triple : Triple (fun s => s.access.Holding token) (authorize token action)
    fun r s => (∀ st, r = .error st → s.access.Sound) ∧
      ∀ user, r = .ok user → s.access.Granted token action := by
  intro s hs
  obtain ⟨herror, hok⟩ := hs.only.verify (s.outside s.tick).now
  have hresult : (authorize token action s).1 =
      checkRole action (authVerifySession s.auth (some token) (s.outside s.tick).now).1 := rfl
  have hauth : (authorize token action s).2.auth =
      (authVerifySession s.auth (some token) (s.outside s.tick).now).2 := rfl
  have htime : (authorize token action s).2.authorizedAt =
      if (authorize token action s).1.isOk then (s.outside s.tick).now else s.authorizedAt := rfl
  have hsound : OnlySession (authorize token action s).2.auth (some token) →
      (authorize token action s).2.access.Sound := hs.rest
  generalize authorize token action s = r at hresult hauth htime hsound ⊢
  have herror : ∀ st, (authVerifySession s.auth (some token) (s.outside s.tick).now).1 =
      .error st → OnlySession r.2.auth (some token) := fun st hst =>
    hauth ▸ .of_empty (herror st hst).empty
  cases hv : (authVerifySession s.auth (some token) (s.outside s.tick).now).1 with
  | error st =>
    rw [hv] at hresult
    refine ⟨fun _ _ => hsound (herror st hv), fun user hr => ?_⟩
    rw [hresult] at hr
    cases hr
  | ok user =>
    obtain ⟨honly, hheld⟩ := hok user hv
    refine ⟨fun _ _ => hsound (hauth ▸ honly), fun user' hr => ⟨hsound (hauth ▸ honly), ?_⟩⟩
    cases hrole : authRoleAllows user.role action with
    | true =>
      have hnow : r.2.authorizedAt = (s.outside s.tick).now := by
        rw [htime, hr]
        rfl
      show HeldUntil r.2.auth token action (r.2.authorizedAt + smAuthSessionSeconds)
      rw [hnow, hauth]
      exact hheld action hrole
    | false =>
      rw [hresult, hv, checkRole, hrole] at hr
      cases hr

theorem change_triple {α : Type}
    (f : Outside → SStrPool → SubscriberDb → Disk Str → α × SStrPool × SubscriberDb × Disk Str) :
    Triple (fun s => s.access.Granted token action) (change token action f)
      fun _ s => s.access.Sound := by
  intro s hs
  obtain ⟨⟨honly, hcalls⟩, hheld⟩ := hs
  refine ⟨honly, fun c hc => ?_⟩
  cases List.mem_append.mp hc with
  | inl hold => exact hcalls c hold
  | inr hnew =>
    rw [List.mem_singleton.mp hnew]
    exact HeldUntil.live_iff hheld

theorem setSession_triple (session : Option Session) :
    Triple (fun s => s.access.Ready (session.map Session.token))
      (modify fun s => { s with session := session } : Cli Unit) fun _ s => s.access.Sound :=
  fun _ hs => hs

theorem login_triple (username password : Str) :
    Triple (fun s => s.access.LoggedOut) (login username password) fun r s =>
      (∀ st, r = .error st → s.access.LoggedOut) ∧
        ∀ session, r = .ok session → s.access.Ready (some session.token) := by
  intro s hs
  obtain ⟨⟨honly, hcalls⟩, hnone⟩ := hs
  obtain ⟨herror, hok⟩ := honly.login username password
    ⟨(s.outside s.tick).now, (s.outside s.tick).salt, (s.outside s.tick).token,
      (s.outside s.tick).recoverySave, (s.outside s.tick).userSave⟩
  exact ⟨fun st hst => ⟨⟨herror st hst, hcalls⟩, hnone⟩,
    fun session hr => ⟨hok session hr, hcalls⟩⟩

theorem logout_triple : Triple (fun s => s.access.Holding token) (logout token)
    fun _ s => s.access.Ready none := fun _ hs => ⟨hs.only.logout, hs.1.2⟩

theorem verifySession_triple :
    Triple (fun s => s.access.Holding token) (verifySession token) fun r s =>
      (∀ st, r = .error st → s.access.Ready none) ∧
        ∀ user, r = .ok user → s.access.Sound := by
  intro s hs
  obtain ⟨herror, hok⟩ := hs.only.verify (s.outside s.tick).now
  exact ⟨fun st hst => ⟨herror st hst, hs.1.2⟩,
    fun user hr => (hs.rest (hok user hr).1 : Access.Sound ⟨_, s.session, _, s.calls⟩)⟩

theorem changePassword_triple (oldPassword newPassword : Str) :
    Keeps (fun s => s.access.Holding token) (changePassword token oldPassword newPassword) :=
  fun s hs => ⟨hs.rest (hs.only.changePassword oldPassword newPassword (s.outside s.tick).now
    (s.outside s.tick).salt (s.outside s.tick).lockOk (s.outside s.tick).userSave), hs.2⟩

end Calls

/-! ### Actions -/

section Actions

variable {token : Str} {action : SmAction}

/-- A program that leaves access alone keeps what is known of it. -/
theorem leaves_sound {α : Type} {m : Cli α} (hm : Leaves CliState.access m) :
    Triple (fun s => s.access.Granted token action) m fun _ s => s.access.Sound :=
  (hm.triple (Access.Granted token action)).conseq (fun _ hs => hs) fun _ _ hs => hs.1

theorem granted_bind {α β : Type} {m : Cli α} {f : α → Cli β} (hm : Leaves CliState.access m)
    (hf : ∀ a, Triple (fun s => s.access.Granted token action) (f a) fun _ s => s.access.Sound) :
    Triple (fun s => s.access.Granted token action) (m >>= f) fun _ s => s.access.Sound :=
  Triple.bind (hm.triple (Access.Granted token action)) hf

/-- The call and what is printed of its result. -/
theorem change_bind {α : Type}
    {f : Outside → SStrPool → SubscriberDb → Disk Str → α × SStrPool × SubscriberDb × Disk Str}
    {k : α → Cli Unit} (hk : ∀ a, Leaves CliState.access (k a)) :
    Triple (fun s => s.access.Granted token action) (change token action f >>= k)
      fun _ s => s.access.Sound :=
  Triple.bind (change_triple f) fun a => (hk a).triple Access.Sound

/-- An action is refused, or goes on with what it was authorized for. -/
theorem authorize_bind {k : Except SmStatus AuthUser → Cli Unit}
    (hrefused : ∀ st, Leaves CliState.access (k (.error st)))
    (hgranted : ∀ user, Triple (fun s => s.access.Granted token action) (k (.ok user))
      fun _ s => s.access.Sound) :
    Triple (fun s => s.access.Holding token) (authorize token action >>= k)
      fun _ s => s.access.Sound := by
  refine Triple.bind authorize_triple fun r => ?_
  cases r with
  | error st =>
    exact ((hrefused st).triple Access.Sound).conseq (fun s hs => hs.1 st rfl) fun _ _ hs => hs
  | ok user => exact (hgranted user).conseq (fun s hs => hs.2 user rfl) fun _ _ hs => hs

theorem actionAdd_sound : Triple (fun s => s.access.Holding token) (actionAdd token)
    fun _ s => s.access.Sound := by
  refine authorize_bind (fun _ => puts_leaves _) fun _ => ?_
  apply granted_bind (ask_leaves _ _)
  intro imsi
  apply granted_bind (ask_leaves _ _)
  intro msisdn
  apply granted_bind (ask_leaves _ _)
  intro name
  apply granted_bind (ask_leaves _ _)
  intro region
  apply granted_bind (ask_leaves _ _)
  intro plan
  exact change_bind fun _ => print_leaves _

theorem searchTyped_leaves (how : ℤ) : Leaves CliState.access (searchTyped how) := by
  apply Leaves.ite
  · exact Leaves.bind (ask_leaves _ _) fun _ => query_leaves _
  · apply Leaves.ite
    · exact Leaves.bind (ask_leaves _ _) fun _ => query_leaves _
    · exact Leaves.bind (puts_leaves _) fun _ => Leaves.bind readId_leaves fun _ => query_leaves _

theorem actionSearch_sound : Triple (fun s => s.access.Holding token) (actionSearch token)
    fun _ s => s.access.Sound := by
  refine authorize_bind (fun _ => puts_leaves _) fun _ => leaves_sound ?_
  refine Leaves.bind (puts_leaves _) fun _ => Leaves.bind readMenuChoice_leaves fun how => ?_
  apply Leaves.bind (searchTyped_leaves how)
  intro found
  cases found with
  | ok sub => exact Leaves.bind (printSubscriber_leaves sub) fun _ => query_leaves _
  | error st => exact print_leaves _

theorem actionUpdate_sound : Triple (fun s => s.access.Holding token) (actionUpdate token)
    fun _ s => s.access.Sound := by
  refine authorize_bind (fun _ => puts_leaves _) fun _ => ?_
  refine granted_bind (puts_leaves _) fun _ => granted_bind readId_leaves fun id => ?_
  apply granted_bind (query_leaves _)
  intro found
  cases found with
  | error st => exact leaves_sound (print_leaves _)
  | ok existing =>
    apply granted_bind (puts_leaves _)
    intro _
    apply granted_bind (printSubscriber_leaves existing)
    intro _
    apply granted_bind (query_leaves _)
    intro _
    apply granted_bind (ask_leaves _ _)
    intro name
    apply granted_bind (ask_leaves _ _)
    intro region
    apply granted_bind (ask_leaves _ _)
    intro plan
    apply granted_bind (ask_leaves _ _)
    intro statusBuf
    exact change_bind fun _ => print_leaves _

theorem actionDelete_sound : Triple (fun s => s.access.Holding token) (actionDelete token)
    fun _ s => s.access.Sound := by
  refine authorize_bind (fun _ => puts_leaves _) fun _ => ?_
  refine granted_bind (puts_leaves _) fun _ => granted_bind readId_leaves fun id => ?_
  exact change_bind fun _ => print_leaves _

theorem actionList_sound : Triple (fun s => s.access.Holding token) (actionList token)
    fun _ s => s.access.Sound := by
  refine authorize_bind (fun _ => puts_leaves _) fun _ => leaves_sound ?_
  refine Leaves.bind (query_leaves _) fun _ => Leaves.bind (print_leaves _) fun _ => ?_
  exact Leaves.bind (Leaves.forM printSubscriber_leaves _) fun _ => query_leaves _

theorem actionReport_sound : Triple (fun s => s.access.Holding token) (actionReport token)
    fun _ s => s.access.Sound := by
  refine authorize_bind (fun _ => puts_leaves _) fun _ => leaves_sound ?_
  refine Leaves.bind (query_leaves _) fun _ => Leaves.bind (puts_leaves _) fun _ => ?_
  refine Leaves.bind (print_leaves _) fun _ => Leaves.bind (puts_leaves _) fun _ => ?_
  refine Leaves.bind (Leaves.forM (fun line => ?_) _) fun _ => puts_leaves _
  exact Leaves.bind (query_leaves _) fun _ => print_leaves _

theorem actionBackup_sound : Triple (fun s => s.access.Holding token) (actionBackup token)
    fun _ s => s.access.Sound := by
  refine authorize_bind (fun _ => puts_leaves _) fun _ => ?_
  exact change_bind fun _ => print_leaves _

theorem actionRestore_sound : Triple (fun s => s.access.Holding token) (actionRestore token)
    fun _ s => s.access.Sound := by
  refine authorize_bind (fun _ => puts_leaves _) fun _ => ?_
  apply granted_bind (ask_leaves _ _)
  intro path
  exact change_bind fun _ => print_leaves _

theorem actionViewLogs_sound : Triple (fun s => s.access.Holding token) (actionViewLogs token)
    fun _ s => s.access.Sound := by
  refine authorize_bind (fun _ => puts_leaves _) fun _ => leaves_sound ?_
  apply Leaves.bind interact_leaves
  intro o
  cases o.log with
  | none => exact puts_leaves _
  | some content =>
    exact Leaves.bind (print_leaves _) fun _ => Leaves.bind (print_leaves _) fun _ => puts_leaves _

theorem actionMemoryStats_sound :
    Triple (fun s => s.access.Holding token) (actionMemoryStats token)
      fun _ s => s.access.Sound := by
  refine authorize_bind (fun _ => puts_leaves _) fun _ => leaves_sound ?_
  exact Leaves.bind (query_leaves _) fun _ => print_leaves _

theorem actionSharedStringStats_sound :
    Triple (fun s => s.access.Holding token) (actionSharedStringStats token)
      fun _ s => s.access.Sound := by
  refine authorize_bind (fun _ => puts_leaves _) fun _ => leaves_sound ?_
  apply Leaves.bind (query_leaves _)
  intro stats
  cases stats with
  | none => exact puts_leaves _
  | some stats => exact print_leaves _

theorem actionChangePassword_sound :
    Triple (fun s => s.access.Holding token) (actionChangePassword token)
      fun _ s => s.access.Sound := by
  have hleaves : ∀ {α : Type} {m : Cli α}, Leaves CliState.access m →
      Keeps (fun s => s.access.Holding token) m := fun hm => hm.triple (Access.Holding token)
  refine Triple.conseq (P := fun s => s.access.Holding token)
    (Q := fun _ s => s.access.Holding token) ?_ (fun _ hs => hs) fun _ _ hs => hs.1
  apply Keeps.bind (hleaves (puts_leaves _))
  intro _
  apply Keeps.bind (hleaves (readLine_leaves _))
  intro oldPw
  apply Keeps.bind (hleaves (puts_leaves _))
  intro _
  apply Keeps.bind (hleaves (readLine_leaves _))
  intro newPw
  apply Keeps.bind (hleaves (puts_leaves _))
  intro _
  apply Keeps.bind (hleaves (readLine_leaves _))
  intro confirmPw
  apply Triple.ite
  · exact fun _ => hleaves (puts_leaves _)
  · exact fun _ => Keeps.bind (changePassword_triple oldPw newPw) fun _ =>
      hleaves (print_leaves _)

end Actions

theorem Access.Sound.calls_live {s : CliState} (h : s.access.Sound) :
    ∀ c ∈ s.calls, c.Live ↔ c.InTime := h.2

/-! ### Menu -/

theorem loginAttempts_sound (attempts : ℕ) :
    Triple (fun s => s.access.LoggedOut) (loginAttempts attempts) fun _ s => s.access.Sound := by
  have hleaves : ∀ {α : Type} {m : Cli α}, Leaves CliState.access m →
      Keeps (fun s => s.access.LoggedOut) m := fun hm => hm.triple Access.LoggedOut
  induction attempts with
  | zero =>
    exact (hleaves (puts_leaves _)).conseq (fun _ hs => hs) fun _ _ hs => hs.sound
  | succ attempts ih =>
    refine Triple.bind (hleaves (ask_leaves _ _)) fun username => ?_
    refine Triple.bind (hleaves (puts_leaves _)) fun _ => ?_
    refine Triple.bind (hleaves (readLine_leaves _)) fun password => ?_
    refine Triple.bind (login_triple username password) fun r => ?_
    cases r with
    | ok session =>
      refine Triple.bind ((setSession_triple (some session)).conseq
        (fun s hs => hs.2 session rfl) fun _ _ hs => hs) fun _ => ?_
      exact (print_leaves _).triple Access.Sound
    | error st =>
      refine Triple.bind ((hleaves (print_leaves _)).conseq (fun s hs => hs.1 st rfl)
        fun _ _ hs => hs) fun _ => ih

theorem actionLogin_sound : Keeps (fun s => s.access.Sound) actionLogin := by
  apply Triple.get
  intro s hs
  cases hsession : s.session with
  | some session =>
    exact ((print_leaves _).triple Access.Sound).conseq (fun t ht => ht ▸ hs) fun _ _ ht => ht
  | none =>
    refine (loginAttempts_sound 3).conseq (fun t ht => ?_) fun _ _ ht => ht
    have htoken : s.access.token = none := congrArg (Option.map Session.token) hsession
    rw [Access.Sound, htoken] at hs
    exact ht ▸ ⟨hs, hsession⟩

/-- The program is logged in with the token of its session. -/
theorem Access.Sound.holding {s : CliState} {session : Session} (hs : s.access.Sound)
    (hsession : s.session = some session) : s.access.Holding session.token :=
  ⟨hs, congrArg (Option.map Session.token) hsession⟩

theorem actionLogout_sound : Keeps (fun s => s.access.Sound) actionLogout := by
  apply Triple.get
  intro s hs
  cases hsession : s.session with
  | none =>
    exact ((puts_leaves _).triple Access.Sound).conseq (fun t ht => ht ▸ hs) fun _ _ ht => ht
  | some session =>
    refine Triple.bind (logout_triple.conseq (fun t ht => ht ▸ hs.holding hsession)
      fun _ _ ht => ht) fun _ => ?_
    refine Triple.bind ((print_leaves _).triple (Access.Ready none)) fun _ => ?_
    exact setSession_triple none

theorem requireLogin_sound {action : Str → Cli Unit}
    (haction : ∀ token, Triple (fun s => s.access.Holding token) (action token)
      fun _ s => s.access.Sound) :
    Keeps (fun s => s.access.Sound) (requireLogin action) := by
  apply Triple.get
  intro s hs
  cases hsession : s.session with
  | none =>
    exact ((puts_leaves _).triple Access.Sound).conseq (fun t ht => ht ▸ hs) fun _ _ ht => ht
  | some session =>
    exact (haction session.token).conseq (fun t ht => ht ▸ hs.holding hsession) fun _ _ ht => ht

theorem recheckSession_sound : Keeps (fun s => s.access.Sound) recheckSession := by
  apply Triple.get
  intro s hs
  cases hsession : s.session with
  | none => exact Triple.pure fun t ht => ht ▸ hs
  | some session =>
    refine Triple.bind (verifySession_triple.conseq (fun t ht => ht ▸ hs.holding hsession)
      fun _ _ ht => ht) fun r => ?_
    cases r with
    | ok user => exact Triple.pure fun t ht => ht.2 user rfl
    | error st =>
      refine Triple.bind (((puts_leaves _).triple (Access.Ready none)).conseq
        (fun t ht => ht.1 st rfl) fun _ _ ht => ht) fun _ => ?_
      exact setSession_triple none

theorem menuAction_sound (choice : ℤ) : Keeps (fun s => s.access.Sound) (menuAction choice) := by
  have hthen : ∀ {m : Cli Unit} {b : Bool}, Keeps (fun s => s.access.Sound) m →
      Keeps (fun s => s.access.Sound) (m >>= fun _ => (pure b : Cli Bool)) := fun hm =>
    Keeps.bind hm fun _ => Keeps.pure
  have hputs : ∀ text, Keeps (fun s => s.access.Sound) (puts text) := fun text =>
    (puts_leaves text).triple Access.Sound
  refine Triple.ite (fun _ => hthen actionLogin_sound) fun _ => ?_
  refine Triple.ite (fun _ => hthen (requireLogin_sound fun _ => actionAdd_sound)) fun _ => ?_
  refine Triple.ite (fun _ => hthen (requireLogin_sound fun _ => actionSearch_sound)) fun _ => ?_
  refine Triple.ite (fun _ => hthen (requireLogin_sound fun _ => actionUpdate_sound)) fun _ => ?_
  refine Triple.ite (fun _ => hthen (requireLogin_sound fun _ => actionDelete_sound)) fun _ => ?_
  refine Triple.ite (fun _ => hthen (requireLogin_sound fun _ => actionList_sound)) fun _ => ?_
  refine Triple.ite (fun _ => hthen (requireLogin_sound fun _ => actionReport_sound)) fun _ => ?_
  refine Triple.ite (fun _ => hthen (requireLogin_sound fun _ => actionBackup_sound)) fun _ => ?_
  refine Triple.ite (fun _ => hthen (requireLogin_sound fun _ => actionRestore_sound)) fun _ => ?_
  refine Triple.ite (fun _ => hthen (requireLogin_sound fun _ => actionViewLogs_sound))
    fun _ => ?_
  refine Triple.ite (fun _ => hthen (requireLogin_sound fun _ => actionMemoryStats_sound))
    fun _ => ?_
  refine Triple.ite (fun _ => hthen (requireLogin_sound fun _ => actionSharedStringStats_sound))
    fun _ => ?_
  refine Triple.ite (fun _ => hthen (requireLogin_sound fun _ => actionChangePassword_sound))
    fun _ => ?_
  refine Triple.ite (fun _ => hthen actionLogout_sound) fun _ => ?_
  exact Triple.ite (fun _ => hthen (hputs _)) fun _ => hthen (hputs _)

theorem runMenu_sound : Keeps (fun s => s.access.Sound) runMenu := by
  refine Keeps.bind recheckSession_sound fun _ => Keeps.get fun s _ => ?_
  refine Triple.ite (fun _ => Keeps.pure) fun _ => ?_
  apply Keeps.bind ((puts_leaves _).triple Access.Sound)
  intro _
  apply Keeps.bind (readMenuChoice_leaves.triple Access.Sound)
  intro choice
  apply Keeps.get
  intro s _
  exact Triple.ite (fun _ => Keeps.pure) fun _ => menuAction_sound choice

theorem menuRounds_sound (n : ℕ) : Keeps (fun s => s.access.Sound) (menuRounds n) := by
  induction n with
  | zero => exact Keeps.pure
  | succ n ih =>
    exact Keeps.bind runMenu_sound fun _ => Triple.ite (fun _ => ih) fun _ => Keeps.pure

/-- A program that starts after `auth_init` has no session and has made no call. -/
theorem CliState.start_sound {s auth : AuthState} {path : Str} {input : InitInput} {st : SmStatus}
    (h : authInit s (some path) input = (st, auth)) (strs : SStrPool) (db : SubscriberDb)
    (disk : Disk Str) (stdin : Str) (outside : ℕ → Outside) :
    (CliState.start auth strs db disk stdin outside).access.Sound := by
  have htable : auth.table = fun _ => none := by
    rw [← authInit_table s path input, h]
  refine ⟨OnlySession.of_empty fun j => ?_, fun c hc => absurd hc List.not_mem_nil⟩
  exact congrFun htable j

/-- In every run of the program each call is made with a live session exactly if no
more than the lifetime of a session has passed since its authorization. -/
theorem cli_calls_live_iff {s auth : AuthState} {path : Str} {input : InitInput}
    (h : authInit s (some path) input = (.ok, auth)) (strs : SStrPool) (db : SubscriberDb)
    (disk : Disk Str) (stdin : Str) (outside : ℕ → Outside) (n : ℕ) :
    ∀ c ∈ (menuRounds n (CliState.start auth strs db disk stdin outside)).2.calls,
      c.Live ↔ c.now ≤ c.authorizedAt + smAuthSessionSeconds :=
  (menuRounds_sound n _ (CliState.start_sound h strs db disk stdin outside)).calls_live

/-! ### A login and an add -/

def plainInit : InitInput :=
  ⟨true, fun _ => ([], []), Vector.replicate _ 0,
    ⟨Vector.replicate _ 0, Vector.replicate _ 0⟩, ⟨Vector.replicate _ 0, Vector.replicate _ 0⟩,
    UserIo.all⟩

def loadedAdmin : AuthState :=
  (authInit (AuthState.start (adminFile 48 (lit "0"))) (some (lit "u.csv")) plainInit).2

theorem loadedAdmin_ok : authInit (AuthState.start (adminFile 48 (lit "0"))) (some (lit "u.csv"))
    plainInit = (.ok, loadedAdmin) := Prod.ext (by decide +kernel) rfl

/-- Nothing fails, and only the clock moves. -/
def calmOutside (now : ℕ → ℤ) : ℕ → Outside := fun k =>
  ⟨now k, fun _ => 0, false, Alloc.all, Vector.replicate _ 0, Vector.replicate _ 0, true,
    UserIo.all, UserIo.all, SaveIo.all, true, none, none⟩

def typedAdd (db : SubscriberDb) (now : ℕ → ℤ) : CliState :=
  (menuRounds 2 (.start loadedAdmin (sstrPoolInit SStrPool.start 16 Alloc.all).2 db
    (Disk.start fun _ => none)
    (lit "1\nadmin\nx\n2\n310150000000001\n14155550101\nAnn\nNorth\nGold\n")
    (calmOutside now))).2

theorem cli_calls_live_ann : ∃ db, subdbCreate Alloc.all = .ok db ∧
    ∃ c ∈ (typedAdd db fun _ => 7).calls, c.action = .subAdd ∧ c.Live := by
  have hrun : ∃ db, subdbCreate Alloc.all = .ok db ∧ ((typedAdd db fun _ => 7).calls.any fun c =>
      c.action = .subAdd ∧ c.now ≤ c.authorizedAt + smAuthSessionSeconds) = true :=
    ⟨_, rfl, by decide +kernel⟩
  obtain ⟨db, hdb, hany⟩ := hrun
  have hlive : ∀ c ∈ (typedAdd db fun _ => 7).calls,
      c.Live ↔ c.now ≤ c.authorizedAt + smAuthSessionSeconds := by
    unfold typedAdd
    exact cli_calls_live_iff loadedAdmin_ok _ _ _ _ _ _
  obtain ⟨c, hc, hcall⟩ := List.any_eq_true.mp hany
  simp only [decide_eq_true_eq] at hcall
  exact ⟨db, hdb, c, hc, hcall.1, (hlive c hc).mpr hcall.2⟩

/-- A long pause before the fields of the subscriber are typed. -/
def longPause (k : ℕ) : ℤ := if k < 7 then 0 else 5000

/-- The session has expired when the last field is typed, and the record is added. -/
theorem cli_add_expired : ∃ db, subdbCreate Alloc.all = .ok db ∧
    (∃ c ∈ (typedAdd db longPause).calls, c.action = .subAdd ∧ ¬ c.Live) ∧
      subdbCount (typedAdd db longPause).db = 1 := by
  have hrun : ∃ db, subdbCreate Alloc.all = .ok db ∧ ((typedAdd db longPause).calls.any fun c =>
      c.action = .subAdd ∧ ¬ c.now ≤ c.authorizedAt + smAuthSessionSeconds) = true ∧
        subdbCount (typedAdd db longPause).db = 1 :=
    ⟨_, rfl, by decide +kernel, by decide +kernel⟩
  obtain ⟨db, hdb, hany, hcount⟩ := hrun
  have hsound : (typedAdd db longPause).access.Sound := by
    unfold typedAdd
    exact menuRounds_sound 2 _ (CliState.start_sound loadedAdmin_ok _ _ _ _ _)
  obtain ⟨c, hc, hcall⟩ := List.any_eq_true.mp hany
  simp only [decide_eq_true_eq] at hcall
  exact ⟨db, hdb, ⟨c, hc, hcall.1, fun h => hcall.2 ((hsound.calls_live c hc).mp h)⟩, hcount⟩

end SubscriberMgmt
