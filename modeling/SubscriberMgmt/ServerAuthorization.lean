import SubscriberMgmt.Server
import SubscriberMgmt.AuthLogin

/-!
# Which commands have an effect (`server.c:113-278`)

Whatever the interleaving of connections, a handler adds, deletes or sends
subscriber data only behind the session of its connection's latest LOGIN.
-/

namespace SubscriberMgmt
open CText Lease

/-! ### Effects -/

def Reply.effect : Reply → Option SmAction
  | .added _ => some .subAdd
  | .deleted => some .subDelete
  | .found _ => some .subSearch
  | .count _ => some .subList
  | .row _ => some .subList
  | _ => none

/-- The roles of `auth_role_allows` for the actions of the server. -/
def RoleMay (role : SmRole) : SmAction → Prop
  | .subAdd => role = .admin ∨ role = .operator
  | .subDelete => role = .admin
  | .subSearch | .subList => role = .admin ∨ role = .operator ∨ role = .viewer
  | _ => False

theorem Handler.roleMay (h : Handler) {role : SmRole}
    (hallow : authRoleAllows role h.action = true) : RoleMay role h.action := by
  cases h <;> cases role <;> simp_all [Handler.action, authRoleAllows, RoleMay]

theorem Handler.run_effect (h : Handler) (strs : SStrPool) (db : SubscriberDb) (now : Int64)
    (a : Alloc) {reply : Reply} {action : SmAction} (hr : reply ∈ (h.run strs db now a).2.2)
    (he : reply.effect = some action) : action = h.action := by
  cases h with
  | add args =>
    simp only [Handler.run, cmdAdd] at hr
    split at hr
    · rw [List.mem_singleton.mp hr] at he
      cases he
    · rw [List.mem_singleton.mp hr] at he
      split at he <;> cases he
      rfl
  | search args =>
    simp only [Handler.run, cmdSearch] at hr
    split at hr
    · rw [List.mem_singleton.mp hr] at he
      cases he
    · split at hr <;> rw [List.mem_singleton.mp hr] at he <;> cases he
      rfl
  | delete args =>
    simp only [Handler.run, cmdDelete] at hr
    split at hr
    · rw [List.mem_singleton.mp hr] at he
      cases he
    · rw [List.mem_singleton.mp hr] at he
      split at he <;> cases he
      rfl
  | list =>
    simp only [Handler.run, cmdList] at hr
    split at hr
    · rw [List.mem_singleton.mp hr] at he
      cases he
    · simp only [List.cons_append, List.mem_cons, List.mem_append, List.mem_map,
        List.not_mem_nil, or_false] at hr
      rcases hr with rfl | ⟨sub, -, rfl⟩ | rfl <;> cases he <;> rfl

/-! ### The log -/

def leasesOf (log : List LogEntry) : List (Event Str AuthUser) :=
  log.filterMap fun
    | .lease e => some e
    | _ => none

@[simp] theorem leasesOf_append (log log' : List LogEntry) :
    leasesOf (log ++ log') = leasesOf log ++ leasesOf log' := List.filterMap_append

@[simp] theorem leasesOf_map_lease (es : List (Event Str AuthUser)) :
    leasesOf (es.map .lease) = es := by
  induction es with
  | nil => rfl
  | cons e es ih => exact congrArg (e :: ·) ih

@[simp] theorem leasesOf_cons_lease (e : Event Str AuthUser) (log : List LogEntry) :
    leasesOf (.lease e :: log) = e :: leasesOf log := rfl

@[simp] theorem leasesOf_cons_connected (c : ℕ) (log : List LogEntry) :
    leasesOf (.connected c :: log) = leasesOf log := rfl

@[simp] theorem leasesOf_cons_command (c : ℕ) (log : List LogEntry) :
    leasesOf (.command c :: log) = leasesOf log := rfl

@[simp] theorem leasesOf_cons_loggedIn (c : ℕ) (session : Session) (account : Option UserRecord)
    (log : List LogEntry) : leasesOf (.loggedIn c session account :: log) = leasesOf log := rfl

@[simp] theorem leasesOf_cons_granted (c : ℕ) (token : Str) (action : SmAction) (user : AuthUser)
    (now : ℤ) (log : List LogEntry) :
    leasesOf (.granted c token action user now :: log) = leasesOf log := rfl

@[simp] theorem leasesOf_cons_reply (c : ℕ) (reply : Reply) (log : List LogEntry) :
    leasesOf (.reply c reply :: log) = leasesOf log := rfl

@[simp] theorem leasesOf_nil : leasesOf [] = [] := rfl

theorem leasesOf_map_reply (c : ℕ) (replies : List Reply) :
    leasesOf (replies.map (.reply c)) = [] := by
  induction replies with
  | nil => rfl
  | cons r replies ih => exact ih

def LogEntry.conn : LogEntry → Option ℕ
  | .connected c => some c
  | .command c => some c
  | .loggedIn c _ _ => some c
  | .granted c _ _ _ _ => some c
  | .lease _ => none
  | .reply c _ => some c

/-- The entries of a line that does nothing. -/
def LogEntry.Plain (c : ℕ) : LogEntry → Prop
  | .command c' => c' = c
  | .reply c' _ => c' = c
  | _ => False

/-- Entries after which an earlier LOGIN of the connection is not the latest. -/
def LogEntry.Opens (c : ℕ) : LogEntry → Prop
  | .connected c' => c' = c
  | .loggedIn c' _ _ => c' = c
  | _ => False

theorem LogEntry.Plain.conn_eq {c : ℕ} {e : LogEntry} (h : e.Plain c) : e.conn = some c := by
  cases e <;> simp_all [LogEntry.Plain, LogEntry.conn]

theorem LogEntry.Plain.not_opens {c : ℕ} {e : LogEntry} (h : e.Plain c) (c' : ℕ) :
    ¬ e.Opens c' := by
  cases e <;> simp_all [LogEntry.Plain, LogEntry.Opens]

theorem leasesOf_plain {c : ℕ} {out : List LogEntry} (hout : ∀ e ∈ out, e.Plain c) :
    leasesOf out = [] := by
  apply List.filterMap_eq_nil_iff.mpr
  intro e he
  have hplain := hout e he
  cases e <;> simp_all [LogEntry.Plain]

theorem LogEntry.Opens.conn_eq {c : ℕ} {e : LogEntry} (h : e.Opens c) : e.conn = some c := by
  cases e <;> simp_all [LogEntry.Opens, LogEntry.conn]

/-- The latest successful LOGIN of a connection opened `session`, for `account`. -/
def LatestLogin (log : List LogEntry) (c : ℕ) (session : Session) (account : UserRecord) : Prop :=
  ∃ before after, log = before ++ .loggedIn c session (some account) :: after ∧
    ∀ e ∈ after, ¬ e.Opens c

/-- In the latest command of the connection, `auth_authorize` found the session
of its latest successful LOGIN, neither logged out nor expired, with a role that
may do `action` and that is the role of the account that logged in. -/
def Authorized (log : List LogEntry) (c : ℕ) (action : SmAction) : Prop :=
  ∃ before session account now after,
    log = before ++ .command c :: .granted c session.token action session.user now :: after ∧
    (∀ e ∈ after, e ≠ .command c) ∧ LatestLogin before c session account ∧
    (∃ last, Held (leasesOf before) session.token session.user last ∧
      now ≤ last + smAuthSessionSeconds) ∧
    RoleMay session.user.role action ∧ session.user.role = account.role

def LoggedIn (log : List LogEntry) (c : ℕ) (token : Str) : Prop :=
  ∃ session account now, LatestLogin log c session account ∧ session.token = token ∧
    session.user.role = account.role ∧
    Event.issued session.token session.user now ∈ leasesOf log

section Append

variable {log out : List LogEntry} {c : ℕ}

theorem LatestLogin.append {session : Session} {account : UserRecord}
    (h : LatestLogin log c session account) (hout : ∀ e ∈ out, ¬ e.Opens c) :
    LatestLogin (log ++ out) c session account := by
  obtain ⟨before, after, rfl, hafter⟩ := h
  refine ⟨before, after ++ out, by simp, fun e he => ?_⟩
  rcases List.mem_append.mp he with he | he
  · exact hafter e he
  · exact hout e he

theorem LoggedIn.append {token : Str} (h : LoggedIn log c token)
    (hout : ∀ e ∈ out, ¬ e.Opens c) : LoggedIn (log ++ out) c token := by
  obtain ⟨session, account, now, hlogin, htoken, hrole, hissued⟩ := h
  refine ⟨session, account, now, hlogin.append hout, htoken, hrole, ?_⟩
  rw [leasesOf_append]
  exact List.mem_append_left _ hissued

theorem Authorized.append {action : SmAction} (h : Authorized log c action)
    (hout : ∀ e ∈ out, e ≠ .command c) : Authorized (log ++ out) c action := by
  obtain ⟨before, session, account, now, after, rfl, hafter, hrest⟩ := h
  refine ⟨before, session, account, now, after ++ out, by simp, fun e he => ?_, hrest⟩
  rcases List.mem_append.mp he with he | he
  · exact hafter e he
  · exact hout e he

end Append

/-! ### The invariant -/

structure ServerInv (s : ServerState) (log : List LogEntry) : Prop where
  sessions : ∃ times, SessionsInv s.auth (leasesOf log) times
  login : ∀ c client, s.clients c = some client → client.loggedIn = true →
    LoggedIn log c client.token.chars
  running : ∀ c client h, s.clients c = some client → client.running = some h →
    Authorized log c h.action

namespace ServerInv

variable {s : ServerState} {log : List LogEntry}

theorem start (files : Str → Option Str) (strs : SStrPool) (db : SubscriberDb) :
    ServerInv (ServerState.start files strs db) [] :=
  ⟨⟨[], SessionsInv.start files⟩, fun _ _ h => (by cases h), fun _ _ _ h => (by cases h)⟩

theorem update (h : ServerInv s log) {s' : ServerState} {out : List LogEntry} (c : ℕ)
    (x : Option Client) (hs : ∃ times, SessionsInv s'.auth (leasesOf (log ++ out)) times)
    (hclients : s'.clients = Function.update s.clients c x)
    (hout : ∀ e ∈ out, e.conn = some c ∨ e.conn = none)
    (hlogin : ∀ client, x = some client → client.loggedIn = true →
      LoggedIn (log ++ out) c client.token.chars)
    (hrun : ∀ client k, x = some client → client.running = some k →
      Authorized (log ++ out) c k.action) : ServerInv s' (log ++ out) := by
  have hother : ∀ c', c' ≠ c → ∀ e ∈ out, e.conn ≠ some c' := by
    intro c' hc e he heq
    rcases hout e he with h1 | h1 <;> rw [heq] at h1 <;> cases h1
    exact hc rfl
  refine ⟨hs, fun c' client hc' hin => ?_, fun c' client k hc' hk => ?_⟩
  · rw [hclients] at hc'
    by_cases hc : c' = c
    · subst hc
      rw [Function.update_self] at hc'
      exact hlogin client hc' hin
    · rw [Function.update_of_ne hc] at hc'
      exact (h.login c' client hc' hin).append fun e he ho => hother c' hc e he ho.conn_eq
  · rw [hclients] at hc'
    by_cases hc : c' = c
    · subst hc
      rw [Function.update_self] at hc'
      exact hrun client k hc' hk
    · rw [Function.update_of_ne hc] at hc'
      refine (h.running c' client k hc' hk).append fun e he heq => hother c' hc e he ?_
      rw [heq]
      rfl

theorem quiet (h : ServerInv s log) {c : ℕ} {client : Client} (hc : s.clients c = some client)
    (hidle : client.running = none) {out : List LogEntry} (hout : ∀ e ∈ out, e.Plain c) :
    ServerInv s (log ++ out) := by
  refine h.update c (some client) ?_ ?_ (fun e he => Or.inl (hout e he).conn_eq) ?_ ?_
  · rw [leasesOf_append, leasesOf_plain hout, List.append_nil]
    exact h.sessions
  · rw [← hc, Function.update_eq_self]
  · intro _ he hin
    cases he
    exact (h.login c client hc hin).append fun e he => (hout e he).not_opens c
  · intro _ k he hk
    cases he
    rw [hidle] at hk
    cases hk

theorem login_line (h : ServerInv s log) {c : ℕ} {client : Client}
    (hc : s.clients c = some client) (hidle : client.running = none) (args : Str)
    (input : LoginInput)
    (hfresh : (issuedKeys
      (leasesOf (log ++ .command c :: (cmdLogin s c client args input).2))).Nodup) :
    ServerInv (cmdLogin s c client args input).1
      (log ++ .command c :: (cmdLogin s c client args input).2) := by
  unfold cmdLogin at hfresh ⊢
  split
  case h_1 => exact h.quiet hc hidle (by simp [LogEntry.Plain])
  case h_2 uname pass hscan =>
    rw [hscan] at hfresh
    obtain ⟨times, hsess⟩ := h.sessions
    have hinv := hsess.login (some uname) (some pass) true input
    have hok := @authLogin_ok s.auth uname pass input
    have hcases := authLogin_cases s.auth (some uname) (some pass) true input
    dsimp only at hfresh ⊢
    generalize authLogin s.auth (some uname) (some pass) true input = r at *
    obtain ⟨r, auth'⟩ := r
    cases r with
    | error st =>
      refine h.update c (some client) ⟨input.now :: times, ?_⟩ ?_ ?_ ?_ ?_
      · simpa [loginEvents] using hinv (by simpa [loginEvents] using hfresh)
      · exact (by rw [← hc, Function.update_eq_self])
      · simp [loginEvents, LogEntry.conn]
      · intro _ he hin
        cases he
        exact (h.login c client hc hin).append (by simp [loginEvents, LogEntry.Opens])
      · intro _ k he hk
        cases he
        rw [hidle] at hk
        cases hk
    | ok session =>
      obtain ⟨i, u, hfind, huser, -⟩ := hok rfl
      have hlen : session.token.length ≤ 2 * smAuthTokenBytes := by
        rcases hcases with ⟨st, hst, -⟩ | ⟨u', j, -, hst, -⟩
        · cases hst
        · cases hst
          simp [newSession, smHexEncode_length]
      refine h.update c _ ⟨input.now :: times, ?_⟩ rfl ?_ ?_ ?_
      · simpa [loginEvents] using hinv (by simpa [loginEvents] using hfresh)
      · simp [loginEvents, LogEntry.conn]
      · intro _ he _
        cases he
        refine ⟨session, u, input.now, ?_, (CharField.copy_chars hlen).symm, by rw [huser], ?_⟩
        · refine ⟨log ++ [.command c, .lease (.issued session.token session.user input.now)],
            [.reply c (.loggedIn session.user.role)], ?_, by simp [LogEntry.Opens]⟩
          simp [loginEvents, hfind]
        · simp [loginEvents]
      · intro _ k he hk
        cases he
        rw [hidle] at hk
        cases hk

/-- After `logoutClient` the connection becomes `x`; `pre` and `post` are logged
around it. -/
theorem logout_client (h : ServerInv s log) (c : ℕ) (client : Client) (x : Option Client)
    (pre post : List LogEntry)
    (hx : ∀ client', x = some client' → client'.loggedIn = false ∧ client'.running = none)
    (hpre : ∀ e ∈ pre, e.Plain c) (hpost : ∀ e ∈ post, e.Plain c) :
    ServerInv ((logoutClient s client).1.setClient c x)
      (log ++ (pre ++ (logoutClient s client).2 ++ post)) := by
  obtain ⟨times, hsess⟩ := h.sessions
  refine h.update c x ⟨times, ?_⟩ ?_ (fun e he => ?_) ?_ ?_
  · simp only [leasesOf_append, leasesOf_plain hpre, leasesOf_plain hpost, List.nil_append,
      List.append_nil, ServerState.setClient_auth]
    unfold logoutClient
    split
    · exact hsess.logout (some client.token.chars)
    · simpa using hsess
  · unfold logoutClient
    split <;> rfl
  · rcases List.mem_append.mp he with he | he
    · rcases List.mem_append.mp he with he | he
      · exact Or.inl (hpre e he).conn_eq
      · unfold logoutClient at he
        split at he
        · rw [List.mem_singleton.mp he]
          exact Or.inr rfl
        · cases he
    · exact Or.inl (hpost e he).conn_eq
  · intro client' hc' hin
    rw [(hx client' hc').1] at hin
    cases hin
  · intro client' k hc' hk
    rw [(hx client' hc').2] at hk
    cases hk

theorem gate (h : ServerInv s log) {c : ℕ} {client : Client} (hc : s.clients c = some client)
    (hin : client.loggedIn = true) (hidle : client.running = none) (k : Handler) (now : ℤ)
    (hfresh : (issuedKeys (leasesOf log)).Nodup) :
    ServerInv (authorizeHandler s c client k now).1
      (log ++ .command c :: (authorizeHandler s c client k now).2) := by
  obtain ⟨times, hsess⟩ := h.sessions
  obtain ⟨session, account, t, hlogin, htoken, hrole, hissued⟩ := h.login c client hc hin
  have hinv := hsess.verify (some client.token.chars) now
  have hverified : ∀ user, (authVerifySession s.auth (some client.token.chars) now).1 = .ok user →
      ∃ last, Held (leasesOf log) client.token.chars user last ∧
        now ≤ last + smAuthSessionSeconds := fun user hok => hsess.verified hok
  unfold authorizeHandler authAuthorize
  dsimp only
  generalize authVerifySession s.auth (some client.token.chars) now = v at *
  obtain ⟨r, auth'⟩ := v
  have hdenied : ServerInv { s with auth := auth' }
      (log ++ .command c :: ((verifyEvents (some client.token.chars) now r).map .lease ++
        [.reply c .unauthorized])) := by
    refine h.update c (some client) ⟨now :: times, ?_⟩ ?_ ?_ ?_ ?_
    · simpa using hinv
    · exact (by rw [← hc, Function.update_eq_self])
    · simp only [List.mem_cons, List.mem_append, List.mem_map, List.not_mem_nil, or_false]
      rintro _ (rfl | ⟨e, -, rfl⟩ | rfl) <;> simp [LogEntry.conn]
    · intro _ he _
      cases he
      apply (h.login c client hc hin).append
      simp only [List.mem_cons, List.mem_append, List.mem_map, List.not_mem_nil, or_false]
      rintro _ (rfl | ⟨e, -, rfl⟩ | rfl) <;> exact id
    · intro _ k' he hk
      cases he
      rw [hidle] at hk
      cases hk
  cases r with
  | error st => exact hdenied
  | ok user =>
    cases hallow : authRoleAllows user.role k.action with
    | false => simpa [checkRole, hallow] using hdenied
    | true =>
      obtain ⟨last, hheld, hle⟩ := hverified user rfl
      obtain ⟨t', hmem⟩ := hheld.issued_mem
      rw [← htoken] at hmem hheld
      obtain rfl := holder_unique hfresh hmem hissued
      simp only [checkRole, hallow, if_true]
      have hgranted : Authorized (log ++ .command c ::
          .granted c client.token.chars k.action session.user now ::
            (verifyEvents (some client.token.chars) now (.ok session.user)).map .lease) c
            k.action := by
        rw [← htoken]
        refine ⟨log, session, account, now, _, rfl, ?_, hlogin, ⟨last, hheld, hle⟩,
          k.roleMay hallow, hrole⟩
        simp [verifyEvents]
      refine h.update c _ ⟨now :: times, ?_⟩ rfl ?_ ?_ ?_
      · simpa using hinv
      · simp [verifyEvents, LogEntry.conn]
      · intro _ he _
        cases he
        exact (h.login c client hc hin).append (by simp [verifyEvents, LogEntry.Opens])
      · intro _ k' he hk
        cases he
        cases hk
        exact hgranted

theorem client_line (h : ServerInv s log) {c : ℕ} {client : Client}
    (hc : s.clients c = some client) (hidle : client.running = none) (line : Str)
    (input : LoginInput)
    (hfresh : (issuedKeys
      (leasesOf (log ++ .command c :: (clientLine s c client line input).2))).Nodup) :
    ServerInv (clientLine s c client line input).1
      (log ++ .command c :: (clientLine s c client line input).2) := by
  have hcase := clientLine_cases s c client line input
  generalize clientLine s c client line input = r at hcase hfresh ⊢
  cases hcase with
  | blank => exact h.quiet hc hidle (by simp [LogEntry.Plain])
  | login => exact h.login_line hc hidle _ input hfresh
  | logout =>
    refine h.logout_client c client (some { client with loggedIn := false }) [.command c]
      [.reply c .ok] ?_ (by simp [LogEntry.Plain]) (by simp [LogEntry.Plain])
    intro client' hc'
    cases hc'
    exact ⟨rfl, hidle⟩
  | quit =>
    simpa using h.logout_client c client none [.command c, .reply c .bye] [] (by simp)
      (by simp [LogEntry.Plain]) (by simp)
  | refused => exact h.quiet hc hidle (by simp [LogEntry.Plain])
  | handler hin =>
    rw [leasesOf_append] at hfresh
    exact h.gate hc hin hidle _ input.now (issuedKeys_nodup_left hfresh)

theorem step (h : ServerInv s log) (op : ServerOp)
    (hfresh : (issuedKeys (leasesOf (log ++ (serverStep s op).2))).Nodup) :
    ServerInv (serverStep s op).1 (log ++ (serverStep s op).2) := by
  have hsame : ServerInv s (log ++ []) := by rwa [List.append_nil]
  obtain ⟨times, hsess⟩ := h.sessions
  unfold serverStep at hfresh ⊢
  cases op with
  | connect c =>
    dsimp only
    split
    case h_1 => exact hsame
    case h_2 hc =>
      refine h.update c _ ⟨times, by simpa using hsess⟩ rfl (by simp [LogEntry.conn]) ?_ ?_
      · intro _ he hin
        cases he
        cases hin
      · intro _ k he hk
        cases he
        cases hk
  | line c line input =>
    dsimp only at hfresh ⊢
    split
    case h_1 token loggedIn hc =>
      rw [hc] at hfresh
      exact h.client_line hc rfl line input hfresh
    case h_2 => exact hsame
  | finish c now a =>
    dsimp only
    split
    case h_1 token loggedIn k hc =>
      refine h.update c _ ⟨times, ?_⟩ rfl ?_ ?_ ?_
      · simpa [leasesOf_map_reply] using hsess
      · simp only [List.mem_map]
        intro _ h
        obtain ⟨r, -, rfl⟩ := h
        exact Or.inl rfl
      · intro _ he hin
        cases he
        apply (h.login c _ hc hin).append
        simp only [List.mem_map]
        intro _ h
        obtain ⟨r, -, rfl⟩ := h
        exact id
      · intro _ k he hk
        cases he
        cases hk
    case h_2 => exact hsame
  | hangup c =>
    dsimp only
    split
    case h_1 token loggedIn hc =>
      simpa using h.logout_client c ⟨token, loggedIn, none⟩ none [] [] (by simp) (by simp)
        (by simp)
    case h_2 => exact hsame
  | account op =>
    dsimp only at hfresh ⊢
    refine ⟨⟨op.times ++ times, ?_⟩, fun c client hc hin => ?_, fun c client k hc hk => ?_⟩
    · simpa using hsess.step op (by simpa using hfresh)
    · apply (h.login c client hc hin).append
      simp only [List.mem_map]
      intro _ h
      obtain ⟨e, -, rfl⟩ := h
      exact id
    · apply (h.running c client k hc hk).append
      simp

theorem run (files : Str → Option Str) (strs : SStrPool) (db : SubscriberDb) (ops : List ServerOp)
    (hfresh : (issuedKeys (leasesOf (serverLog (.start files strs db) ops))).Nodup) :
    ServerInv (Machine.final serverStep (.start files strs db) ops)
      (serverLog (.start files strs db) ops) := by
  refine Machine.log_invariant (P := fun _ => ServerInv)
    (Q := fun log => (issuedKeys (leasesOf log)).Nodup) (fun log log' hgood => ?_)
    (fun _ s log op h hgood => h.step op hgood) (ServerInv.start files strs db) ops hfresh
  rw [leasesOf_append] at hgood
  exact issuedKeys_nodup_left hgood

end ServerInv

/-! ### Effects are authorized -/

theorem authorizeHandler_quiet (s : ServerState) (c : ℕ) (client : Client) (h : Handler) (now : ℤ) :
    (authorizeHandler s c client h now).1.db = s.db ∧
      ∀ c' reply, .reply c' reply ∈ (authorizeHandler s c client h now).2 → reply.effect = none := by
  unfold authorizeHandler
  dsimp only
  split
  · refine ⟨rfl, fun c' reply hm => ?_⟩
    simp only [List.mem_append, List.mem_map, reduceCtorEq, and_false, exists_false, false_or,
      List.mem_singleton, LogEntry.reply.injEq] at hm
    rw [hm.2]
    rfl
  · refine ⟨rfl, fun c' reply hm => ?_⟩
    simp at hm

theorem cmdLogin_quiet (s : ServerState) (c : ℕ) (client : Client) (args : Str)
    (input : LoginInput) :
    (cmdLogin s c client args input).1.db = s.db ∧
      ∀ c' reply, .reply c' reply ∈ (cmdLogin s c client args input).2 → reply.effect = none := by
  unfold cmdLogin
  split
  · refine ⟨rfl, fun c' reply hm => ?_⟩
    cases List.mem_singleton.mp hm
    rfl
  · dsimp only
    split
    · refine ⟨rfl, fun c' reply hm => ?_⟩
      simp only [List.mem_append, List.mem_map, reduceCtorEq, and_false, exists_false, false_or,
        List.mem_singleton, LogEntry.reply.injEq] at hm
      rw [hm.2]
      rfl
    · refine ⟨rfl, fun c' reply hm => ?_⟩
      simp only [List.mem_append, List.mem_map, reduceCtorEq, and_false, exists_false, false_or,
        List.mem_cons, List.not_mem_nil, or_false, LogEntry.reply.injEq] at hm
      rw [hm.2]
      rfl

theorem logoutClient_quiet (s : ServerState) (client : Client) :
    (logoutClient s client).1.db = s.db ∧
      ∀ c reply, .reply c reply ∉ (logoutClient s client).2 := by
  unfold logoutClient
  split <;> simp

theorem clientLine_quiet (s : ServerState) (c : ℕ) (client : Client) (line : Str)
    (input : LoginInput) :
    (clientLine s c client line input).1.db = s.db ∧
      ∀ c' reply, .reply c' reply ∈ (clientLine s c client line input).2 →
        reply.effect = none := by
  obtain ⟨hdb, hno⟩ := logoutClient_quiet s client
  have hcase := clientLine_cases s c client line input
  generalize clientLine s c client line input = r at hcase ⊢
  cases hcase with
  | blank => simp
  | login => exact cmdLogin_quiet s c client _ input
  | logout =>
    refine ⟨hdb, fun c' reply hm => ?_⟩
    rcases List.mem_append.mp hm with hm | hm
    · exact absurd hm (hno c' reply)
    · cases List.mem_singleton.mp hm
      rfl
  | quit =>
    refine ⟨hdb, fun c' reply hm => ?_⟩
    rcases List.mem_cons.mp hm with hm | hm
    · cases hm
      rfl
    · exact absurd hm (hno c' reply)
  | refused hreply =>
    refine ⟨rfl, fun c' reply hm => ?_⟩
    cases List.mem_singleton.mp hm
    rcases hreply with rfl | rfl <;> rfl
  | handler => exact authorizeHandler_quiet s c client _ input.now

/-- Only a handler that was let through changes the database or sends data. -/
theorem serverStep_effect (s : ServerState) (op : ServerOp) :
    ((serverStep s op).1.db = s.db ∧
        ∀ c reply, .reply c reply ∈ (serverStep s op).2 → reply.effect = none) ∨
      ∃ c now a client k, op = .finish c now a ∧ s.clients c = some client ∧
        client.running = some k ∧ (serverStep s op).1.db = (k.run s.strs s.db now a).2.1 ∧
        (serverStep s op).2 = (k.run s.strs s.db now a).2.2.map (.reply c) := by
  unfold serverStep
  cases op with
  | connect c =>
    left
    dsimp only
    split
    · simp
    · refine ⟨rfl, fun c' reply hm => ?_⟩
      simp only [List.mem_cons, reduceCtorEq, false_or, List.not_mem_nil, or_false,
        LogEntry.reply.injEq] at hm
      rw [hm.2]
      rfl
  | line c line input =>
    left
    dsimp only
    split
    · obtain ⟨hdb, hquiet⟩ := clientLine_quiet s c _ line input
      refine ⟨hdb, fun c' reply hm => hquiet c' reply ?_⟩
      simpa using hm
    · simp
  | finish c now a =>
    dsimp only
    split
    case h_1 token loggedIn k hc =>
      exact Or.inr ⟨c, now, a, _, k, rfl, hc, rfl, rfl, rfl⟩
    case h_2 => exact Or.inl (by simp)
  | hangup c =>
    left
    dsimp only
    split
    · obtain ⟨hdb, hno⟩ := logoutClient_quiet s ⟨_, _, none⟩
      exact ⟨hdb, fun c' reply hm => absurd hm (hno c' reply)⟩
    · simp
  | account op =>
    left
    simp

/-- In every run of the server, over any interleaving of connections and account
operations in which no token was issued twice: a step sends a reply with an
effect, or changes the database, only in a command of a connection in which
`auth_authorize` found the session of its latest LOGIN. -/
theorem server_effects_authorized (files : Str → Option Str) (strs : SStrPool) (db : SubscriberDb)
    (ops : List ServerOp) (op : ServerOp)
    (hfresh : (issuedKeys (leasesOf (serverLog (.start files strs db) ops))).Nodup) :
    (∀ c reply action,
      .reply c reply ∈ (serverStep (Machine.final serverStep (.start files strs db) ops) op).2 →
      reply.effect = some action → Authorized (serverLog (.start files strs db) ops) c action) ∧
    ((serverStep (Machine.final serverStep (.start files strs db) ops) op).1.db ≠
        (Machine.final serverStep (.start files strs db) ops).db →
      ∃ c now a client k, op = .finish c now a ∧
        (Machine.final serverStep (.start files strs db) ops).clients c = some client ∧
        client.running = some k ∧ (k.action = .subAdd ∨ k.action = .subDelete) ∧
        Authorized (serverLog (.start files strs db) ops) c k.action) := by
  have hinv := ServerInv.run files strs db ops hfresh
  generalize Machine.final serverStep (.start files strs db) ops = s at hinv ⊢
  rcases serverStep_effect s op with ⟨hdb, hquiet⟩ | ⟨c, now, a, client, k, rfl, hc, hk, hdb, hout⟩
  · refine ⟨fun c reply action hr he => ?_, fun hne => absurd hdb hne⟩
    rw [hquiet c reply hr] at he
    cases he
  · have hauth := hinv.running c client k hc hk
    refine ⟨fun c' reply action hr he => ?_, fun hne => ?_⟩
    · rw [hout] at hr
      obtain ⟨reply', hr', heq⟩ := List.mem_map.mp hr
      cases heq
      rw [k.run_effect s.strs s.db now a hr' he]
      exact hauth
    · refine ⟨c, now, a, client, k, rfl, hc, hk, ?_, hauth⟩
      rw [hdb] at hne
      cases k with
      | add args => exact Or.inl rfl
      | delete args => exact Or.inr rfl
      | search args => exact absurd rfl hne
      | list => exact absurd rfl hne

def loginAdd : List ServerOp :=
  [.account adminInit, .connect 3, .line 3 (lit "LOGIN admin x") (zeroLogin 7),
    .line 3 (lit "ADD 310150123456789 14155550100 ACTIVE A. User") (zeroLogin 9)]

theorem server_effects_authorized_add :
    ∃ db, subdbCreate Alloc.all = .ok db ∧
      let start := ServerState.start (adminFile 48 (lit "0"))
        (sstrPoolInit SStrPool.start 16 Alloc.all).2 db
      .reply 3 (.added 1) ∈
          (serverStep (Machine.final serverStep start loginAdd) (.finish 3 5 Alloc.all)).2 ∧
        Authorized (serverLog start loginAdd) 3 .subAdd := by
  refine ⟨_, rfl, ?_⟩
  intro start
  have hsent : .reply 3 (.added 1) ∈
      (serverStep (Machine.final serverStep start loginAdd) (.finish 3 5 Alloc.all)).2 := by
    decide +kernel
  have hfresh : (issuedKeys (leasesOf (serverLog start loginAdd))).Nodup := by decide +kernel
  exact ⟨hsent, (server_effects_authorized _ _ _ loginAdd (.finish 3 5 Alloc.all) hfresh).1 3 _ _
    hsent rfl⟩

end SubscriberMgmt
