import SubscriberMgmt.ServerAuthorization

/-!
# Sessions of a connection (`server.c:215-278`)

A connection keeps one token. It closes the session of that token when it ends,
and that of an earlier LOGIN only if there was a LOGOUT in between.
-/

namespace SubscriberMgmt
open CText Lease

/-- No LOGIN is accepted on a connection that is logged in. -/
def LoginsOnce (s : ServerState) : ServerOp → Prop
  | .line c line input => ∀ token rest uname pass,
    s.clients c = some ⟨token, true, none⟩ → commandWord line = some (lit "LOGIN", rest) →
      scanLogin (rest.dropWhile (· == 32)) = some (uname, pass) →
      ∀ session, (authLogin s.auth (some uname) (some pass) true input).1 ≠ .ok session
  | _ => True

/-! ### One step -/

/-- The connection is logged in with a token. -/
def Holds (s : ServerState) (c : ℕ) (token : Str) : Prop :=
  ∃ client, s.clients c = some client ∧ client.loggedIn = true ∧ client.token.chars = token

theorem Holds.congr {s s' : ServerState} {c : ℕ} {token : Str} (h : Holds s c token)
    (hs : s'.clients c = s.clients c) : Holds s' c token := by
  rw [Holds, hs]
  exact h

/-- What a line leaves to other connections. -/
theorem clientLine_other (s : ServerState) {c c' : ℕ} (hc : c' ≠ c) (client : Client) (line : Str)
    (input : LoginInput) : (clientLine s c client line input).1.clients c' = s.clients c' := by
  obtain ⟨auth, x, he⟩ := clientLine_frame s c client line input
  rw [he]
  exact Function.update_of_ne hc ..

/-- A line on a connection that is logged in, and accepts no LOGIN with it, keeps
the token or closes its session. -/
theorem clientLine_holds {s : ServerState} {c : ℕ} {token : CharField (2 * smAuthTokenBytes)}
    (hc : s.clients c = some ⟨token, true, none⟩) {line : Str} {input : LoginInput}
    (honce : LoginsOnce s (.line c line input)) :
    Holds (clientLine s c ⟨token, true, none⟩ line input).1 c token.chars ∨
      .lease (.dropped token.chars) ∈ (clientLine s c ⟨token, true, none⟩ line input).2 := by
  have hold : ∀ {s' : ServerState}, s'.clients c = s.clients c → Holds s' c token.chars := by
    intro s' hs
    exact ⟨_, hs.trans hc, rfl, rfl⟩
  have hlogout : .lease (.dropped token.chars) ∈ (logoutClient s ⟨token, true, none⟩).2 :=
    List.mem_singleton_self _
  have hcase := clientLine_cases s c ⟨token, true, none⟩ line input
  generalize clientLine s c ⟨token, true, none⟩ line input = r at hcase ⊢
  cases hcase with
  | blank => exact Or.inl (hold rfl)
  | logout => exact Or.inr (List.mem_append_left _ hlogout)
  | quit => exact Or.inr (List.mem_cons_of_mem _ hlogout)
  | refused => exact Or.inl (hold rfl)
  | handler =>
    left
    unfold authorizeHandler
    dsimp only
    split
    · exact hold rfl
    · exact ⟨_, Function.update_self .., rfl, rfl⟩
  | @login rest hcmd =>
    left
    unfold cmdLogin
    split
    case h_1 => exact hold rfl
    case h_2 uname pass hscan =>
      have hno := honce token rest uname pass hc hcmd hscan
      generalize authLogin s.auth (some uname) (some pass) true input = r at hno ⊢
      obtain ⟨r, auth⟩ := r
      cases r with
      | error st => exact hold rfl
      | ok session => exact absurd rfl (hno session)

theorem serverStep_holds {s : ServerState} {c : ℕ} {token : Str} (h : Holds s c token)
    {op : ServerOp} (honce : LoginsOnce s op) :
    Holds (serverStep s op).1 c token ∨ .lease (.dropped token) ∈ (serverStep s op).2 := by
  obtain ⟨⟨tokenField, loggedIn, running⟩, hc, hin, rfl⟩ := h
  cases hin
  have hold : ∀ {s' : ServerState}, s'.clients c = s.clients c → Holds s' c tokenField.chars := by
    intro s' hs
    exact ⟨_, hs.trans hc, rfl, rfl⟩
  cases op with
  | connect c' =>
    simp only [serverStep]
    split
    case h_1 => exact Or.inl (hold rfl)
    case h_2 hc' =>
      have hne : c ≠ c' := by
        intro he
        subst he
        rw [hc] at hc'
        cases hc'
      exact Or.inl (hold (Function.update_of_ne hne ..))
  | line c' line input =>
    simp only [serverStep]
    split
    case h_2 => exact Or.inl (hold rfl)
    case h_1 t b hc' =>
      by_cases hcc : c = c'
      · subst hcc
        rw [hc] at hc'
        cases hc'
        exact (clientLine_holds hc honce).imp id (List.mem_cons_of_mem _)
      · exact Or.inl (hold (clientLine_other s hcc ..))
  | finish c' now a =>
    simp only [serverStep]
    split
    case h_2 => exact Or.inl (hold rfl)
    case h_1 t b k hc' =>
      left
      by_cases hcc : c = c'
      · subst hcc
        rw [hc] at hc'
        cases hc'
        exact ⟨_, Function.update_self .., rfl, rfl⟩
      · exact hold (Function.update_of_ne hcc ..)
  | hangup c' =>
    simp only [serverStep]
    split
    case h_2 => exact Or.inl (hold rfl)
    case h_1 t b hc' =>
      have hsame : ∀ client, (logoutClient s client).1.clients = s.clients := by
        intro client
        obtain ⟨auth, he⟩ := logoutClient_frame s client
        rw [he]
      by_cases hcc : c = c'
      · subst hcc
        rw [hc] at hc'
        cases hc'
        exact Or.inr (List.mem_singleton_self _)
      · exact Or.inl (hold ((Function.update_of_ne hcc ..).trans (congrFun (hsame _) c)))
  | account op => exact Or.inl (hold rfl)

theorem no_loggedIn {out before after : List LogEntry} {c : ℕ} {session : Session}
    {account : Option UserRecord} (h : out = before ++ .loggedIn c session account :: after)
    (hno : ∀ e ∈ out, ∀ a b d, e ≠ .loggedIn a b d) : False := by
  refine hno _ ?_ c session account rfl
  rw [h]
  exact List.mem_append_right _ (List.mem_cons_self ..)

theorem logoutClient_no_loggedIn (s : ServerState) (client : Client) :
    ∀ e ∈ (logoutClient s client).2, ∀ a b d, e ≠ .loggedIn a b d := by
  intro e he
  unfold logoutClient at he
  split at he
  · rw [List.mem_singleton.mp he]
    simp
  · cases he

theorem authorizeHandler_no_loggedIn (s : ServerState) (c : ℕ) (client : Client) (h : Handler)
    (now : ℤ) : ∀ e ∈ (authorizeHandler s c client h now).2, ∀ a b d, e ≠ .loggedIn a b d := by
  intro e he
  simp only [authorizeHandler] at he
  split at he
  · simp only [List.mem_append, List.mem_map, List.mem_singleton] at he
    rcases he with ⟨a, -, rfl⟩ | rfl <;> simp
  · simp only [List.mem_cons, List.mem_map] at he
    rcases he with rfl | ⟨a, -, rfl⟩ <;> simp

/-- A LOGIN that succeeds is logged behind the issue of its token, and the
connection holds the token. -/
theorem cmdLogin_loggedIn {s : ServerState} {c c' : ℕ} {client : Client} {rest : Str}
    {input : LoginInput} {before after : List LogEntry} {session : Session}
    {account : Option UserRecord}
    (h : (cmdLogin s c client rest input).2 = before ++ .loggedIn c' session account :: after) :
    session.token ∈ issuedKeys (leasesOf before) ∧
      Holds (cmdLogin s c client rest input).1 c' session.token := by
  unfold cmdLogin at h ⊢
  split at h
  case h_1 => exact (no_loggedIn h (by simp)).elim
  case h_2 uname pass hscan =>
    have hcases := authLogin_cases s.auth (some uname) (some pass) true input
    dsimp only at h ⊢
    generalize authLogin s.auth (some uname) (some pass) true input = r at h hcases ⊢
    obtain ⟨r, auth⟩ := r
    cases r with
    | error st => exact (no_loggedIn h (by simp [loginEvents])).elim
    | ok opened =>
      have hlen : opened.token.length ≤ 2 * smAuthTokenBytes := by
        rcases hcases with ⟨st, hst, -⟩ | ⟨u, j, -, hst, -⟩
        · cases hst
        · cases hst
          simp [newSession, smHexEncode_length]
      simp only [loginEvents, List.map_cons, List.map_nil, List.cons_append,
        List.nil_append] at h
      -- the entry is the one behind the issue
      rcases before with _ | ⟨x, _ | ⟨y, _ | ⟨z, before⟩⟩⟩
      · simp at h
      · simp only [List.cons_append, List.nil_append, List.cons.injEq,
          LogEntry.loggedIn.injEq] at h
        obtain ⟨rfl, ⟨rfl, rfl, -⟩, -⟩ := h
        refine ⟨List.mem_cons_self .., _, Function.update_self .., rfl, ?_⟩
        exact CharField.copy_chars hlen
      · simp at h
      · simp at h

theorem clientLine_loggedIn {s : ServerState} {c c' : ℕ} {client : Client} {line : Str}
    {input : LoginInput} {before after : List LogEntry} {session : Session}
    {account : Option UserRecord}
    (h : (clientLine s c client line input).2 = before ++ .loggedIn c' session account :: after) :
    session.token ∈ issuedKeys (leasesOf before) ∧
      Holds (clientLine s c client line input).1 c' session.token := by
  have hcase := clientLine_cases s c client line input
  generalize clientLine s c client line input = r at hcase h ⊢
  cases hcase with
  | blank => exact (no_loggedIn h (by simp)).elim
  | refused => exact (no_loggedIn h (by simp)).elim
  | logout =>
    refine (no_loggedIn h fun e he => ?_).elim
    rcases List.mem_append.mp he with he | he
    · exact logoutClient_no_loggedIn s client e he
    · rw [List.mem_singleton.mp he]
      simp
  | quit =>
    refine (no_loggedIn h fun e he => ?_).elim
    rcases List.mem_cons.mp he with rfl | he
    · simp
    · exact logoutClient_no_loggedIn s client e he
  | handler => exact (no_loggedIn h (authorizeHandler_no_loggedIn s c client _ _)).elim
  | login => exact cmdLogin_loggedIn h

theorem serverStep_loggedIn {s : ServerState} {op : ServerOp} {c : ℕ} {before after : List LogEntry}
    {session : Session} {account : Option UserRecord}
    (h : (serverStep s op).2 = before ++ .loggedIn c session account :: after) :
    session.token ∈ issuedKeys (leasesOf before) ∧ Holds (serverStep s op).1 c session.token := by
  cases op with
  | connect c' =>
    simp only [serverStep] at h
    split at h
    · exact (no_loggedIn h (by simp)).elim
    · exact (no_loggedIn h (by simp)).elim
  | line c' line input =>
    simp only [serverStep] at h ⊢
    split at h
    case h_2 => exact (no_loggedIn h (by simp)).elim
    case h_1 token loggedIn hc =>
      cases before with
      | nil => simp at h
      | cons e before =>
        simp only [List.cons_append, List.cons.injEq] at h
        obtain ⟨rfl, h⟩ := h
        rw [leasesOf_cons_command]
        exact clientLine_loggedIn h
  | finish c' now a =>
    simp only [serverStep] at h
    split at h
    · exact (no_loggedIn h (by simp)).elim
    · exact (no_loggedIn h (by simp)).elim
  | hangup c' =>
    simp only [serverStep] at h
    split at h
    case h_2 => exact (no_loggedIn h (by simp)).elim
    case h_1 token loggedIn hc =>
      exact (no_loggedIn h (logoutClient_no_loggedIn s ⟨token, loggedIn, none⟩)).elim
  | account op => exact (no_loggedIn h (by simp [serverStep])).elim

/-! ### Runs -/

/-- Every session of a LOGIN is closed, or its connection still holds it. -/
def Closes (s : ServerState) (log : List LogEntry) : Prop :=
  ∀ before c session account after, log = before ++ .loggedIn c session account :: after →
    session.token ∈ issuedKeys (leasesOf before) ∧
      (.lease (.dropped session.token) ∈ after ∨ Holds s c session.token)

theorem Closes.step {s : ServerState} {log : List LogEntry} {op : ServerOp} (h : Closes s log)
    (honce : LoginsOnce s op) : Closes (serverStep s op).1 (log ++ (serverStep s op).2) := by
  intro before c session account after he
  rcases List.append_eq_append_iff.mp he with ⟨mid, rfl, hout⟩ | ⟨mid, hlog, hafter⟩
  · -- the LOGIN is this step
    obtain ⟨hissued, hholds⟩ := serverStep_loggedIn hout
    rw [leasesOf_append, issuedKeys_append]
    exact ⟨List.mem_append_right _ hissued, Or.inr hholds⟩
  · cases mid with
    | nil =>
      have hout : (serverStep s op).2 = [] ++ .loggedIn c session account :: after := hafter.symm
      exact absurd (serverStep_loggedIn hout).1 List.not_mem_nil
    | cons e mid =>
      rw [List.cons_append, List.cons.injEq] at hafter
      obtain ⟨rfl, rfl⟩ := hafter
      obtain ⟨hissued, hclosed⟩ := h before c session account mid hlog
      refine ⟨hissued, ?_⟩
      rcases hclosed with hdropped | hholds
      · exact Or.inl (List.mem_append_left _ hdropped)
      · rcases serverStep_holds hholds honce with hholds' | hdropped
        · exact Or.inr hholds'
        · exact Or.inl (List.mem_append_right _ hdropped)

theorem leasesOf_mem {e : Event Str AuthUser} {log : List LogEntry} (h : .lease e ∈ log) :
    e ∈ leasesOf log := List.mem_filterMap.mpr ⟨_, h, rfl⟩

/-- In every run, whatever else goes on, in which no connection has a LOGIN
accepted while it is logged in: when the thread of a connection has returned, each
of its sessions has been closed with `auth_logout`, and, tokens being different,
none is left in the table. -/
theorem connections_leave_no_session (files : Str → Option Str) (strs : SStrPool)
    (db : SubscriberDb) (ops : List ServerOp)
    (honce : Machine.Along serverStep LoginsOnce (.start files strs db) ops) (c : ℕ)
    (hended : (Machine.final serverStep (.start files strs db) ops).clients c = none)
    (before after : List LogEntry) (session : Session) (account : Option UserRecord)
    (hlogin : serverLog (.start files strs db) ops =
      before ++ .loggedIn c session account :: after) :
    .lease (.dropped session.token) ∈ after ∧
      ((issuedKeys (leasesOf (serverLog (.start files strs db) ops))).Nodup →
        ∀ j l, (Machine.final serverStep (.start files strs db) ops).auth.table j = some l →
          l.key ≠ session.token) := by
  have hstart : Closes (.start files strs db) [] := fun before c session account after he => by
    simp at he
  have hclosed := Machine.along_invariant (fun s log op h hop => Closes.step h hop) hstart honce
  rw [List.nil_append] at hclosed
  obtain ⟨hissued, hdropped⟩ := hclosed before c session account after hlogin
  have hdropped : .lease (.dropped session.token) ∈ after := by
    apply hdropped.resolve_right
    intro h
    obtain ⟨client, hc, -⟩ := h
    rw [hended] at hc
    cases hc
  refine ⟨hdropped, fun hfresh j l hl he => ?_⟩
  obtain ⟨times, hsess⟩ := (ServerInv.run files strs db ops hfresh).sessions
  have hheld := applyAll_eq_some_iff.mp (hsess.tracks.recorded j l hl)
  rw [he, hlogin, leasesOf_append, leasesOf_cons_loggedIn] at hheld
  rw [hlogin, leasesOf_append, leasesOf_cons_loggedIn] at hfresh
  exact not_held_of_dropped hfresh hissued (leasesOf_mem hdropped) hheld

/-- A connection that logs in and hangs up. -/
def loginHangup : List ServerOp :=
  [.account adminInit, .connect 3, .line 3 (lit "LOGIN admin x") (zeroLogin 7), .hangup 3]

def zeroSession (now : ℤ) : Session := ⟨List.replicate 64 48, adminUser, now + smAuthSessionSeconds⟩

theorem connections_leave_no_session_hangup :
    ∃ db, subdbCreate Alloc.all = .ok db ∧
      let start := ServerState.start (adminFile 48 (lit "0")) SStrPool.start db
      ∀ j l, (Machine.final serverStep start loginHangup).auth.table j = some l →
        l.key ≠ (zeroSession 7).token := by
  refine ⟨_, rfl, ?_⟩
  intro start
  have honce : Machine.Along serverStep LoginsOnce start loginHangup := by
    refine ⟨trivial, trivial, fun token rest uname pass hc => ?_, trivial, trivial⟩
    cases hc
  have hended : (Machine.final serverStep start loginHangup).clients 3 = none :=
    Option.isNone_iff_eq_none.mp (by decide +kernel)
  refine (connections_leave_no_session (adminFile 48 (lit "0")) SStrPool.start _ loginHangup honce 3
    hended [.lease .cleared, .connected 3, .reply 3 .ready, .command 3,
      .lease (.issued (zeroSession 7).token adminUser 7)]
    [.reply 3 (.loggedIn .admin), .lease (.dropped (zeroSession 7).token)] (zeroSession 7)
    (some (adminRecord 0 0)) (by decide +kernel)).2 (by decide +kernel)

/-- A second LOGIN on a connection takes another slot and forgets the first token:
its session is still there when the connection has ended. -/
theorem second_login_leaks :
    ∃ db, subdbCreate Alloc.all = .ok db ∧
      let ops : List ServerOp :=
        [.account adminInit, .connect 3, .line 3 (lit "LOGIN admin x") (zeroLogin 7),
          .line 3 (lit "LOGIN admin x") { zeroLogin 8 with token := Vector.replicate _ 17 },
          .hangup 3]
      let start := ServerState.start (adminFile 48 (lit "0")) SStrPool.start db
      let s := Machine.final serverStep start ops
      s.clients 3 = none ∧
        .loggedIn 3 (zeroSession 7) (some (adminRecord 0 0)) ∈ serverLog start ops ∧
        .lease (.dropped (zeroSession 7).token) ∉ serverLog start ops ∧
        ∃ j, ((s.auth.table j).map Entry.key) = some (zeroSession 7).token := by
  refine ⟨_, rfl, ?_⟩
  intro ops start s
  refine ⟨Option.isNone_iff_eq_none.mp ?_, ?_, ?_, ⟨0, by decide⟩, ?_⟩
  · decide +kernel
  · decide +kernel
  · decide +kernel
  · decide +kernel

end SubscriberMgmt
