import SubscriberMgmt.ServerLine
import SubscriberMgmt.Subscriber
import SubscriberMgmt.AuthSessions

/-!
# The TCP server (`server.c:70-278`)

Any number of connections, each served by its own thread. A command line up to
its `auth_authorize` and the rest of its handler are two steps, so that other
threads may run between them. Sends may fail, which the handlers ignore; that a
send to a closed peer may end the process (SIGPIPE) is not modelled.
-/

namespace SubscriberMgmt
open CText Lease

/-! ### Replies -/

inductive Reply where
  | ready
  | ok
  | bye
  | loggedIn (role : SmRole)
  | error (st : SmStatus)
  | loginRequired
  | unauthorized
  | unknownCommand
  | usageLogin
  | usageAdd
  | usageSearch
  | usageDelete
  | added (id : UInt64)
  | found (sub : Subscriber)
  | deleted
  | count (n : ℕ)
  | row (sub : Subscriber)
  | listEnd
  deriving DecidableEq

/-- The text of a reply. `conn_send` cuts at 1023 bytes, which no reply reaches. -/
def Reply.text : Reply → Str
  | .ready => lit "OK subscriber-mgmt-server ready\n"
  | .ok => lit "OK\n"
  | .bye => lit "OK bye\n"
  | .loggedIn role => lit "OK role=" ++ smRoleToStr role ++ lit "\n"
  | .error st => lit "ERR " ++ smStatusStr st ++ lit "\n"
  | .loginRequired => lit "ERR login required\n"
  | .unauthorized => lit "ERR unauthorized\n"
  | .unknownCommand => lit "ERR unknown command\n"
  | .usageLogin => lit "ERR usage: LOGIN <user> <pass>\n"
  | .usageAdd => lit "ERR usage: ADD <imsi> <msisdn> <status> <name...>\n"
  | .usageSearch => lit "ERR usage: SEARCH <subscriber_id>\n"
  | .usageDelete => lit "ERR usage: DELETE <subscriber_id>\n"
  | .added id => lit "OK id=" ++ decimal id.toNat ++ lit "\n"
  | .found sub =>
    lit "OK id=" ++ decimal sub.subscriberId.toNat ++ lit " imsi=" ++ sub.imsi.chars ++
      lit " msisdn=" ++ sub.msisdn.chars ++ lit " status=" ++ subStatusToStr sub.status ++ lit "\n"
  | .deleted => lit "OK " ++ smStatusStr .ok ++ lit "\n"
  | .count n => lit "OK count=" ++ decimal n ++ lit "\n"
  | .row sub =>
    decimal sub.subscriberId.toNat ++ lit " " ++ sub.imsi.chars ++ lit " " ++ sub.msisdn.chars ++
      lit " " ++ subStatusToStr sub.status ++ lit "\n"
  | .listEnd => lit "END\n"

theorem Reply.text_fits (r : Reply) (hcount : ∀ n, r = .count n → n < 2 ^ 64) :
    r.text.length < smSrvLineMax := by
  have hdecimal : ∀ n < 2 ^ 64, (decimal n).length ≤ 20 := fun n hn =>
    decimal_length (by decide) (Nat.lt_trans hn (by decide))
  have hrole : ∀ role, (smRoleToStr role).length ≤ 8 := fun role => by
    cases role <;> simp only [smRoleToStr] <;> decide
  have hstatus : ∀ st, (smStatusStr st).length ≤ 14 := fun st => by cases st <;> decide
  have hsub : ∀ status, (subStatusToStr status).length ≤ 10 := fun status => by
    cases status <;> simp only [subStatusToStr] <;> decide
  have hline : (lit "\n").length = 1 := by decide
  have hspace : (lit " ").length = 1 := by decide
  cases r with
  | ready | ok | bye | loginRequired | unauthorized | unknownCommand | usageLogin | usageAdd |
    usageSearch | usageDelete | deleted | listEnd => decide
  | loggedIn role =>
    have h := hrole role
    have hpre : (lit "OK role=").length = 8 := by decide
    simp only [text, List.length_append, smSrvLineMax]
    omega
  | error st =>
    have h := hstatus st
    have hpre : (lit "ERR ").length = 4 := by decide
    simp only [text, List.length_append, smSrvLineMax]
    omega
  | added id =>
    have h := hdecimal _ id.toNat_lt
    have hpre : (lit "OK id=").length = 6 := by decide
    simp only [text, List.length_append, smSrvLineMax]
    omega
  | found sub =>
    have h := hdecimal _ sub.subscriberId.toNat_lt
    have hst := hsub sub.status
    have h1 := sub.imsi.fits
    have h2 := sub.msisdn.fits
    have hpre : (lit "OK id=").length = 6 := by decide
    have himsi : (lit " imsi=").length = 6 := by decide
    have hmsisdn : (lit " msisdn=").length = 8 := by decide
    have hstatus' : (lit " status=").length = 8 := by decide
    simp only [smMaxImsiLen, smMaxMsisdnLen] at h1 h2
    simp only [text, List.length_append, smSrvLineMax]
    omega
  | count n =>
    have h := hdecimal n (hcount n rfl)
    have hpre : (lit "OK count=").length = 9 := by decide
    simp only [text, List.length_append, smSrvLineMax]
    omega
  | row sub =>
    have h := hdecimal _ sub.subscriberId.toNat_lt
    have hst := hsub sub.status
    have h1 := sub.imsi.fits
    have h2 := sub.msisdn.fits
    simp only [smMaxImsiLen, smMaxMsisdnLen] at h1 h2
    simp only [text, List.length_append, smSrvLineMax]
    omega

/-! ### Handlers, and what they do after their authorization -/

inductive Handler where
  | add (args : Str)
  | search (args : Str)
  | delete (args : Str)
  | list

def handlerOf (cmd args : Str) : Option Handler :=
  if cmd = lit "ADD" then some (.add args)
  else if cmd = lit "SEARCH" then some (.search args)
  else if cmd = lit "DELETE" then some (.delete args)
  else if cmd = lit "LIST" then some .list
  else none

def Handler.action : Handler → SmAction
  | .add _ => .subAdd
  | .search _ => .subSearch
  | .delete _ => .subDelete
  | .list => .subList

/-- `sscanf(args, "%15s %15s %15s %63[^\n]", ...)` -/
def scanAdd (args : Str) : Option (Str × Str × Str × Str) := do
  let (imsi, s) ← scanWord 15 args
  let (msisdn, s) ← scanWord 15 s
  let (status, s) ← scanWord 15 s
  let (name, _) ← scanSet 63 (· != newline) (s.dropWhile isSpace)
  return (imsi, msisdn, status, name)

/-- `sscanf(args, "%llu", &id)` -/
def scanId (args : Str) : Option UInt64 := (scanUInt 64 args).map fun r => UInt64.ofNat r.1

def cmdAdd (strs : SStrPool) (db : SubscriberDb) (args : Str) (now : Int64) (a : Alloc) :
    SStrPool × SubscriberDb × List Reply :=
  match scanAdd args with
  | none => (strs, db, [.usageAdd])
  | some (imsi, msisdn, status, name) =>
    let r := subdbAdd strs db (some imsi) (some msisdn) (some name) (some (lit "UNSET"))
      (some (lit "UNSET")) (subStatusFromStr status) true now a
    (r.strs, r.db, [if r.status = .ok then .added (r.id.getD 0) else .error r.status])

def cmdSearch (strs : SStrPool) (db : SubscriberDb) (args : Str) (a : Alloc) :
    SStrPool × List Reply :=
  match scanId args with
  | none => (strs, [.usageSearch])
  | some id =>
    match subdbSearchById strs db id a with
    | (.ok sub, strs) => (subdbFreeOne strs sub, [.found sub])
    | (.error st, strs) => (strs, [.error st])

def cmdDelete (strs : SStrPool) (db : SubscriberDb) (args : Str) :
    SStrPool × SubscriberDb × List Reply :=
  match scanId args with
  | none => (strs, db, [.usageDelete])
  | some id =>
    let r := subdbDelete strs db id
    (r.2.1, r.2.2, [if r.1 = .ok then .deleted else .error r.1])

def cmdList (strs : SStrPool) (db : SubscriberDb) (a : Alloc) : SStrPool × List Reply :=
  match subdbListAll strs db a with
  | (.error st, strs) => (strs, [.error st])
  | (.ok arr, strs) =>
    (subdbFreeResults strs arr, .count arr.length :: arr.map .row ++ [.listEnd])

def Handler.run (strs : SStrPool) (db : SubscriberDb) (now : Int64) (a : Alloc) :
    Handler → SStrPool × SubscriberDb × List Reply
  | .add args => cmdAdd strs db args now a
  | .search args =>
    let r := cmdSearch strs db args a
    (r.1, db, r.2)
  | .delete args => cmdDelete strs db args
  | .list =>
    let r := cmdList strs db a
    (r.1, db, r.2)

/-! ### Connections -/

/-- The locals of `client_thread`, and the handler that it is in after a
successful authorization. -/
structure Client where
  token : CharField (2 * smAuthTokenBytes)
  loggedIn : Bool
  running : Option Handler

structure ServerState where
  auth : AuthState
  strs : SStrPool
  db : SubscriberDb
  clients : ℕ → Option Client

def ServerState.setClient (s : ServerState) (c : ℕ) (client : Option Client) : ServerState :=
  { s with clients := Function.update s.clients c client }

@[simp] theorem ServerState.setClient_auth (s : ServerState) (c : ℕ) (client : Option Client) :
    (s.setClient c client).auth = s.auth := rfl

/-- What is observed of a run: `loggedIn` with the session that a LOGIN opened and
the account that was found by name, `granted` when `auth_authorize` returned
SM_OK in a command. -/
inductive LogEntry where
  | connected (c : ℕ)
  | command (c : ℕ)
  | loggedIn (c : ℕ) (session : Session) (account : Option UserRecord)
  | granted (c : ℕ) (token : Str) (action : SmAction) (user : AuthUser) (now : ℤ)
  | lease (e : Event Str AuthUser)
  | reply (c : ℕ) (reply : Reply)
  deriving DecidableEq

/-- `sscanf(args, "%32s %127s", uname, pass)` -/
def scanLogin (args : Str) : Option (Str × Str) := do
  let (uname, s) ← scanWord 32 args
  let (pass, _) ← scanWord 127 s
  return (uname, pass)

def cmdLogin (s : ServerState) (c : ℕ) (client : Client) (args : Str) (input : LoginInput) :
    ServerState × List LogEntry :=
  match scanLogin args with
  | none => (s, [.reply c .usageLogin])
  | some (uname, pass) =>
    let r := authLogin s.auth (some uname) (some pass) true input
    let s' := { s with auth := r.2 }
    let leases := (loginEvents input.now r.1).map .lease
    match r.1 with
    | .error st => (s', leases ++ [.reply c (.error st)])
    | .ok session =>
      (s'.setClient c
          (some { client with token := CharField.copy _ session.token, loggedIn := true }),
        leases ++ [.loggedIn c session ((findUserLocked s.auth.users uname).map Prod.snd),
          .reply c (.loggedIn session.user.role)])

/-- `if (logged_in) auth_logout(token)` -/
def logoutClient (s : ServerState) (client : Client) : ServerState × List LogEntry :=
  if client.loggedIn then
    ({ s with auth := (authLogout s.auth (some client.token.chars)).2 },
      [.lease (.dropped client.token.chars)])
  else (s, [])

/-- A handler up to its authorization. -/
def authorizeHandler (s : ServerState) (c : ℕ) (client : Client) (h : Handler) (now : ℤ) :
    ServerState × List LogEntry :=
  let token := client.token.chars
  let r := authAuthorize s.auth (some token) h.action now
  let s' := { s with auth := r.2 }
  let leases := (verifyEvents (some token) now
    (authVerifySession s.auth (some token) now).1).map .lease
  match r.1 with
  | .error _ => (s', leases ++ [.reply c .unauthorized])
  | .ok user =>
    (s'.setClient c (some { client with running := some h }),
      .granted c token h.action user now :: leases)

/-- The loop body of `client_thread` on the string `line`. -/
def clientLine (s : ServerState) (c : ℕ) (client : Client) (line : Str) (input : LoginInput) :
    ServerState × List LogEntry :=
  match commandWord line with
  | none => (s, [])
  | some (cmd, rest) =>
    let args := rest.dropWhile (· == 32)
    if cmd = lit "LOGIN" then cmdLogin s c client args input
    else if cmd = lit "LOGOUT" then
      let r := logoutClient s client
      (r.1.setClient c (some { client with loggedIn := false }), r.2 ++ [.reply c .ok])
    else if cmd = lit "QUIT" then
      let r := logoutClient s client
      (r.1.setClient c none, .reply c .bye :: r.2)
    else if !client.loggedIn then (s, [.reply c .loginRequired])
    else
      match handlerOf cmd args with
      | none => (s, [.reply c .unknownCommand])
      | some h => authorizeHandler s c client h input.now

/-! ### What a line can do -/

theorem logoutClient_frame (s : ServerState) (client : Client) :
    ∃ auth, (logoutClient s client).1 = { s with auth := auth } := by
  unfold logoutClient
  split
  · exact ⟨_, rfl⟩
  · exact ⟨s.auth, rfl⟩

inductive LineCase (s : ServerState) (c : ℕ) (client : Client) (line : Str) (input : LoginInput) :
    ServerState × List LogEntry → Prop
  | blank : LineCase s c client line input (s, [])
  | login {rest : Str} (hcmd : commandWord line = some (lit "LOGIN", rest)) :
      LineCase s c client line input (cmdLogin s c client (rest.dropWhile (· == 32)) input)
  | logout : LineCase s c client line input
      ((logoutClient s client).1.setClient c (some { client with loggedIn := false }),
        (logoutClient s client).2 ++ [.reply c .ok])
  | quit : LineCase s c client line input
      ((logoutClient s client).1.setClient c none, .reply c .bye :: (logoutClient s client).2)
  | refused {reply : Reply} (hreply : reply = .loginRequired ∨ reply = .unknownCommand) :
      LineCase s c client line input (s, [.reply c reply])
  | handler {h : Handler} (hin : client.loggedIn = true) :
      LineCase s c client line input (authorizeHandler s c client h input.now)

theorem clientLine_cases (s : ServerState) (c : ℕ) (client : Client) (line : Str)
    (input : LoginInput) :
    LineCase s c client line input (clientLine s c client line input) := by
  unfold clientLine
  split
  case h_1 => exact .blank
  case h_2 cmd rest hcmd =>
    dsimp only
    split
    case isTrue hlogin =>
      subst hlogin
      exact .login hcmd
    case isFalse =>
      split
      case isTrue => exact .logout
      case isFalse =>
        split
        case isTrue => exact .quit
        case isFalse =>
          split
          case isTrue => exact .refused (Or.inl rfl)
          case isFalse hin =>
            split
            case h_1 => exact .refused (Or.inr rfl)
            case h_2 => exact .handler (by simpa using hin)

/-- A line changes the sessions and its own connection only. -/
theorem clientLine_frame (s : ServerState) (c : ℕ) (client : Client) (line : Str)
    (input : LoginInput) : ∃ auth x, (clientLine s c client line input).1 =
      { s with auth := auth, clients := Function.update s.clients c x } := by
  have same : ∀ auth, ∃ auth' x, { s with auth := auth } =
      { s with auth := auth', clients := Function.update s.clients c x } := fun auth =>
    ⟨auth, s.clients c, by rw [Function.update_eq_self]⟩
  obtain ⟨auth, hlogout⟩ := logoutClient_frame s client
  have hcase := clientLine_cases s c client line input
  generalize clientLine s c client line input = r at hcase ⊢
  cases hcase with
  | blank => exact same s.auth
  | refused => exact same s.auth
  | logout =>
    dsimp only
    rw [hlogout]
    exact ⟨auth, _, rfl⟩
  | quit =>
    dsimp only
    rw [hlogout]
    exact ⟨auth, _, rfl⟩
  | login =>
    unfold cmdLogin
    split
    case h_1 => exact same s.auth
    case h_2 =>
      dsimp only
      split
      · exact same _
      · exact ⟨_, _, rfl⟩
  | handler =>
    unfold authorizeHandler
    dsimp only
    split
    · exact same _
    · exact ⟨_, _, rfl⟩

/-! ### The server -/

/-- A step of some thread. `hangup` is a `conn_recv_line` that returns no line;
`account` is a call of `auth.c` from elsewhere in the process. -/
inductive ServerOp where
  | connect (c : ℕ)
  | line (c : ℕ) (line : Str) (input : LoginInput)
  | finish (c : ℕ) (now : Int64) (a : Alloc)
  | hangup (c : ℕ)
  | account (op : AuthOp)

/-- A step that the thread is not ready for leaves the state as it is. -/
def serverStep (s : ServerState) : ServerOp → ServerState × List LogEntry
  | .connect c =>
    match s.clients c with
    | some _ => (s, [])
    | none =>
      (s.setClient c (some ⟨⟨[], Nat.zero_le _⟩, false, none⟩), [.connected c, .reply c .ready])
  | .line c line input =>
    match s.clients c with
    | some ⟨token, loggedIn, none⟩ =>
      let r := clientLine s c ⟨token, loggedIn, none⟩ line input
      (r.1, .command c :: r.2)
    | _ => (s, [])
  | .finish c now a =>
    match s.clients c with
    | some ⟨token, loggedIn, some h⟩ =>
      let r := h.run s.strs s.db now a
      ({ s with strs := r.1, db := r.2.1 }.setClient c (some ⟨token, loggedIn, none⟩),
        r.2.2.map (.reply c))
    | _ => (s, [])
  | .hangup c =>
    match s.clients c with
    | some ⟨token, loggedIn, none⟩ =>
      let r := logoutClient s ⟨token, loggedIn, none⟩
      (r.1.setClient c none, r.2)
    | _ => (s, [])
  | .account op =>
    let r := authStep s.auth op
    ({ s with auth := r.1 }, r.2.map .lease)

def ServerState.start (files : Str → Option Str) (strs : SStrPool) (db : SubscriberDb) :
    ServerState :=
  ⟨AuthState.start files, strs, db, fun _ => none⟩

def serverLog (s : ServerState) (ops : List ServerOp) : List LogEntry :=
  (Machine.outputs serverStep s ops).flatten

end SubscriberMgmt
