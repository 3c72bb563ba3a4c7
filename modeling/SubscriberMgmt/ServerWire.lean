import SubscriberMgmt.Lib.FileLines
import SubscriberMgmt.ServerAuthorization
import SubscriberMgmt.ServerRegistry

/-!
# What clients read (`server.c:70-92`, `server.c:188-213`)

`conn_send` repeats `send` until the text is sent or a `send` fails, and its
callers ignore failures. The replies are lines with fields between spaces.
-/

namespace SubscriberMgmt
open CText

/-! ### Sending -/

/-- The loop of `conn_send` on the bytes that are left. The `i`-th `send` of the connection fails,
or takes `k + 1` bytes or what is left. Result: whether 0 is returned, the bytes that were taken,
and the number of the next `send`. -/
def sendLoop (net : ℕ → Option ℕ) (i : ℕ) (rest : Str) : Bool × Str × ℕ :=
  if _hrest : rest = [] then (true, [], i)
  else
    match net i with
    | none => (false, [], i + 1)
    | some k =>
      let r := sendLoop net (i + 1) (rest.drop (k + 1))
      (r.1, rest.take (k + 1) ++ r.2.1, r.2.2)
termination_by rest.length
decreasing_by
  have hpos := List.length_pos_iff.mpr _hrest
  rw [List.length_drop]
  omega

def connSend (net : ℕ → Option ℕ) (i : ℕ) (text : Str) : Bool × Str × ℕ :=
  sendLoop net i (text.take (smSrvLineMax - 1))

/-- The texts that a thread sends one after the other: the bytes that reach the client. -/
def connSendAll (net : ℕ → Option ℕ) (i : ℕ) : List Str → Str
  | [] => []
  | text :: texts =>
    let r := connSend net i text
    r.2.1 ++ connSendAll net r.2.2 texts

/-- Bytes are sent in order and none twice; all of them, if 0 is returned. -/
theorem sendLoop_sent (net : ℕ → Option ℕ) (i : ℕ) (rest : Str) :
    ∃ unsent, rest = (sendLoop net i rest).2.1 ++ unsent ∧
      ((sendLoop net i rest).1 = true ↔ unsent = []) := by
  fun_induction sendLoop net i rest with
  | case1 i => exact ⟨[], rfl, by simp⟩
  | case2 i rest hrest hnet => exact ⟨rest, rfl, by simp [hrest]⟩
  | case3 i rest hrest k hnet r ih =>
    obtain ⟨unsent, hrest', hall⟩ := ih
    refine ⟨unsent, ?_, hall⟩
    rw [List.append_assoc, ← hrest', List.take_append_drop]

/-- A network that never fails takes everything. -/
theorem sendLoop_whole {net : ℕ → Option ℕ} (hnet : ∀ i, net i ≠ none) (i : ℕ) (rest : Str) :
    (sendLoop net i rest).2.1 = rest := by
  fun_induction sendLoop net i rest with
  | case1 i => rfl
  | case2 i rest hrest hfail => exact absurd hfail (hnet i)
  | case3 i rest hrest k hk r ih => rw [ih, List.take_append_drop]

theorem connSendAll_whole {net : ℕ → Option ℕ} (hnet : ∀ i, net i ≠ none) {texts : List Str}
    (hfit : ∀ t ∈ texts, t.length < smSrvLineMax) (i : ℕ) :
    connSendAll net i texts = texts.flatten := by
  induction texts generalizing i with
  | nil => rfl
  | cons t texts ih =>
    have hlen := hfit t (List.mem_cons_self ..)
    have ht : t.take (smSrvLineMax - 1) = t := List.take_of_length_le (by omega)
    rw [connSendAll, connSend, ht, sendLoop_whole hnet,
      ih fun t ht => hfit t (List.mem_cons_of_mem _ ht), List.flatten_cons]

/-- Whatever the network does, each text arrives up to some point, in the order of the calls. -/
theorem connSendAll_cut (net : ℕ → Option ℕ) (i : ℕ) (texts : List Str) :
    ∃ pieces, connSendAll net i texts = pieces.flatten ∧
      List.Forall₂ List.IsPrefix pieces texts := by
  induction texts generalizing i with
  | nil => exact ⟨[], rfl, .nil⟩
  | cons t texts ih =>
    obtain ⟨unsent, hsent, -⟩ := sendLoop_sent net i (t.take (smSrvLineMax - 1))
    obtain ⟨pieces, hpieces, hall⟩ := ih (connSend net i t).2.2
    refine ⟨_ :: pieces, by rw [connSendAll, hpieces, List.flatten_cons], .cons ?_ hall⟩
    exact List.IsPrefix.trans ⟨unsent, hsent.symm⟩ ⟨t.drop _, List.take_append_drop ..⟩

/-! ### The fields of a reply -/

def Reply.words : Reply → List Str
  | .ready => [lit "OK", lit "subscriber-mgmt-server", lit "ready"]
  | .ok => [lit "OK"]
  | .bye => [lit "OK", lit "bye"]
  | .loggedIn role => [lit "OK", lit "role=" ++ smRoleToStr role]
  | .error st => [lit "ERR", smStatusStr st]
  | .loginRequired => [lit "ERR", lit "login", lit "required"]
  | .unauthorized => [lit "ERR", lit "unauthorized"]
  | .unknownCommand => [lit "ERR", lit "unknown", lit "command"]
  | .usageLogin => [lit "ERR", lit "usage:", lit "LOGIN", lit "<user>", lit "<pass>"]
  | .usageAdd =>
    [lit "ERR", lit "usage:", lit "ADD", lit "<imsi>", lit "<msisdn>", lit "<status>",
      lit "<name...>"]
  | .usageSearch => [lit "ERR", lit "usage:", lit "SEARCH", lit "<subscriber_id>"]
  | .usageDelete => [lit "ERR", lit "usage:", lit "DELETE", lit "<subscriber_id>"]
  | .added id => [lit "OK", lit "id=" ++ decimal id.toNat]
  | .found sub =>
    [lit "OK", lit "id=" ++ decimal sub.subscriberId.toNat, lit "imsi=" ++ sub.imsi.chars,
      lit "msisdn=" ++ sub.msisdn.chars, lit "status=" ++ subStatusToStr sub.status]
  | .deleted => [lit "OK", smStatusStr .ok]
  | .count n => [lit "OK", lit "count=" ++ decimal n]
  | .row sub =>
    [decimal sub.subscriberId.toNat, sub.imsi.chars, sub.msisdn.chars, subStatusToStr sub.status]
  | .listEnd => [lit "END"]

/-- A byte of a field. -/
def FieldByte (c : UInt8) : Prop := c ≠ 32 ∧ c ≠ newline

instance (c : UInt8) : Decidable (FieldByte c) := inferInstanceAs (Decidable (_ ∧ _))

def Reply.Clean (r : Reply) : Prop := ∀ w ∈ r.words, ∀ c ∈ w, FieldByte c

/-- How a client reads what it receives: line by line, the fields between spaces. -/
def readReplyLines (bytes : Str) : List (List Str) :=
  (fileLines bytes).map fun l => l.dropLast.splitOn 32

theorem Reply.text_words (r : Reply) :
    r.text = List.intercalate [32] r.words ++ [newline] := by
  have hsplit : lit "OK role=" = lit "OK" ++ 32 :: lit "role=" ∧
      lit "ERR " = lit "ERR" ++ [32] ∧ lit "OK id=" = lit "OK" ++ 32 :: lit "id=" ∧
      lit " imsi=" = 32 :: lit "imsi=" ∧ lit " msisdn=" = 32 :: lit "msisdn=" ∧
      lit " status=" = 32 :: lit "status=" ∧ lit "OK count=" = lit "OK" ++ 32 :: lit "count=" ∧
      lit " " = [32] ∧ lit "\n" = [newline] := by decide
  obtain ⟨h1, h2, h3, h4, h5, h6, h7, h8, h9⟩ := hsplit
  cases r with
  | loggedIn role | error st | added id | found sub | count n | row sub =>
    simp only [text, words, List.intercalate_cons_cons, List.intercalate_singleton, h1, h2, h3, h4,
      h5, h6, h7, h8, h9, List.append_assoc, List.cons_append, List.nil_append]
  | _ => decide

theorem Reply.words_ne_nil (r : Reply) : r.words ≠ [] := by
  cases r <;> exact List.cons_ne_nil _ _

theorem newline_intercalate {ws : List Str} (h : ∀ w ∈ ws, newline ∉ w) :
    newline ∉ List.intercalate [32] ws := by
  induction ws with
  | nil => exact List.not_mem_nil
  | cons w ws ih =>
    have hw := h w (List.mem_cons_self ..)
    cases ws with
    | nil => rwa [List.intercalate_singleton]
    | cons v vs =>
      rw [List.intercalate_cons_cons, List.mem_append, List.mem_append]
      rintro ((hm | hm) | hm)
      · exact hw hm
      · exact absurd hm (by decide)
      · exact ih (fun x hx => h x (List.mem_cons_of_mem _ hx)) hm

/-- Clean replies are read as they were meant. -/
theorem readReplyLines_replies {replies : List Reply} (h : ∀ r ∈ replies, r.Clean) :
    readReplyLines (replies.map Reply.text).flatten = replies.map Reply.words := by
  have hbody : ∀ r ∈ replies, newline ∉ List.intercalate [32] r.words := fun r hr =>
    newline_intercalate fun w hw hm => (h r hr w hw newline hm).2 rfl
  have hline : ∀ l ∈ replies.map Reply.text, IsLine l := by
    intro l hl
    obtain ⟨r, hr, rfl⟩ := List.mem_map.mp hl
    exact ⟨_, hbody r hr, r.text_words⟩
  rw [readReplyLines, fileLines_flatten hline, List.map_map]
  refine List.map_congr_left fun r hr => ?_
  rw [Function.comp_apply, r.text_words, List.dropLast_concat]
  exact List.splitOn_intercalate 32 (fun w hw hm => (h r hr w hw 32 hm).1 rfl) r.words_ne_nil

theorem digits_field {s : Str} (h : ∀ c ∈ s, isDigit c = true) : ∀ c ∈ s, FieldByte c := by
  intro c hc
  have hd := h c hc
  refine ⟨?_, ?_⟩ <;> rintro rfl <;> exact absurd hd (by decide)

theorem validDigits_field {lo hi : ℕ} {s : Str} (h : validDigits lo hi s = true) :
    ∀ c ∈ s, FieldByte c := by
  simp only [validDigits, Bool.and_eq_true, List.all_eq_true] at h
  exact digits_field h.2

/-- For texts that are known. -/
theorem field_of_all {s : Str} (h : s.all (fun c => FieldByte c) = true) :
    ∀ c ∈ s, FieldByte c := fun c hc => of_decide_eq_true (List.all_eq_true.mp h c hc)

theorem Reply.clean_of_all {r : Reply}
    (h : (r.words.all fun w => w.all fun c => FieldByte c) = true) : r.Clean := fun w hw =>
  field_of_all (List.all_eq_true.mp h w hw)

theorem smStatusStr_field (st : SmStatus) : ∀ c ∈ smStatusStr st, FieldByte c := by
  cases st <;> exact field_of_all (by decide)

theorem smRoleToStr_field (role : SmRole) : ∀ c ∈ smRoleToStr role, FieldByte c := by
  cases role <;> exact field_of_all (by simp only [smRoleToStr]; decide)

theorem subStatusToStr_field (status : SubStatus) : ∀ c ∈ subStatusToStr status, FieldByte c := by
  cases status <;> exact field_of_all (by simp only [subStatusToStr]; decide)

/-- A record whose IMSI and MSISDN have passed validation. -/
def Subscriber.Dialable (s : Subscriber) : Prop :=
  subValidateImsi s.imsi.chars = true ∧ subValidateMsisdn s.msisdn.chars = true

/-- What holds of a reply about the records of a database. -/
def Reply.Sound : Reply → Prop
  | .found sub => sub.Dialable
  | .row sub => sub.Dialable
  | .count n => n ≤ 2 ^ 64
  | _ => True

/-- `conn_send` cuts nothing off. -/
theorem Reply.fits {r : Reply} (h : r.Sound) : r.text.length < smSrvLineMax := by
  cases r with
  | count n =>
    have hpre : (lit "OK count=").length = 9 := by decide
    have hline : (lit "\n").length = 1 := by decide
    have hlen : (decimal n).length ≤ 20 :=
      decimal_length (by decide) (Nat.lt_of_le_of_lt h (by decide))
    simp only [text, List.length_append, smSrvLineMax]
    omega
  | _ => exact Reply.text_fits _ fun n he => by cases he

theorem Reply.clean {r : Reply} (h : r.Sound) : r.Clean := by
  have hkey : ∀ {key s : Str}, (∀ c ∈ key, FieldByte c) → (∀ c ∈ s, FieldByte c) →
      ∀ c ∈ key ++ s, FieldByte c := fun h1 h2 c hc =>
    (List.mem_append.mp hc).elim (h1 c) (h2 c)
  have hdecimal : ∀ n, ∀ c ∈ decimal n, FieldByte c := fun n => digits_field (decimal_isDigit n)
  have hok : ∀ c ∈ lit "OK", FieldByte c := field_of_all (by decide)
  have hid : ∀ c ∈ lit "id=", FieldByte c := field_of_all (by decide)
  cases r with
  | loggedIn role =>
    exact List.forall_mem_cons.mpr ⟨hok, List.forall_mem_singleton.mpr
      (hkey (field_of_all (by decide)) (smRoleToStr_field role))⟩
  | error st =>
    exact List.forall_mem_cons.mpr ⟨field_of_all (by decide), List.forall_mem_singleton.mpr
      (smStatusStr_field st)⟩
  | added id =>
    exact List.forall_mem_cons.mpr ⟨hok, List.forall_mem_singleton.mpr (hkey hid (hdecimal _))⟩
  | count n =>
    exact List.forall_mem_cons.mpr ⟨hok, List.forall_mem_singleton.mpr
      (hkey (field_of_all (by decide)) (hdecimal _))⟩
  | found sub =>
    obtain ⟨himsi, hmsisdn⟩ := h
    exact List.forall_mem_cons.mpr ⟨hok, List.forall_mem_cons.mpr ⟨hkey hid (hdecimal _),
      List.forall_mem_cons.mpr ⟨hkey (field_of_all (by decide)) (validDigits_field himsi),
      List.forall_mem_cons.mpr ⟨hkey (field_of_all (by decide)) (validDigits_field hmsisdn),
      List.forall_mem_singleton.mpr (hkey (field_of_all (by decide)) (subStatusToStr_field _))⟩⟩⟩⟩
  | row sub =>
    obtain ⟨himsi, hmsisdn⟩ := h
    exact List.forall_mem_cons.mpr ⟨hdecimal _, List.forall_mem_cons.mpr
      ⟨validDigits_field himsi, List.forall_mem_cons.mpr ⟨validDigits_field hmsisdn,
      List.forall_mem_singleton.mpr (subStatusToStr_field _)⟩⟩⟩
  | _ => exact Reply.clean_of_all (by decide)

/-! ### Responses -/

/-- A line that announces rows. -/
def countOf : List Str → Option ℕ
  | [ok, field] =>
    if ok = lit "OK" ∧ field.take 6 = lit "count=" then some (digitsValue (field.drop 6)) else none
  | _ => none

/-- How a client finds the end of a response: after a count come that many rows and one line. -/
def readResponses : List (List Str) → List (List (List Str))
  | [] => []
  | line :: rest =>
    match countOf line with
    | none => [line] :: readResponses rest
    | some n => (line :: rest.take (n + 1)) :: readResponses (rest.drop (n + 1))
termination_by lines => lines.length
decreasing_by
  · exact Nat.lt_succ_self _
  · rw [List.length_drop, List.length_cons]
    omega

/-- What is sent at one time: one line, or the three parts of a list. -/
inductive Response : List Reply → Prop
  | line {r : Reply} (h : countOf r.words = none) : Response [r]
  | list (rows : List Subscriber) : Response (.count rows.length :: rows.map .row ++ [.listEnd])

theorem countOf_count (n : ℕ) : countOf (Reply.count n).words = some n := by
  have htake : (lit "count=" ++ decimal n).take 6 = lit "count=" :=
    List.take_left' (by decide)
  have hdrop : (lit "count=" ++ decimal n).drop 6 = decimal n := List.drop_left' (by decide)
  simp only [Reply.words, countOf, htake, hdrop, and_self, if_true, digitsValue_decimal]

theorem Response.read {g : List Reply} (h : Response g) (rest : List (List Str)) :
    readResponses (g.map Reply.words ++ rest) = g.map Reply.words :: readResponses rest := by
  cases h with
  | line h =>
    rw [List.map_singleton, List.singleton_append, readResponses, h]
  | list rows =>
    rw [List.map_append, List.map_cons, List.cons_append, List.cons_append, readResponses,
      countOf_count]
    have hlen : ((rows.map Reply.row).map Reply.words ++ [Reply.listEnd].map Reply.words).length =
        rows.length + 1 := by
      simp only [List.length_append, List.length_map, List.length_singleton]
    dsimp only
    rw [List.take_left' hlen, List.drop_left' hlen]

/-- The client reads what was sent, one response after the other. -/
theorem readResponses_responses {gs : List (List Reply)} (h : ∀ g ∈ gs, Response g) :
    readResponses (gs.flatten.map Reply.words) = gs.map (List.map Reply.words) := by
  induction gs with
  | nil => rw [List.flatten_nil, List.map_nil, readResponses, List.map_nil]
  | cons g gs ih =>
    rw [List.flatten_cons, List.map_append, (h g (List.mem_cons_self ..)).read,
      ih fun g hg => h g (List.mem_cons_of_mem _ hg), List.map_cons]

/-! ### What one step sends -/

def repliesTo (c : ℕ) (log : List LogEntry) : List Reply :=
  log.filterMap fun
    | .reply c' r => if c' = c then some r else none
    | _ => none

@[simp] theorem repliesTo_append (c : ℕ) (l l' : List LogEntry) :
    repliesTo c (l ++ l') = repliesTo c l ++ repliesTo c l' := List.filterMap_append

theorem repliesTo_none {c : ℕ} {l : List LogEntry} (h : ∀ c' r, .reply c' r ∉ l) :
    repliesTo c l = [] := by
  refine List.filterMap_eq_nil_iff.mpr fun e he => ?_
  cases e with
  | reply c' r => exact absurd he (h c' r)
  | _ => rfl

theorem repliesTo_leases (c : ℕ) (events : List (Lease.Event Str AuthUser)) :
    repliesTo c (events.map .lease) = [] :=
  repliesTo_none fun c' r hm => by
    obtain ⟨e, -, he⟩ := List.mem_map.mp hm
    cases he

theorem repliesTo_replies (c c' : ℕ) (replies : List Reply) :
    repliesTo c (replies.map (.reply c')) = if c' = c then replies else [] := by
  split
  next h =>
    subst h
    induction replies with
    | nil => rfl
    | cons r replies ih =>
      rw [repliesTo, List.map_cons, List.filterMap_cons_some (by exact if_pos rfl)]
      exact congrArg _ ih
  next h =>
    refine List.filterMap_eq_nil_iff.mpr fun e he => ?_
    obtain ⟨r, -, rfl⟩ := List.mem_map.mp he
    exact if_neg h

theorem repliesTo_single (c c' : ℕ) (r : Reply) :
    repliesTo c [.reply c' r] = if c' = c then [r] else [] := repliesTo_replies c c' [r]

theorem repliesTo_one {c c' : ℕ} {r : Reply} {l m : List LogEntry} (hl : repliesTo c' l = [])
    (hm : repliesTo c' m = []) :
    repliesTo c' (l ++ .reply c r :: m) = if c = c' then [r] else [] := by
  rw [List.append_cons, repliesTo_append, repliesTo_append, hl, hm, repliesTo_single,
    List.append_nil, List.nil_append]

theorem countOf_error (st : SmStatus) : countOf (Reply.error st).words = none := by
  cases st <;> decide

theorem countOf_loggedIn (role : SmRole) : countOf (Reply.loggedIn role).words = none := by
  cases role <;> simp only [Reply.words, smRoleToStr] <;> decide

theorem countOf_added (id : UInt64) : countOf (Reply.added id).words = none := by
  have hne : (lit "id=" ++ decimal id.toNat).take 6 ≠ lit "count=" := by
    intro h
    have hhead : some (105 : UInt8) = some 99 := congrArg List.head? h
    exact absurd hhead (by decide)
  simp only [Reply.words, countOf, hne, and_false, if_false]

theorem countOf_found (sub : Subscriber) : countOf (Reply.found sub).words = none := rfl

theorem logoutClient_sends (s : ServerState) (client : Client) (c : ℕ) :
    repliesTo c (logoutClient s client).2 = [] :=
  repliesTo_none (logoutClient_quiet s client).2

def Client.handlers (client : Client) : ℕ := client.running.toList.length

/-- The handlers that run for the connection, at most one. -/
def ServerState.pending (s : ServerState) (c : ℕ) : ℕ := (s.clients c).elim 0 Client.handlers

/-- The step takes a command from the connection, or accepts it. -/
def ServerState.asks (s : ServerState) (c : ℕ) : ServerOp → Bool
  | .connect c' => c' = c && (s.clients c').isNone
  | .line c' line _ =>
    match s.clients c' with
    | some ⟨_, _, none⟩ => c' = c && (commandWord line).isSome
    | _ => false
  | _ => false

theorem ServerState.pending_idle {s : ServerState} {c : ℕ} {client : Client}
    (hc : s.clients c = some client) (hidle : client.running = none) : s.pending c = 0 := by
  rw [pending, hc, Option.elim_some, Client.handlers, hidle]
  rfl

theorem ServerState.pending_setClient (s : ServerState) (c : ℕ) (client : Option Client) :
    (s.setClient c client).pending c = client.elim 0 Client.handlers := by
  rw [pending, setClient]
  dsimp only
  rw [Function.update_self]

theorem ServerState.pending_other (s : ServerState) {c c' : ℕ} (h : c' ≠ c)
    (client : Option Client) : (s.setClient c client).pending c' = s.pending c' := by
  rw [pending, setClient]
  dsimp only
  rw [Function.update_of_ne h, pending]

/-- A line is blank, is answered at once with one line, or starts a handler. -/
inductive LineAnswer (s : ServerState) (c : ℕ) (line : Str) (out : ServerState × List LogEntry) :
    Prop
  | blank (hcmd : commandWord line = none) (hout : out = (s, []))
  | answered (hcmd : (commandWord line).isSome) (r : Reply) (hline : countOf r.words = none)
      (hlog : ∀ c', repliesTo c' out.2 = if c = c' then [r] else []) (hidle : out.1.pending c = 0)
  | started (hcmd : (commandWord line).isSome) (hlog : ∀ c', repliesTo c' out.2 = [])
      (hbusy : out.1.pending c = 1)

theorem cmdLogin_answer {s : ServerState} {c : ℕ} {client : Client} {line : Str}
    (hc : s.clients c = some client) (hidle : client.running = none) (args : Str)
    (input : LoginInput) (hcmd : (commandWord line).isSome) :
    LineAnswer s c line (cmdLogin s c client args input) := by
  have hpending := ServerState.pending_idle hc hidle
  have hset : ∀ (s : ServerState) (token : CharField (2 * smAuthTokenBytes)) (loggedIn : Bool),
      (s.setClient c (some ⟨token, loggedIn, client.running⟩)).pending c = 0 := by
    intro s token loggedIn
    rw [ServerState.pending_setClient, Option.elim_some, Client.handlers, hidle]
    rfl
  simp only [cmdLogin]
  split
  · exact .answered hcmd .usageLogin (by decide) (fun c' => repliesTo_single c' c _) hpending
  · split
    · exact .answered hcmd _ (countOf_error _)
        (fun c' => repliesTo_one (repliesTo_leases ..) rfl) hpending
    next session _ =>
      refine .answered hcmd (.loggedIn session.user.role) (countOf_loggedIn _) (fun c' => ?_)
        (hset ..)
      rw [List.append_cons]
      refine repliesTo_one ?_ rfl
      rw [repliesTo_append, repliesTo_leases]
      rfl

theorem clientLine_answer {s : ServerState} {c : ℕ} {client : Client}
    (hc : s.clients c = some client) (hidle : client.running = none) (line : Str)
    (input : LoginInput) : LineAnswer s c line (clientLine s c client line input) := by
  have hpending := ServerState.pending_idle hc hidle
  have hset : ∀ (s : ServerState) (token : CharField (2 * smAuthTokenBytes)) (loggedIn : Bool),
      (s.setClient c (some ⟨token, loggedIn, client.running⟩)).pending c = 0 := by
    intro s token loggedIn
    rw [ServerState.pending_setClient, Option.elim_some, Client.handlers, hidle]
    rfl
  unfold clientLine
  cases hword : commandWord line with
  | none => exact .blank hword rfl
  | some x =>
    obtain ⟨cmd, rest⟩ := x
    have hcmd : (commandWord line).isSome := by rw [hword, Option.isSome_some]
    dsimp only
    split
    · exact cmdLogin_answer hc hidle _ input hcmd
    · split
      -- LOGOUT
      · exact .answered hcmd .ok (by decide)
          (fun c' => repliesTo_one (m := []) (logoutClient_sends s client c') rfl) (hset ..)
      · split
        -- QUIT
        · exact .answered hcmd .bye (by decide)
            (fun c' => repliesTo_one (l := []) rfl (logoutClient_sends s client c'))
            (ServerState.pending_setClient ..)
        · split
          · exact .answered hcmd .loginRequired (by decide) (fun c' => repliesTo_single c' c _)
              hpending
          · split
            · exact .answered hcmd .unknownCommand (by decide) (fun c' => repliesTo_single c' c _)
                hpending
            · simp only [authorizeHandler]
              split
              · exact .answered hcmd .unauthorized (by decide)
                  (fun c' => repliesTo_one (repliesTo_leases ..) rfl) hpending
              · exact .started hcmd (fun c' => repliesTo_leases c' _)
                  (ServerState.pending_setClient ..)

theorem handler_responds (strs : SStrPool) (db : SubscriberDb) (now : Int64) (a : Alloc)
    (h : Handler) : Response (h.run strs db now a).2.2 := by
  cases h with
  | add args =>
    simp only [Handler.run, cmdAdd]
    split
    · exact .line (by decide)
    · dsimp only
      split
      · exact .line (countOf_added _)
      · exact .line (countOf_error _)
  | search args =>
    simp only [Handler.run, cmdSearch]
    split
    · exact .line (by decide)
    · split
      · exact .line (countOf_found _)
      · exact .line (countOf_error _)
  | delete args =>
    simp only [Handler.run, cmdDelete]
    split
    · exact .line (by decide)
    · dsimp only
      split
      · exact .line (by decide)
      · exact .line (countOf_error _)
  | list =>
    simp only [Handler.run, cmdList]
    split
    · exact .line (countOf_error _)
    · exact .list _

theorem Response.ne_nil {g : List Reply} (h : Response g) : g ≠ [] := by
  cases h <;> exact List.cons_ne_nil _ _

/-- What a step sends to a connection is nothing or one response, and what it asked for is
answered or pending. -/
def Answered (s : ServerState) (c : ℕ) (op : ServerOp) (out : ServerState × List LogEntry) : Prop :=
  (repliesTo c out.2 = [] ∧ out.1.pending c = s.pending c + (s.asks c op).toNat) ∨
    (Response (repliesTo c out.2) ∧ out.1.pending c + 1 = s.pending c + (s.asks c op).toNat)

theorem serverStep_answered (s : ServerState) (c : ℕ) (op : ServerOp) :
    Answered s c op (serverStep s op) := by
  cases op with
  | connect c' =>
    simp only [serverStep]
    split
    next client hc =>
      refine Or.inl ⟨rfl, ?_⟩
      simp only [ServerState.asks, hc, Option.isNone_some, Bool.and_false, Bool.toNat_false,
        Nat.add_zero]
    next hc =>
      have hlog : repliesTo c [.connected c', .reply c' .ready] = if c' = c then [.ready] else [] :=
        repliesTo_one (l := [.connected c']) rfl rfl
      rw [Answered, hlog]
      by_cases hcc : c' = c
      · subst hcc
        refine Or.inr ⟨by rw [if_pos rfl]; exact .line (by decide), ?_⟩
        rw [ServerState.pending_setClient, ServerState.pending, hc]
        simp [ServerState.asks, hc, Client.handlers]
      · refine Or.inl ⟨if_neg hcc, ?_⟩
        rw [ServerState.pending_other _ (Ne.symm hcc)]
        simp [ServerState.asks, hcc]
  | line c' line input =>
    simp only [serverStep]
    split
    next token loggedIn hc =>
      have hasks : s.asks c (.line c' line input) = (c' = c && (commandWord line).isSome) := by
        simp only [ServerState.asks, hc]
      have hother : c' ≠ c → (clientLine s c' ⟨token, loggedIn, none⟩ line input).1.pending c =
          s.pending c := by
        intro hcc
        obtain ⟨auth, x, he⟩ := clientLine_frame s c' ⟨token, loggedIn, none⟩ line input
        rw [he]
        exact ServerState.pending_other s (Ne.symm hcc) x
      have hidle := ServerState.pending_idle hc rfl
      have hanswer := clientLine_answer hc rfl line input
      generalize clientLine s c' ⟨token, loggedIn, none⟩ line input = out at hanswer hother ⊢
      have hcommand : repliesTo c (.command c' :: out.2) = repliesTo c out.2 := rfl
      rw [Answered, hasks, hcommand]
      by_cases hcc : c' = c
      · subst hcc
        rw [hidle]
        cases hanswer with
        | blank hcmd hout =>
          subst hout
          exact Or.inl ⟨rfl, by simp [hcmd, hidle]⟩
        | answered hcmd r hline hlog hidle' =>
          rw [hlog, if_pos rfl]
          exact Or.inr ⟨.line hline, by simp [hcmd, hidle']⟩
        | started hcmd hlog hbusy => exact Or.inl ⟨hlog c', by simp [hcmd, hbusy]⟩
      · have hnone : repliesTo c out.2 = [] := by
          cases hanswer with
          | blank hcmd hout => rw [hout]; rfl
          | answered hcmd r hline hlog hidle' => rw [hlog, if_neg hcc]
          | started hcmd hlog hbusy => exact hlog c
        exact Or.inl ⟨hnone, by simp [hcc, hother hcc]⟩
    next hc =>
      refine Or.inl ⟨rfl, ?_⟩
      simp only [ServerState.asks, Bool.toNat_false, Nat.add_zero]
  | finish c' now a =>
    simp only [serverStep]
    split
    next token loggedIn h hc =>
      rw [Answered, repliesTo_replies]
      by_cases hcc : c' = c
      · subst hcc
        refine Or.inr ⟨by rw [if_pos rfl]; exact handler_responds s.strs s.db now a h, ?_⟩
        rw [ServerState.pending_setClient, ServerState.pending, hc]
        rfl
      · refine Or.inl ⟨if_neg hcc, ?_⟩
        rw [ServerState.pending_other _ (Ne.symm hcc)]
        rfl
    next => exact Or.inl ⟨rfl, rfl⟩
  | hangup c' =>
    simp only [serverStep]
    split
    next token loggedIn hc =>
      refine Or.inl ⟨logoutClient_sends s _ c, ?_⟩
      obtain ⟨auth, he⟩ := logoutClient_frame s ⟨token, loggedIn, none⟩
      rw [he]
      by_cases hcc : c' = c
      · subst hcc
        rw [ServerState.pending_setClient, ServerState.pending_idle hc rfl]
        rfl
      · rw [ServerState.pending_other _ (Ne.symm hcc)]
        rfl
    next => exact Or.inl ⟨rfl, rfl⟩
  | account op => exact Or.inl ⟨repliesTo_leases c _, rfl⟩

/-! ### Runs -/

theorem searchResult_ok {p p' : SStrPool} {mem : Block → Subscriber}
    {found : Except SmStatus Block} {a : Alloc} {sub : Subscriber}
    (h : searchResult p mem found a = (.ok sub, p')) : ∃ b, found = .ok b ∧ mem b = sub := by
  cases found with
  | error st => cases h
  | ok b =>
    refine ⟨b, rfl, ?_⟩
    simp only [searchResult, makeSnapshot] at h
    cases ha : a 0 with
    | false =>
      rw [ha] at h
      cases h
    | true =>
      rw [ha] at h
      cases h
      rfl

/-- What a handler sends about records is about records of the database. -/
theorem handler_sound {strs : SStrPool} {db : SubscriberDb} (hs : GoodState (strs, db))
    (now : Int64) (a : Alloc) (h : Handler) : ∀ r ∈ (h.run strs db now a).2.2, r.Sound := by
  obtain ⟨-, base, listed, live, bound, hinv, hgood⟩ := hs
  have hlive : ∀ b ∈ live, (db.mem b).Dialable := fun b hb =>
    ⟨(hgood b hb).imsi, (hgood b hb).msisdn⟩
  intro r hr
  cases h with
  | add args =>
    simp only [Handler.run, cmdAdd] at hr
    split at hr
    · cases List.mem_singleton.mp hr
      trivial
    · dsimp only at hr
      split at hr <;> cases List.mem_singleton.mp hr <;> trivial
  | search args =>
    simp only [Handler.run, cmdSearch] at hr
    split at hr
    · cases List.mem_singleton.mp hr
      trivial
    · rename_i id _
      split at hr
      · rename_i sub strs' hfound
        cases List.mem_singleton.mp hr
        obtain ⟨b, hget, rfl⟩ := searchResult_ok hfound
        exact hlive b (hinv.indexed.sub b (hinv.indexed.byId.get_ok_iff.mp hget).1)
      · cases List.mem_singleton.mp hr
        trivial
  | delete args =>
    simp only [Handler.run, cmdDelete] at hr
    split at hr
    · cases List.mem_singleton.mp hr
      trivial
    · dsimp only at hr
      split at hr <;> cases List.mem_singleton.mp hr <;> trivial
  | list =>
    simp only [Handler.run, cmdList] at hr
    split at hr
    · cases List.mem_singleton.mp hr
      trivial
    · rename_i arr strs' hlist
      have harr : arr = dbRecords db := subdbListAll_ok hlist
      rcases List.mem_cons.mp hr with rfl | hr
      · rw [harr]
        exact hinv.records_length
      · rcases List.mem_append.mp hr with hr | hr
        · obtain ⟨sub, hmem, rfl⟩ := List.mem_map.mp hr
          rw [harr] at hmem
          obtain ⟨b, hb, rfl⟩ := List.mem_map.mp (hinv.records.mem_iff.mp hmem)
          exact hlive b (hinv.indexed.sub b hb)
        · cases List.mem_singleton.mp hr
          trivial

theorem handler_good {strs : SStrPool} {db : SubscriberDb} (hs : GoodState (strs, db)) (now : Int64)
    (a : Alloc) (h : Handler) :
    GoodState ((h.run strs db now a).1, (h.run strs db now a).2.1) := by
  cases h with
  | add args =>
    simp only [Handler.run, cmdAdd]
    split
    · exact hs
    · exact hs.add ..
  | search args =>
    simp only [Handler.run, cmdSearch]
    split
    · exact hs
    · rename_i id _
      have hfound := hs.keeps (Query.keeps strs db a (.byId id))
      simp only [Query.run] at hfound
      rcases hres : subdbSearchById strs db id a with ⟨st | sub, strs'⟩ <;> rw [hres] at hfound
      · exact hfound
      · exact hfound.keeps (SStrPool.keeps_tracks.releaseTexts strs' sub)
  | delete args =>
    simp only [Handler.run, cmdDelete]
    split
    · exact hs
    · exact hs.delete _
  | list =>
    simp only [Handler.run, cmdList]
    have hfound := hs.keeps (Query.keeps strs db a .all)
    simp only [Query.run] at hfound
    rcases hres : subdbListAll strs db a with ⟨st | array, strs'⟩ <;> rw [hres] at hfound
    · exact hfound
    · exact hfound.keeps (SStrPool.keeps_tracks.freeResults strs' array)

theorem serverStep_good {s : ServerState} (hs : GoodState (s.strs, s.db)) (op : ServerOp) :
    GoodState ((serverStep s op).1.strs, (serverStep s op).1.db) := by
  cases hx : s.finishing op with
  | none =>
    obtain ⟨hstrs, hdb⟩ := serverStep_quiet hx
    rw [hstrs, hdb]
    exact hs
  | some x =>
    obtain ⟨-, hstrs, hdb⟩ := serverStep_finishing hx
    rw [hstrs, hdb]
    exact handler_good hs x.now x.a x.handler

theorem mem_repliesTo {c : ℕ} {r : Reply} {log : List LogEntry} (h : r ∈ repliesTo c log) :
    .reply c r ∈ log := by
  obtain ⟨e, he, hsome⟩ := List.mem_filterMap.mp h
  cases e with
  | reply c' r' =>
    dsimp only at hsome
    split at hsome
    next hc =>
      cases hsome
      exact hc ▸ he
    next => cases hsome
  | _ => cases hsome

theorem serverStep_sound {s : ServerState} (hs : GoodState (s.strs, s.db)) (op : ServerOp) (c : ℕ) :
    ∀ r ∈ repliesTo c (serverStep s op).2, r.Sound := by
  intro r hr
  have hlog := mem_repliesTo hr
  rcases serverStep_effect s op with ⟨-, hquiet⟩ | ⟨c', now, a, client, h, -, -, -, -, hout⟩
  · have hnone := hquiet c r hlog
    cases r with
    | found sub => cases hnone
    | row sub => cases hnone
    | count n => cases hnone
    | _ => trivial
  · rw [hout] at hlog
    obtain ⟨r', hr', he'⟩ := List.mem_map.mp hlog
    cases he'
    exact handler_sound hs now a h r hr'

theorem serverLog_sound {start : ServerState} (h : GoodState (start.strs, start.db))
    (ops : List ServerOp) (c : ℕ) : ∀ r ∈ repliesTo c (serverLog start ops), r.Sound := by
  intro r hr
  obtain ⟨out, hout, hlog⟩ := List.mem_flatten.mp (mem_repliesTo hr)
  obtain ⟨pre, op, post, -, rfl⟩ := Machine.mem_outputs hout
  have hgood : GoodState ((Machine.final serverStep start pre).strs,
      (Machine.final serverStep start pre).db) :=
    Machine.final_invariant (P := fun s : ServerState => GoodState (s.strs, s.db))
      (fun s op hs => serverStep_good hs op) h pre
  refine serverStep_sound hgood op c r (List.mem_filterMap.mpr ⟨_, hlog, if_pos rfl⟩)

/-- The responses to a connection, in the order in which its thread sends them. -/
def responsesTo (c : ℕ) (outs : List (List LogEntry)) : List (List Reply) :=
  (outs.map (repliesTo c)).filter (· ≠ [])

theorem responsesTo_flatten (c : ℕ) (outs : List (List LogEntry)) :
    (responsesTo c outs).flatten = repliesTo c outs.flatten := by
  induction outs with
  | nil => rfl
  | cons out outs ih =>
    rw [List.flatten_cons, repliesTo_append, ← ih, responsesTo, List.map_cons, List.filter_cons]
    split
    next => rfl
    next hnil =>
      rw [of_not_not (mt decide_eq_true hnil)]
      rfl

theorem responsesTo_response (start : ServerState) (ops : List ServerOp) (c : ℕ) :
    ∀ g ∈ responsesTo c (Machine.outputs serverStep start ops), Response g := by
  intro g hg
  obtain ⟨hmem, hne⟩ := List.mem_filter.mp hg
  obtain ⟨out, hout, rfl⟩ := List.mem_map.mp hmem
  obtain ⟨pre, op, post, -, rfl⟩ := Machine.mem_outputs hout
  rcases serverStep_answered (Machine.final serverStep start pre) c op with ⟨hnil, -⟩ | ⟨h, -⟩
  · exact absurd hnil (of_decide_eq_true hne)
  · exact h

/-- Each text arrives up to some point and in order, whatever the network does; and where it takes
everything, the client reads the responses of the run one after the other. -/
theorem client_reads {start : ServerState} (h : GoodState (start.strs, start.db))
    (ops : List ServerOp) (c : ℕ) (net : ℕ → Option ℕ) :
    let replies := repliesTo c (serverLog start ops)
    let bytes := connSendAll net 0 (replies.map Reply.text)
    (∃ pieces, bytes = pieces.flatten ∧
        List.Forall₂ List.IsPrefix pieces (replies.map Reply.text)) ∧
      ((∀ i, net i ≠ none) → readResponses (readReplyLines bytes) =
        (responsesTo c (Machine.outputs serverStep start ops)).map (List.map Reply.words)) := by
  intro replies bytes
  have hsound := serverLog_sound h ops c
  refine ⟨connSendAll_cut net 0 _, fun hnet => ?_⟩
  have hfit : ∀ t ∈ replies.map Reply.text, t.length < smSrvLineMax := by
    intro t ht
    obtain ⟨r, hr, rfl⟩ := List.mem_map.mp ht
    exact Reply.fits (hsound r hr)
  have hbytes : bytes = (replies.map Reply.text).flatten := connSendAll_whole hnet hfit 0
  rw [hbytes, readReplyLines_replies fun r hr => Reply.clean (hsound r hr), serverLog,
    ← responsesTo_flatten, readResponses_responses (responsesTo_response start ops c)]

theorem client_reads_list : ∃ db, subdbCreate Alloc.all = .ok db ∧
    let start : ServerState := .start (adminFile 48 (lit "0"))
      (sstrPoolInit SStrPool.start 16 Alloc.all).2 db
    readResponses (readReplyLines (connSendAll (fun i => some (i % 3)) 0
        ((repliesTo 3 (serverLog start addThenList)).map Reply.text))) =
      [[[lit "OK", lit "subscriber-mgmt-server", lit "ready"]], [[lit "OK", lit "role=ADMIN"]],
        [[lit "OK", lit "id=1"]],
        [[lit "OK", lit "count=1"],
          [lit "1", lit "310150123456789", lit "14155550100", lit "ACTIVE"], [lit "END"]]] := by
  have hdb : ∃ db, subdbCreate Alloc.all = .ok db ∧
      (responsesTo 3 (Machine.outputs serverStep (.start (adminFile 48 (lit "0"))
        (sstrPoolInit SStrPool.start 16 Alloc.all).2 db) addThenList)).map (List.map Reply.words) =
      [[[lit "OK", lit "subscriber-mgmt-server", lit "ready"]], [[lit "OK", lit "role=ADMIN"]],
        [[lit "OK", lit "id=1"]],
        [[lit "OK", lit "count=1"],
          [lit "1", lit "310150123456789", lit "14155550100", lit "ACTIVE"], [lit "END"]]] :=
    ⟨_, rfl, by decide +kernel⟩
  obtain ⟨db, hdb, hwords⟩ := hdb
  have hgood : GoodState ((sstrPoolInit SStrPool.start 16 Alloc.all).2, db) :=
    (Reachable.created (SStrPool.init_wf SStrPool.start_wf 16 Alloc.all) hdb).good
  have hread := (@client_reads (.start (adminFile 48 (lit "0")) _ db) hgood addThenList 3
    fun i => some (i % 3)).2 fun i he => by cases he
  exact ⟨db, hdb, hread.trans hwords⟩

/-! ### One response for each command -/

/-- The steps that ask for a response to the connection. -/
def askedBy (c : ℕ) (start : ServerState) (ops : List ServerOp) : List (ServerOp × List LogEntry) :=
  Machine.seen (fun s op => if s.asks c op then some op else none) serverStep start ops

theorem ServerState.pending_le (s : ServerState) (c : ℕ) : s.pending c ≤ 1 := by
  unfold pending Client.handlers
  cases s.clients c with
  | none => exact Nat.zero_le _
  | some client =>
    obtain ⟨token, loggedIn, running⟩ := client
    cases running with
    | none => exact Nat.zero_le _
    | some h => exact le_rfl

theorem answered_from (c : ℕ) (start : ServerState) (ops : List ServerOp) :
    (responsesTo c (Machine.outputs serverStep start ops)).length +
        (Machine.final serverStep start ops).pending c =
      start.pending c + (askedBy c start ops).length := by
  induction ops generalizing start with
  | nil => exact Nat.zero_add _
  | cons op ops ih =>
    have hrest := ih (serverStep start op).1
    have hasked : (askedBy c start (op :: ops)).length =
        (start.asks c op).toNat + (askedBy c (serverStep start op).1 ops).length := by
      rw [askedBy, Machine.seen, List.length_append]
      cases start.asks c op <;> rfl
    rw [Machine.outputs, Machine.final_cons, responsesTo, List.map_cons, List.filter_cons, hasked]
    rw [responsesTo] at hrest
    rcases serverStep_answered start c op with ⟨hnil, hpending⟩ | ⟨hresponse, hpending⟩
    · rw [if_neg (by simpa using hnil)]
      omega
    · rw [if_pos (by simpa using hresponse.ne_nil), List.length_cons]
      omega

/-- However the threads interleave, each connection and each command that is not blank has had
one response, except for the handler that is running. -/
theorem answered_once (files : Str → Option Str) (p : SStrPool) (db : SubscriberDb)
    (ops : List ServerOp) (c : ℕ) :
    let start : ServerState := .start files p db
    let running := (Machine.final serverStep start ops).pending c
    (responsesTo c (Machine.outputs serverStep start ops)).length + running =
        (askedBy c start ops).length ∧ running ≤ 1 := by
  intro start running
  have hfrom := answered_from c start ops
  have hstart : start.pending c = 0 := rfl
  rw [hstart, Nat.zero_add] at hfrom
  exact ⟨hfrom, ServerState.pending_le _ c⟩

end SubscriberMgmt
