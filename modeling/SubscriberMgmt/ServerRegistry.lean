import SubscriberMgmt.Server
import SubscriberMgmt.SubscriberLending

/-!
# The server answers as the registry does

Handlers of different threads run in any order between the authorizations and
lines of others. What they send is what one registry answers to their requests,
taken one at a time in the order in which they finish.
-/

namespace SubscriberMgmt

/-- A handler that some thread finishes. -/
structure Finished where
  client : ℕ
  handler : Handler
  now : Int64
  a : Alloc

def ServerState.finishing (s : ServerState) : ServerOp → Option Finished
  | .finish c now a =>
    match s.clients c with
    | some ⟨_, _, some h⟩ => some ⟨c, h, now, a⟩
    | _ => none
  | _ => none

/-! ### Requests and the texts of their answers -/

/-- The call that a handler makes, if its arguments can be read. -/
def Handler.request (now : Int64) : Handler → Option RegistryCall
  | .add args => (scanAdd args).map fun x =>
    .add ⟨some x.1, some x.2.1, some x.2.2.2, some (lit "UNSET"), some (lit "UNSET"),
      subStatusFromStr x.2.2.1, true, now⟩
  | .search args => (scanId args).map fun id => .search (.byId id)
  | .delete args => (scanId args).map .delete
  | .list => some (.search .all)

def Handler.usage : Handler → List Str
  | .add _ => [Reply.usageAdd.text]
  | .search _ => [Reply.usageSearch.text]
  | .delete _ => [Reply.usageDelete.text]
  | .list => []

def foundText (e : UInt64 × Account) : Str :=
  lit "OK id=" ++ CText.decimal e.1.toNat ++ lit " imsi=" ++ e.2.fields.imsi ++
    lit " msisdn=" ++ e.2.fields.msisdn ++ lit " status=" ++
    subStatusToStr e.2.fields.status ++ lit "\n"

def rowText (e : UInt64 × Account) : Str :=
  CText.decimal e.1.toNat ++ lit " " ++ e.2.fields.imsi ++ lit " " ++ e.2.fields.msisdn ++
    lit " " ++ subStatusToStr e.2.fields.status ++ lit "\n"

/-- What is sent for an answer. -/
def Handler.texts : Handler → RegistryAnswer → List Str
  | .add _, .added id => [(Reply.added id).text]
  | .search _, .rows rows => rows.map foundText
  | .delete _, .done => [Reply.deleted.text]
  | .list, .rows rows =>
    (Reply.count rows.length).text :: rows.map rowText ++ [Reply.listEnd.text]
  | _, .failed st => [(Reply.error st).text]
  | _, _ => []

/-- What the registry may answer to a command. -/
inductive Registry.Handles (r : Registry) (x : Finished) : List (ℕ × Str) → Registry → Prop
  | usage (hnone : x.handler.request x.now = none) :
      Handles r x (x.handler.usage.map (Prod.mk x.client)) r
  | served {call : RegistryCall} {o : RegistryAnswer} {r' : Registry}
      (hsome : x.handler.request x.now = some call) (h : r.Serves (.call call x.a) o r') :
      Handles r x ((x.handler.texts o).map (Prod.mk x.client)) r'

def LogEntry.sent : LogEntry → Option (ℕ × Str)
  | .reply c r => some (c, r.text)
  | _ => none

/-- An answer to a finished command, as it is seen in the log. -/
def Registry.Answers (r : Registry) (x : Finished) (log : List LogEntry) (r' : Registry) : Prop :=
  r.Handles x (log.filterMap LogEntry.sent) r'

def Finished.adds (x : Finished) : ℕ :=
  match x.handler with
  | .add _ => 1
  | _ => 0

/-! ### One finished handler -/

section Finish

variable {p : SStrPool} {db : SubscriberDb} {r : Registry}

theorem cmdAdd_serves (h : r.HeldBy (p, db)) (hlast : r.last + 1 < 2 ^ 64) (c : ℕ) (args : Str)
    (now : Int64) (a : Alloc) :
    let out := cmdAdd p db args now a
    ∃ r', r.Handles ⟨c, .add args, now, a⟩ (out.2.2.map fun y => (c, y.text)) r' ∧
      r'.HeldBy (out.1, out.2.1) ∧ r'.last ≤ r.last + 1 := by
  intro out
  simp only [out, cmdAdd]
  cases hscan : scanAdd args with
  | none =>
    exact ⟨r, .usage (by simp only [Handler.request, hscan, Option.map_none]), h, Nat.le_succ _⟩
  | some x =>
    obtain ⟨imsi, msisdn, status, name⟩ := x
    have hreq : Handler.request now (.add args) = some (.add ⟨some imsi, some msisdn, some name,
        some (lit "UNSET"), some (lit "UNSET"), subStatusFromStr status, true, now⟩) := by
      simp only [Handler.request, hscan, Option.map_some]
    obtain ⟨r', hadds, hheld, hle⟩ := h.add hlast _ a
    have hserved := Registry.Handles.served (x := ⟨c, .add args, now, a⟩) hreq (.add hadds)
    refine ⟨r', ?_, hheld, hle⟩
    simp only [RegistryCall.run] at hserved
    dsimp only [List.map_cons, List.map_nil]
    split at hserved
    next hst =>
      rw [if_pos hst]
      exact hserved
    next hst =>
      rw [if_neg hst]
      exact hserved

theorem cmdSearch_serves (h : r.HeldBy (p, db)) (hlast : r.last < 2 ^ 64) (c : ℕ) (args : Str)
    (now : Int64) (a : Alloc) :
    let out := cmdSearch p db args a
    r.Handles ⟨c, .search args, now, a⟩ (out.2.map fun y => (c, y.text)) r ∧
      r.HeldBy (out.1, db) := by
  intro out
  simp only [out, cmdSearch]
  cases hscan : scanId args with
  | none => exact ⟨.usage (by simp only [Handler.request, hscan, Option.map_none]), h⟩
  | some id =>
    have hreq : Handler.request now (.search args) = some (.search (.byId id)) := by
      simp only [Handler.request, hscan, Option.map_some]
    have hserved := Registry.Handles.served (x := ⟨c, .search args, now, a⟩) hreq
      (.search (h.search hlast.le (.byId id) a))
    have hheld := h.pool (Query.keeps p db a (.byId id))
    simp only [RegistryCall.run, Query.run] at hserved hheld
    dsimp only
    rcases hres : subdbSearchById p db id a with ⟨st | sub, p'⟩ <;> rw [hres] at hserved hheld
    · exact ⟨hserved, hheld⟩
    · exact ⟨hserved, hheld.pool (SStrPool.keeps_tracks.releaseTexts p' sub)⟩

theorem cmdDelete_serves (h : r.HeldBy (p, db)) (hlast : r.last < 2 ^ 64) (c : ℕ) (args : Str)
    (now : Int64) (a : Alloc) :
    let out := cmdDelete p db args
    ∃ r', r.Handles ⟨c, .delete args, now, a⟩ (out.2.2.map fun y => (c, y.text)) r' ∧
      r'.HeldBy (out.1, out.2.1) ∧ r'.last ≤ r.last := by
  intro out
  simp only [out, cmdDelete]
  cases hscan : scanId args with
  | none =>
    exact ⟨r, .usage (by simp only [Handler.request, hscan, Option.map_none]), h, le_rfl⟩
  | some id =>
    have hreq : Handler.request now (.delete args) = some (.delete id) := by
      simp only [Handler.request, hscan, Option.map_some]
    obtain ⟨r', hdeletes, hheld, hle⟩ := h.delete hlast.le id a
    refine ⟨r', ?_, hheld, hle⟩
    have hserved := Registry.Handles.served (x := ⟨c, .delete args, now, a⟩) hreq
      (.delete hdeletes)
    simp only [RegistryCall.run] at hserved
    dsimp only
    cases hst : (subdbDelete p db id).1 with
    | ok =>
      rw [hst] at hserved
      exact hserved
    | _ =>
      rw [hst] at hserved
      exact hserved

theorem cmdList_serves (h : r.HeldBy (p, db)) (hlast : r.last < 2 ^ 64) (c : ℕ) (now : Int64)
    (a : Alloc) :
    let out := cmdList p db a
    r.Handles ⟨c, .list, now, a⟩ (out.2.map fun y => (c, y.text)) r ∧ r.HeldBy (out.1, db) := by
  intro out
  have hserved := Registry.Handles.served (x := ⟨c, .list, now, a⟩) rfl
    (.search (h.search hlast.le .all a))
  have hheld := h.pool (Query.keeps p db a .all)
  simp only [RegistryCall.run, Query.run] at hserved hheld
  simp only [out, cmdList]
  rcases hres : subdbListAll p db a with ⟨st | array, p'⟩ <;> rw [hres] at hserved hheld
  · exact ⟨hserved, hheld⟩
  · refine ⟨?_, hheld.pool (SStrPool.keeps_tracks.freeResults p' array)⟩
    simp only [RegistryAnswer.ofSearch, Handler.texts, List.map_append, List.map_cons, List.map_map,
      List.length_map] at hserved
    simp only [List.map_append, List.map_cons, List.map_map]
    exact hserved

/-- A finished handler is one request to the registry. -/
theorem handler_serves (h : r.HeldBy (p, db)) (x : Finished) (hlast : r.last + x.adds < 2 ^ 64) :
    let out := x.handler.run p db x.now x.a
    ∃ r', r.Handles x (out.2.2.map fun y => (x.client, y.text)) r' ∧
      r'.HeldBy (out.1, out.2.1) ∧ r'.last ≤ r.last + x.adds := by
  obtain ⟨c, handler, now, a⟩ := x
  cases handler with
  | add args => exact cmdAdd_serves h hlast c args now a
  | search args =>
    obtain ⟨hserved, hheld⟩ := cmdSearch_serves h hlast c args now a
    exact ⟨r, hserved, hheld, le_rfl⟩
  | delete args => exact cmdDelete_serves h hlast c args now a
  | list =>
    obtain ⟨hserved, hheld⟩ := cmdList_serves h hlast c now a
    exact ⟨r, hserved, hheld, le_rfl⟩

end Finish

/-! ### Runs of the server -/

theorem serverStep_finishing {s : ServerState} {op : ServerOp} {x : Finished}
    (hx : s.finishing op = some x) :
    let out := x.handler.run s.strs s.db x.now x.a
    (serverStep s op).2 = out.2.2.map (.reply x.client) ∧ (serverStep s op).1.strs = out.1 ∧
      (serverStep s op).1.db = out.2.1 := by
  cases op with
  | finish c now a =>
    simp only [ServerState.finishing] at hx
    split at hx
    next token loggedIn h hc =>
      cases hx
      simp only [serverStep, hc]
      exact ⟨trivial, rfl, rfl⟩
    next => cases hx
  | _ => cases hx

/-- The other steps touch neither the records nor their texts. -/
theorem serverStep_quiet {s : ServerState} {op : ServerOp} (hx : s.finishing op = none) :
    (serverStep s op).1.strs = s.strs ∧ (serverStep s op).1.db = s.db := by
  cases op with
  | connect c =>
    simp only [serverStep]
    split <;> exact ⟨rfl, rfl⟩
  | line c line input =>
    simp only [serverStep]
    split
    next token loggedIn _ =>
      obtain ⟨auth, y, he⟩ := clientLine_frame s c ⟨token, loggedIn, none⟩ line input
      dsimp only
      rw [he]
      exact ⟨rfl, rfl⟩
    next => exact ⟨rfl, rfl⟩
  | finish c now a =>
    simp only [ServerState.finishing] at hx
    simp only [serverStep]
    split
    next token loggedIn h hc =>
      rw [hc] at hx
      cases hx
    next => exact ⟨rfl, rfl⟩
  | hangup c =>
    simp only [serverStep]
    split
    next token loggedIn _ =>
      obtain ⟨auth, he⟩ := logoutClient_frame s ⟨token, loggedIn, none⟩
      dsimp only
      rw [he]
      exact ⟨rfl, rfl⟩
    next => exact ⟨rfl, rfl⟩
  | account op => exact ⟨rfl, rfl⟩

theorem sent_replies (c : ℕ) (replies : List Reply) :
    (replies.map (LogEntry.reply c)).filterMap LogEntry.sent =
      replies.map fun y => (c, y.text) := by
  rw [List.filterMap_map]
  exact List.filterMap_eq_map (f := fun y : Reply => (c, y.text)) ▸ rfl

/-- The commands that a run finishes, with what it logs for them. -/
def serverSeen (s : ServerState) (ops : List ServerOp) : List (Finished × List LogEntry) :=
  Machine.seen ServerState.finishing serverStep s ops

theorem serverStep_serves {n : ℕ} {s : ServerState} {r : Registry} {op : ServerOp} {x : Finished}
    (hr : r.HeldBy (s.strs, s.db) ∧ r.last ≤ n) (hx : s.finishing op = some x)
    (hle : n + x.adds < 2 ^ 64) :
    ∃ r', r.Answers x (serverStep s op).2 r' ∧
      r'.HeldBy ((serverStep s op).1.strs, (serverStep s op).1.db) ∧ r'.last ≤ n + x.adds := by
  obtain ⟨hlog, hstrs, hdb⟩ := serverStep_finishing hx
  obtain ⟨r', hserved, hheld, hlast⟩ := handler_serves hr.1 x (by omega)
  refine ⟨r', ?_, ?_, by omega⟩
  · rw [Registry.Answers, hlog, sent_replies]
    exact hserved
  · rw [hstrs, hdb]
    exact hheld

theorem serverStep_held {n : ℕ} {s : ServerState} {r : Registry} {op : ServerOp}
    (hr : r.HeldBy (s.strs, s.db) ∧ r.last ≤ n) (hx : s.finishing op = none) :
    r.HeldBy ((serverStep s op).1.strs, (serverStep s op).1.db) ∧ r.last ≤ n := by
  obtain ⟨hstrs, hdb⟩ := serverStep_quiet hx
  rw [hstrs, hdb]
  exact hr

/-- A run of the server, by the requests it finishes and the ids they may use up. -/
theorem serverRun_serves {s : ServerState} {r : Registry} (h : r.HeldBy (s.strs, s.db))
    (ops : List ServerOp)
    (hlast : r.last + ((serverSeen s ops).map fun x => x.1.adds).sum < 2 ^ 64) :
    ∃ r', Machine.Runs Registry.Answers r ((serverSeen s ops).map Prod.fst)
        ((serverSeen s ops).map Prod.snd) r' ∧
      r'.HeldBy ((Machine.final serverStep s ops).strs, (Machine.final serverStep s ops).db) ∧
      r'.last ≤ r.last + ((serverSeen s ops).map fun x => x.1.adds).sum := by
  have hseen : ∀ (n : ℕ) (s : ServerState) (r : Registry) (op : ServerOp) (x : Finished),
      r.HeldBy (s.strs, s.db) ∧ r.last ≤ n → s.finishing op = some x → n + x.adds ≤ 2 ^ 64 - 1 →
      ∃ r', r.Answers x (serverStep s op).2 r' ∧
        r'.HeldBy ((serverStep s op).1.strs, (serverStep s op).1.db) ∧ r'.last ≤ n + x.adds :=
    fun _ _ _ _ _ hr hx hle => serverStep_serves hr hx (by omega)
  exact Machine.refines_seen hseen (fun _ _ _ _ hr hx => serverStep_held hr hx) ⟨h, le_rfl⟩ ops
    (by simp only [serverSeen] at hlast; omega)

/-! ### References -/

/-- References that a handler may take at one time. -/
def Finished.takes (db : SubscriberDb) (x : Finished) : ℕ :=
  match x.handler with
  | .add _ => 3
  | .search _ => 3
  | .delete _ => 0
  | .list => 3 * subdbCount db

/-- In what a step finishes no count of references comes round. -/
def ServerState.Fits (s : ServerState) (op : ServerOp) : Prop :=
  ∀ x, s.finishing op = some x → Room s.db.handles (x.takes s.db)

section References

variable {p : SStrPool} {db : SubscriberDb}

/-- A handler gives back what its search has taken. -/
theorem handler_lent (h : Lent ((p, db), [])) (x : Finished)
    (hroom : Room db.handles (x.takes db)) :
    let out := x.handler.run p db x.now x.a
    Lent ((out.1, out.2.1), []) := by
  intro out
  have hroom' : Room (lentRefs db []) (x.takes db) := by rwa [lentRefs_nil]
  obtain ⟨c, handler, now, a⟩ := x
  obtain ⟨listed, live, bound, hinv⟩ := h.inv
  cases handler with
  | add args =>
    simp only [out, Handler.run, cmdAdd]
    cases scanAdd args with
    | none => exact h
    | some f => exact (subdbAdd_refs hinv h.refs hroom' ..).1.lent
  | delete args =>
    simp only [out, Handler.run, cmdDelete]
    cases scanId args with
    | none => exact h
    | some id => exact (subdbDelete_refs hinv h.refs id).lent
  | search args =>
    simp only [out, Handler.run, cmdSearch]
    cases scanId args with
    | none => exact h
    | some id =>
      have hfound := h.search (.byId id) hroom' a
      simp only [Query.run] at hfound
      dsimp only
      rcases hres : subdbSearchById p db id a with ⟨st | sub, p'⟩ <;> rw [hres] at hfound
      · exact hfound
      · refine ⟨h.inv, ?_⟩
        apply hfound.refs.releaseTexts
        simp only [lentRefs, Except.map, Except.toOption, Option.toList_some, List.append_nil,
          List.flatten_cons, List.flatten_nil, List.flatMap_cons, List.flatMap_nil]
        exact List.perm_append_comm
  | list =>
    simp only [out, Handler.run, cmdList]
    have hfound := h.search .all hroom' a
    simp only [Query.run] at hfound
    rcases hres : subdbListAll p db a with ⟨st | array, p'⟩ <;> rw [hres] at hfound
    · exact hfound
    · have hfree := hfound.free (List.mem_singleton_self array)
      simp only [Except.toOption, Option.toList_some, List.append_nil, List.erase_cons_head]
        at hfree
      exact hfree

theorem serverStep_lent {s : ServerState} (h : Lent ((s.strs, s.db), [])) {op : ServerOp}
    (hfits : s.Fits op) : Lent (((serverStep s op).1.strs, (serverStep s op).1.db), []) := by
  cases hx : s.finishing op with
  | none =>
    obtain ⟨hstrs, hdb⟩ := serverStep_quiet hx
    rw [hstrs, hdb]
    exact h
  | some x =>
    obtain ⟨-, hstrs, hdb⟩ := serverStep_finishing hx
    rw [hstrs, hdb]
    exact handler_lent h x (hfits x hx)

end References

/-- Whatever the clients send and however their threads interleave, the finished commands are
answered as one registry answers them. While the counts of references fit, the texts are those of
live strings. -/
theorem server_refines {files : Str → Option Str} {p : SStrPool} {db : SubscriberDb} {r : Registry}
    (h : r.HeldBy (p, db)) (ops : List ServerOp)
    (hlast : r.last + ((serverSeen (.start files p db) ops).map fun x => x.1.adds).sum < 2 ^ 64) :
    let seen := serverSeen (.start files p db) ops
    let last := Machine.final serverStep (.start files p db) ops
    ∃ r', Machine.Runs Registry.Answers r (seen.map Prod.fst) (seen.map Prod.snd) r' ∧
      r'.HeldBy (last.strs, last.db) ∧
      (p.Refs db.handles → Machine.Along serverStep ServerState.Fits (.start files p db) ops →
        (∀ i ∈ last.db.handles, (last.strs.cells i).live = true) ∧
          ∀ i, (last.strs.cells i).refcount.toNat = last.db.handles.count i) := by
  intro seen last
  obtain ⟨r', hrun, hheld, -⟩ := serverRun_serves (s := .start files p db) h ops hlast
  refine ⟨r', hrun, hheld, fun hrefs hfits => ?_⟩
  obtain ⟨listed, live, hinv, -⟩ := h.held
  have hstart : Lent ((p, db), []) := by
    refine ⟨⟨listed, live, _, hinv⟩, ?_⟩
    rwa [lentRefs_nil]
  have hlent : Lent ((last.strs, last.db), []) :=
    hfits.invariant (P := fun s => Lent ((s.strs, s.db), [])) (fun _ _ hs hop =>
      serverStep_lent hs hop) hstart
  have hall := hlent.refs
  rw [lentRefs_nil] at hall
  exact ⟨fun i hi => (hall.live i).mpr hi, hall.count⟩

def addThenList : List ServerOp :=
  [.account adminInit, .connect 3, .line 3 (lit "LOGIN admin x") (zeroLogin 7),
    .line 3 (lit "ADD 310150123456789 14155550100 ACTIVE A. User") (zeroLogin 9),
    .finish 3 5 Alloc.all, .line 3 (lit "LIST") (zeroLogin 10), .finish 3 6 Alloc.all]

theorem server_refines_list : ∃ db r, subdbCreate Alloc.all = .ok db ∧
    let start := ServerState.start (adminFile 48 (lit "0"))
      (sstrPoolInit SStrPool.start 16 Alloc.all).2 db
    let seen := serverSeen start addThenList
    let last := Machine.final serverStep start addThenList
    Machine.Runs Registry.Answers Registry.empty (seen.map Prod.fst) (seen.map Prod.snd) r ∧
      (seen.flatMap fun x => x.2.filterMap LogEntry.sent) =
        [(3, lit "OK id=1\n"), (3, lit "OK count=1\n"),
          (3, lit "1 310150123456789 14155550100 ACTIVE\n"), (3, lit "END\n")] ∧
      last.db.handles.length = 3 ∧ ∀ i ∈ last.db.handles, (last.strs.cells i).live = true := by
  have hdb : ∃ db, subdbCreate Alloc.all = .ok db ∧ db.handles = [] ∧
      let start := ServerState.start (adminFile 48 (lit "0"))
        (sstrPoolInit SStrPool.start 16 Alloc.all).2 db
      let seen := serverSeen start addThenList
      (seen.flatMap fun x => x.2.filterMap LogEntry.sent) =
          [(3, lit "OK id=1\n"), (3, lit "OK count=1\n"),
            (3, lit "1 310150123456789 14155550100 ACTIVE\n"), (3, lit "END\n")] ∧
        (seen.map fun x => x.1.adds).sum = 1 ∧
        (Machine.final serverStep start addThenList).db.handles.length = 3 ∧
        Machine.Along serverStep (fun s op => ((s.finishing op).all fun x =>
          decide (s.db.handles.length + x.takes s.db < 2 ^ 32)) = true) start addThenList := by
    refine ⟨_, rfl, by decide +kernel, by decide +kernel, by decide +kernel, by decide +kernel, ?_⟩
    refine ⟨?_, ?_, ?_, ?_, ?_, ?_, ?_, trivial⟩
    all_goals decide +kernel
  obtain ⟨db, hdb, hnil, htexts, hadds, hlen, hroom⟩ := hdb
  have hnew := Registry.HeldBy.create (SStrPool.init_wf SStrPool.start_wf 16 Alloc.all) rfl hdb
  have hrefs : (sstrPoolInit SStrPool.start 16 Alloc.all).2.Refs db.handles := by
    rw [hnil]
    exact (Store.Inv.init 16 Alloc.all).refs
  have hfits : Machine.Along serverStep ServerState.Fits _ addThenList :=
    hroom.mono fun s op hall x hx =>
      Room.of_length (of_decide_eq_true ((Option.all_eq_true _ _).mp hall x hx))
  obtain ⟨r, hrun, -, hlive⟩ := @server_refines (adminFile 48 (lit "0")) _ db _ hnew addThenList
    (by rw [hadds]; decide)
  exact ⟨db, r, hdb, hrun, htexts, hlen, (hlive hrefs hfits).1⟩

end SubscriberMgmt
