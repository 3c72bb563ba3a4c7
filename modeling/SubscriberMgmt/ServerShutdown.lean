import SubscriberMgmt.CsvRestart
import SubscriberMgmt.Server

/-!
# Stopping the server (`server.c:331-367`)

The threads of the connections are detached. `main` leaves the accept loop, saves
the database and frees it without waiting for them.
-/

namespace SubscriberMgmt
open CText

/-! ### The threads and `main` -/

/-- The last thing that `main` has done. -/
inductive MainPhase where
  | accepting
  | left
  | saved
  | destroyed
  | authDown
  | poolDown
  | exited
  deriving DecidableEq

def MainPhase.hasSaved : MainPhase → Bool
  | .accepting => false
  | .left => false
  | _ => true

def MainPhase.hasFreed : MainPhase → Bool
  | .accepting => false
  | .left => false
  | .saved => false
  | _ => true

theorem MainPhase.saved_of_freed {phase : MainPhase} (h : phase.hasFreed = true) :
    phase.hasSaved = true := by
  cases phase with
  | accepting => cases h
  | left => cases h
  | _ => rfl

structure StopState where
  server : ServerState
  files : Str → Option Str
  phase : MainPhase

def StopState.store (x : StopState) : DbState := (x.server.strs, x.server.db)

inductive StopOp where
  | thread (op : ServerOp)
  | leave
  | save (io : SaveIo) (a : Alloc)
  | destroy (a : Alloc)
  | authShutdown (io : UserIo)
  | poolShutdown
  | exit

/-- What is observed: adds and deletes that were answered with OK, commands that
call `subscriber.c`, and the end of the database. -/
inductive StopEvent where
  | added (id : UInt64) (r : SubscriberFields)
  | deleted (id : UInt64)
  | used (c : ℕ)
  | destroyed
  deriving DecidableEq

/-- A handler whose arguments do not scan answers without the database. -/
def Handler.callsDb : Handler → Bool
  | .add args => (scanAdd args).isSome
  | .search args => (scanId args).isSome
  | .delete args => (scanId args).isSome
  | .list => true

def addedFields (f : Str × Str × Str × Str) : SubscriberFields :=
  ⟨f.1, f.2.1, f.2.2.2, lit "UNSET", lit "UNSET", subStatusFromStr f.2.2.1⟩

def Handler.answered : Handler → List Reply → List StopEvent
  | .add args, [.added id] => (scanAdd args).toList.map fun f => .added id (addedFields f)
  | .delete args, [.deleted] => (scanId args).toList.map .deleted
  | _, _ => []

/-- The rest of a command. What a call on the freed database does is not said: the
state stays as it was. -/
def finishStep (x : StopState) (c : ℕ) (now : Int64) (a : Alloc) : StopState × List StopEvent :=
  match x.server.clients c with
  | some ⟨_, _, some h⟩ =>
    if x.phase.hasFreed && h.callsDb then (x, [.used c])
    else
      ({ x with server := (serverStep x.server (.finish c now a)).1 },
        if h.callsDb then
          .used c :: h.answered (h.run x.server.strs x.server.db now a).2.2
        else [])
  | _ => (x, [])

/-- Threads start in the accept loop and run until the process ends; `main` goes
from one phase to the next. -/
def stopStep (x : StopState) : StopOp → StopState × List StopEvent
  | .thread op =>
    if x.phase = .exited then (x, [])
    else
      match op with
      | .finish c now a => finishStep x c now a
      | .connect c =>
        if x.phase = .accepting then
          ({ x with server := (serverStep x.server (.connect c)).1 }, [])
        else (x, [])
      | op => ({ x with server := (serverStep x.server op).1 }, [])
  | .leave => if x.phase = .accepting then ({ x with phase := .left }, []) else (x, [])
  | .save io a =>
    if x.phase = .left then
      let r := subdbSaveCsv x.server.strs x.server.db (some subscribersPath) io a
        (Disk.start x.files)
      ({ server := { x.server with strs := r.2.1 }, files := r.2.2.files, phase := .saved }, [])
    else (x, [])
  | .destroy a =>
    if x.phase = .saved then
      ({ x with
        server := { x.server with strs := subdbDestroy x.server.strs x.server.db a }
        phase := .destroyed }, [.destroyed])
    else (x, [])
  | .authShutdown io =>
    if x.phase = .destroyed then
      ({ x with
        server := { x.server with auth := SubscriberMgmt.authShutdown x.server.auth io }
        phase := .authDown }, [])
    else (x, [])
  | .poolShutdown =>
    if x.phase = .authDown then
      ({ x with
        server := { x.server with strs := sstrPoolShutdown x.server.strs }
        phase := .poolDown }, [])
    else (x, [])
  | .exit => if x.phase = .poolDown then ({ x with phase := .exited }, []) else (x, [])

/-- The server at its accept loop, with the database that it has loaded. -/
def StopState.start (auth : AuthState) (files : Str → Option Str) (s : DbState) : StopState :=
  ⟨⟨auth, s.1, s.2, fun _ => none⟩, files, .accepting⟩

def stopLog (x : StopState) (ops : List StopOp) : List StopEvent :=
  (Machine.outputs stopStep x ops).flatten

/-! ### Runs in which the threads are done in time -/

/-- The handler calls the database, and can no longer do so in time. -/
def Handler.Late (phase : MainPhase) (h : Handler) : Prop :=
  h.callsDb = true ∧ (phase.hasFreed = true ∨ phase.hasSaved = true ∧ h.action = .subAdd)

/-- No thread is in an ADD when `main` has saved, or in any command when it has
freed the database; the save succeeds; and the id counter has not come round. -/
structure InTime (x : StopState) (op : StopOp) : Prop where
  handlers : ∀ c client h, x.server.clients c = some client → client.running = some h →
    ¬ h.Late x.phase
  save : ∀ io a, op = .save io a → io.Succeeds ∧ ∀ k < x.server.db.byId.nodes.length, AllocAt a k
  ids : x.server.db.nextId ≠ 0

/-- The record with an id is in the file. -/
def InFile (content : Str) (id : UInt64) (r : SubscriberFields) : Prop :=
  ∃ piece ∈ recordLines content, lineRecord piece = some r ∧
    ∃ f, scanRecord (chompLine piece) = some f ∧ f.idS = decimal id.toNat

/-- The add of the record was answered with OK, and no later delete of it. -/
def Standing (log : List StopEvent) (id : UInt64) (r : SubscriberFields) : Prop :=
  ∃ before after, log = before ++ .added id r :: after ∧ .deleted id ∉ after

theorem Standing.append {log out : List StopEvent} {id : UInt64} {r : SubscriberFields}
    (h : Standing (log ++ out) id r) :
    (Standing log id r ∧ .deleted id ∉ out) ∨ .added id r ∈ out := by
  obtain ⟨before, after, he, hdel⟩ := h
  rcases List.append_eq_append_iff.mp he with ⟨mid, -, hout⟩ | ⟨mid, hlog, hafter⟩
  · right
    rw [hout]
    exact List.mem_append_right _ (List.mem_cons_self ..)
  · cases mid with
    | nil =>
      right
      rw [List.nil_append] at hafter
      rw [← hafter]
      exact List.mem_cons_self ..
    | cons e mid =>
      rw [List.cons_append, List.cons.injEq] at hafter
      obtain ⟨rfl, rfl⟩ := hafter
      rw [List.mem_append, not_or] at hdel
      exact Or.inl ⟨⟨before, mid, hlog, hdel.1⟩, hdel.2⟩

theorem Standing.added {log : List StopEvent} {id : UInt64} {r : SubscriberFields}
    (h : Standing log id r) : .added id r ∈ log := by
  obtain ⟨before, after, rfl, -⟩ := h
  exact List.mem_append_right _ (List.mem_cons_self ..)

/-! ### What a command does to the contents -/

theorem serverStep_store {s : ServerState} {op : ServerOp}
    (hop : ∀ c now a, op ≠ .finish c now a) :
    (serverStep s op).1.strs = s.strs ∧ (serverStep s op).1.db = s.db := by
  cases op with
  | connect c =>
    simp only [serverStep]
    split <;> exact ⟨rfl, rfl⟩
  | finish c now a => exact absurd rfl (hop c now a)
  | hangup c =>
    simp only [serverStep]
    split
    · obtain ⟨auth, he⟩ := logoutClient_frame s ⟨_, _, none⟩
      rw [he]
      exact ⟨rfl, rfl⟩
    · exact ⟨rfl, rfl⟩
  | account op => exact ⟨rfl, rfl⟩
  | line c line input =>
    simp only [serverStep]
    split
    · obtain ⟨auth, x, he⟩ := clientLine_frame s c ⟨_, _, none⟩ line input
      rw [he]
      exact ⟨rfl, rfl⟩
    · exact ⟨rfl, rfl⟩

theorem cmdSearch_keeps (p : SStrPool) (db : SubscriberDb) (args : Str) (a : Alloc) :
    p.Keeps (cmdSearch p db args a).1 := by
  unfold cmdSearch
  split
  case h_1 => exact .refl p
  case h_2 id _ =>
    have hsearch := SStrPool.keeps_tracks.searchResult p db.mem
      (htGet (idOps db.mem) db.byId (.value id)) a
    change p.Keeps (subdbSearchById p db id a).2 at hsearch
    generalize subdbSearchById p db id a = r at hsearch ⊢
    obtain ⟨r, p'⟩ := r
    cases r with
    | error st => exact hsearch
    | ok sub => exact hsearch.trans (SStrPool.keeps_tracks.releaseTexts p' sub)

theorem cmdList_keeps (p : SStrPool) (db : SubscriberDb) (a : Alloc) :
    p.Keeps (cmdList p db a).1 := by
  have hlist := SStrPool.keeps_tracks.filteredSearch p db (fun _ _ => true) a
  change p.Keeps (subdbListAll p db a).2 at hlist
  unfold cmdList
  generalize subdbListAll p db a = r at hlist ⊢
  obtain ⟨r, p'⟩ := r
  cases r with
  | error st => exact hlist
  | ok arr => exact hlist.trans (SStrPool.keeps_tracks.freeResults p' arr)

/-- What a command with its answer does to the contents. -/
structure Answers (h : Handler) (n : ℕ) (s : DbState) (r : SStrPool × SubscriberDb × List Reply) :
    Prop where
  good : GoodAfter (n + 1) (r.1, r.2.1)
  added : ∀ id f, .added id f ∈ h.answered r.2.2 →
    (id, f) ∈ dbContents (r.1, r.2.1) ∧ f.status.IsEnumerator
  kept : ∀ id f, (id, f) ∈ dbContents s → .deleted id ∉ h.answered r.2.2 →
    (id, f) ∈ dbContents (r.1, r.2.1)

theorem Answers.quiet {h : Handler} {n : ℕ} {p p' : SStrPool} {db : SubscriberDb}
    (hg : GoodAfter n (p, db)) (hk : p.Keeps p') {replies : List Reply}
    (hno : h.answered replies = []) : Answers h n (p, db) (p', db, replies) := by
  obtain ⟨hp, he, -⟩ := hk hg.parts.1
  refine ⟨(hg.pool hp he).mono (Nat.le_succ n), fun id f hf => ?_, fun id f hf _ => ?_⟩
  · rw [hno] at hf
    cases hf
  · rwa [dbContents_pool hg he]

theorem Handler.run_answers (h : Handler) {n : ℕ} {p : SStrPool} {db : SubscriberDb}
    (hg : GoodAfter n (p, db)) (hn : n < 2 ^ 64) (now : Int64) (a : Alloc) :
    Answers h n (p, db) (h.run p db now a) := by
  cases h with
  | search args => exact .quiet hg (cmdSearch_keeps p db args a) rfl
  | list => exact .quiet hg (cmdList_keeps p db a) rfl
  | add args =>
    simp only [Handler.run, cmdAdd]
    cases hscan : scanAdd args with
    | none => exact .quiet hg (.refl p) rfl
    | some x =>
      obtain ⟨imsi, msisdn, status, name⟩ := x
      obtain ⟨hgood, hadd⟩ := hg.add hn (some imsi) (some msisdn) (some name) (some (lit "UNSET"))
        (some (lit "UNSET")) (subStatusFromStr status) true now a
      dsimp only
      generalize subdbAdd p db (some imsi) (some msisdn) (some name) (some (lit "UNSET"))
        (some (lit "UNSET")) (subStatusFromStr status) true now a = r at hgood hadd ⊢
      cases hadd with
      | kept hst hsame =>
        rw [if_neg hst]
        exact ⟨hgood, fun id f hf => (by cases hf), fun id f hf _ => hsame.mem_iff.mpr hf⟩
      | @added id i m t g q hst hid hargs hnew hmore =>
        obtain ⟨h1, h2, h3, h4, h5⟩ := hargs
        cases h1; cases h2; cases h3; cases h4; cases h5
        rw [if_pos hst, hid, Option.getD_some]
        have hout : (Handler.add args).answered [.added id] =
            [.added id (addedFields (imsi, msisdn, status, name))] := by
          simp only [Handler.answered, hscan, Option.toList_some, List.map_cons, List.map_nil]
        refine ⟨hgood, fun id' f hf => ?_, fun id' f hf _ =>
          hmore.mem_iff.mpr (List.mem_cons_of_mem _ hf)⟩
        rw [hout] at hf
        cases List.mem_singleton.mp hf
        exact ⟨hmore.mem_iff.mpr (List.mem_cons_self ..), subStatusFromStr_enumerator _⟩
  | delete args =>
    simp only [Handler.run, cmdDelete]
    cases hscan : scanId args with
    | none => exact .quiet hg (.refl p) rfl
    | some id =>
      obtain ⟨hgood, hdel⟩ := hg.delete (Nat.le_of_lt hn) id
      dsimp only
      generalize subdbDelete p db id = r at hgood hdel ⊢
      rcases hdel with ⟨hst, hsame⟩ | ⟨hst, r', hless⟩
      · rw [if_neg hst]
        refine ⟨hgood.mono (Nat.le_succ n), fun id' f hf => (by cases hf), fun id' f hf _ => ?_⟩
        rw [hsame]
        exact hf
      · rw [if_pos hst]
        have hout : (Handler.delete args).answered [.deleted] = [.deleted id] := by
          simp only [Handler.answered, hscan, Option.toList_some, List.map_cons, List.map_nil]
        refine ⟨hgood.mono (Nat.le_succ n), fun id' f hf => ?_, fun id' f hf hno => ?_⟩
        · rw [hout] at hf
          cases List.mem_singleton.mp hf
        · rw [hout, List.mem_singleton] at hno
          refine (List.mem_cons.mp (hless.mem_iff.mp hf)).resolve_left fun he => hno ?_
          exact congrArg (fun e => StopEvent.deleted e.1) he

theorem Handler.answered_added {h : Handler} {replies : List Reply} {id : UInt64}
    {r : SubscriberFields} (he : .added id r ∈ h.answered replies) : h.action = .subAdd := by
  unfold Handler.answered at he
  split at he
  · rfl
  · obtain ⟨id', -, hid⟩ := List.mem_map.mp he
    cases hid
  · cases he

theorem Handler.answered_calls {h : Handler} {replies : List Reply} {e : StopEvent}
    (he : e ∈ h.answered replies) : h.callsDb = true := by
  unfold Handler.answered at he
  split at he
  · obtain ⟨f, hf, -⟩ := List.mem_map.mp he
    exact Option.isSome_of_mem (Option.mem_toList.mp hf)
  · obtain ⟨id, hid, -⟩ := List.mem_map.mp he
    exact Option.isSome_of_mem (Option.mem_toList.mp hid)
  · cases he

theorem Handler.answered_destroyed (h : Handler) (replies : List Reply) :
    .destroyed ∉ h.answered replies := by
  intro he
  unfold Handler.answered at he
  split at he
  · obtain ⟨f, -, hf⟩ := List.mem_map.mp he
    cases hf
  · obtain ⟨id, -, hid⟩ := List.mem_map.mp he
    cases hid
  · cases he

/-! ### The saved file -/

theorem inFile_csvFile {n : ℕ} {p : SStrPool} {db : SubscriberDb} (h : GoodAfter n (p, db))
    {id : UInt64} {r : SubscriberFields} (hr : (id, r) ∈ dbContents (p, db))
    (hst : r.status.IsEnumerator) : InFile (csvFile p db) id r := by
  obtain ⟨x, hx, he⟩ := List.mem_map.mp hr
  cases he
  have hgood := h.records x hx
  have hline : csvLine p x ∈ recordLines (csvFile p db) := by
    rw [recordLines_csvFile h]
    exact List.mem_map_of_mem hx
  have hscan := hgood.scanRecord
  rw [← chompLine_line hgood.lineText, ← csvLine_eq] at hscan
  exact ⟨csvLine p x, hline, hgood.lineRecord hst, _, hscan, rfl⟩

/-! ### One step -/

structure StopInv (x : StopState) (log : List StopEvent) : Prop where
  store : x.phase.hasFreed = false → ∃ n < 2 ^ 64, GoodAfter n x.store ∧
    ∀ id r, Standing log id r → (id, r) ∈ dbContents x.store
  status : ∀ id r, .added id r ∈ log → r.status.IsEnumerator
  file : x.phase.hasSaved = true → ∃ content, x.files subscribersPath = some content ∧
    ∀ id r, Standing log id r → InFile content id r
  alive : x.phase.hasFreed = false → .destroyed ∉ log
  used : ∀ before after, log = before ++ .destroyed :: after → ∀ c, .used c ∉ after

namespace StopInv

variable {x x' : StopState} {log : List StopEvent}

theorem still (h : StopInv x log) (hstore : x'.store = x.store) (hfiles : x'.files = x.files)
    (hsaved : x'.phase.hasSaved = x.phase.hasSaved)
    (hfreed : x'.phase.hasFreed = x.phase.hasFreed) :
    StopInv x' (log ++ []) := by
  rw [List.append_nil]
  refine ⟨?_, h.status, ?_, ?_, h.used⟩
  · rw [hfreed, hstore]
    exact h.store
  · rw [hsaved, hfiles]
    exact h.file
  · rw [hfreed]
    exact h.alive

/-- Once the database is freed only the file matters. -/
theorem frozen (h : StopInv x log) (hfiles : x'.files = x.files)
    (hsaved : x.phase.hasSaved = true) (hfreed : x'.phase.hasFreed = true) :
    StopInv x' (log ++ []) := by
  rw [List.append_nil]
  refine ⟨fun hf => ?_, h.status, fun _ => ?_, fun hf => ?_, h.used⟩
  · rw [hfreed] at hf
    cases hf
  · rw [hfiles]
    exact h.file hsaved
  · rw [hfreed] at hf
    cases hf

/-- A command that runs before the database is freed, and is not too late for what
it does. -/
theorem ran (h : StopInv x log) (hx : x.phase.hasFreed = false) {k : Handler}
    (hlate : ¬ k.Late x.phase) (hids : x.server.db.nextId ≠ 0) (c : ℕ) (now : Int64) (a : Alloc)
    {out : List StopEvent} (hphase : x'.phase = x.phase) (hfiles : x'.files = x.files)
    (hstore : x'.store = ((k.run x.server.strs x.server.db now a).1,
      (k.run x.server.strs x.server.db now a).2.1))
    (hout : ∀ e, e ∈ out ↔ k.callsDb = true ∧
      (e = .used c ∨ e ∈ k.answered (k.run x.server.strs x.server.db now a).2.2)) :
    StopInv x' (log ++ out) := by
  obtain ⟨n, hn, hgood, hstanding⟩ := h.store hx
  obtain ⟨m, hm, hgood⟩ := hgood.tighten hn hids
  have hrun := k.run_answers hgood (by omega) now a
  have hadded : ∀ id r, .added id r ∈ out →
      .added id r ∈ k.answered (k.run x.server.strs x.server.db now a).2.2 := by
    intro id r hr
    exact ((hout _).mp hr).2.resolve_left (by simp)
  have hdestroyed : .destroyed ∉ log ++ out := by
    intro he
    rcases List.mem_append.mp he with he | he
    · exact h.alive hx he
    · rcases ((hout _).mp he).2 with he | he
      · cases he
      · exact k.answered_destroyed _ he
  refine ⟨fun _ => ⟨m + 1, hm, ?_, fun id r hr => ?_⟩, fun id r hr => ?_, fun hsaved => ?_,
    fun _ => hdestroyed, fun before after he => ?_⟩
  · rw [hstore]
    exact hrun.good
  · rw [hstore]
    rcases hr.append with ⟨hold, hdel⟩ | hnew
    · refine hrun.kept id r (hstanding id r hold) fun hd => hdel ?_
      exact (hout _).mpr ⟨Handler.answered_calls hd, Or.inr hd⟩
    · exact (hrun.added id r (hadded id r hnew)).1
  · rcases List.mem_append.mp hr with hr | hr
    · exact h.status id r hr
    · exact (hrun.added id r (hadded id r hr)).2
  · -- an ADD that is answered now would be too late
    rw [hphase] at hsaved
    rw [hfiles]
    obtain ⟨content, hfile, hin⟩ := h.file hsaved
    refine ⟨content, hfile, fun id r hr => ?_⟩
    rcases hr.append with ⟨hold, -⟩ | hnew
    · exact hin id r hold
    · have ha := hadded id r hnew
      exact absurd ⟨Handler.answered_calls ha, Or.inr ⟨hsaved, Handler.answered_added ha⟩⟩ hlate
  · refine absurd ?_ hdestroyed
    rw [he]
    exact List.mem_append_right _ (List.mem_cons_self ..)

theorem finish (h : StopInv x log) {c : ℕ} {now : Int64} {a : Alloc}
    (hin : InTime x (.thread (.finish c now a))) :
    StopInv (finishStep x c now a).1 (log ++ (finishStep x c now a).2) := by
  unfold finishStep
  split
  case h_2 => exact h.still rfl rfl rfl rfl
  case h_1 token loggedIn k hc =>
    have hlate := hin.handlers c _ k hc rfl
    split
    case isTrue hfreed =>
      rw [Bool.and_eq_true] at hfreed
      exact absurd ⟨hfreed.2, Or.inl hfreed.1⟩ hlate
    case isFalse hfreed =>
      cases hx : x.phase.hasFreed with
      | true =>
        -- the command has not called the database
        rw [if_neg fun hcalls => hfreed (by rw [hx, hcalls]; rfl)]
        exact h.frozen rfl (MainPhase.saved_of_freed hx) hx
      | false =>
        refine h.ran hx hlate hin.ids c now a rfl rfl ?_ fun e => ?_
        · simp only [StopState.store, serverStep, hc]
          rfl
        · split <;> simp [*]

theorem save (h : StopInv x log) (hx : x.phase = .left) {io : SaveIo} {a : Alloc}
    (hin : InTime x (.save io a)) :
    StopInv (stopStep x (.save io a)).1 (log ++ (stopStep x (.save io a)).2) := by
  obtain ⟨n, hn, hgood, hstanding⟩ := h.store (by rw [hx]; rfl)
  obtain ⟨hio, hlist⟩ := hin.save io a rfl
  have hpath : subscribersPath.length ≠ 599 := by decide
  have hok := (subdbSaveCsv_succeeds x.server.strs x.server.db hpath hio a x.files).resolve_right
    fun hno => hno.1 hlist
  have hfile := subdbSaveCsv_file hok
  obtain ⟨hp, he, -⟩ := SStrPool.keeps_tracks.saveCsv x.server.strs x.server.db
    (some subscribersPath) io a (Disk.start x.files) hgood.parts.1
  have hsame := dbContents_pool hgood he
  simp only [stopStep, hx, if_true, List.append_nil]
  refine ⟨fun _ => ⟨n, hn, hgood.pool hp he, fun id r hr => ?_⟩, h.status, fun _ => ?_,
    fun _ => h.alive (by rw [hx]; rfl), h.used⟩
  · show (id, r) ∈ dbContents (_, x.server.db)
    rw [hsame]
    exact hstanding id r hr
  · refine ⟨_, hfile, fun id r hr => ?_⟩
    exact inFile_csvFile hgood (hstanding id r hr) (h.status id r hr.added)

theorem destroy (h : StopInv x log) (hx : x.phase = .saved) (a : Alloc) :
    StopInv (stopStep x (.destroy a)).1 (log ++ (stopStep x (.destroy a)).2) := by
  have halive := h.alive (by rw [hx]; rfl)
  obtain ⟨content, hfile, hin⟩ := h.file (by rw [hx]; rfl)
  simp only [stopStep, hx, if_true]
  refine ⟨fun hf => (by cases hf), fun id r hr => ?_, fun _ => ⟨content, hfile, fun id r hr => ?_⟩,
    fun hf => (by cases hf), fun before after he c => ?_⟩
  · rcases List.mem_append.mp hr with hr | hr
    · exact h.status id r hr
    · cases List.mem_singleton.mp hr
  · rcases hr.append with ⟨hold, -⟩ | hnew
    · exact hin id r hold
    · cases List.mem_singleton.mp hnew
  · -- the end of the database is the last event
    rcases List.append_eq_append_iff.mp he with ⟨mid, -, hout⟩ | ⟨mid, hlog, hafter⟩
    · cases mid with
      | nil =>
        simp only [List.nil_append, List.cons.injEq, true_and] at hout
        rw [← hout]
        exact List.not_mem_nil
      | cons e mid =>
        simp at hout
    · cases mid with
      | nil =>
        simp only [List.nil_append, List.cons.injEq, true_and] at hafter
        rw [hafter]
        exact List.not_mem_nil
      | cons e mid =>
        rw [List.cons_append, List.cons.injEq] at hafter
        rw [hlog, ← hafter.1] at halive
        exact absurd (List.mem_append_right _ (List.mem_cons_self ..)) halive

theorem thread (h : StopInv x log) {op : ServerOp} (hop : ∀ c now a, op ≠ .finish c now a) :
    StopInv { x with server := (serverStep x.server op).1 } (log ++ []) :=
  h.still (Prod.ext (serverStep_store hop).1 (serverStep_store hop).2) rfl rfl rfl

theorem step (h : StopInv x log) {op : StopOp} (hin : InTime x op) :
    StopInv (stopStep x op).1 (log ++ (stopStep x op).2) := by
  have stay : StopInv x (log ++ []) := h.still rfl rfl rfl rfl
  cases op with
  | thread op =>
    simp only [stopStep]
    split
    case isTrue => exact stay
    case isFalse =>
      cases op with
      | finish c now a => exact h.finish hin
      | connect c =>
        dsimp only
        split
        · exact h.thread (by simp)
        · exact stay
      | line c line input => exact h.thread (by simp)
      | hangup c => exact h.thread (by simp)
      | account op => exact h.thread (by simp)
  | leave =>
    simp only [stopStep]
    split
    case isTrue hx => exact h.still rfl rfl (by rw [hx]; rfl) (by rw [hx]; rfl)
    case isFalse => exact stay
  | save io a =>
    by_cases hx : x.phase = .left
    · exact h.save hx hin
    · simp only [stopStep, hx, if_false]
      exact stay
  | destroy a =>
    by_cases hx : x.phase = .saved
    · exact h.destroy hx a
    · simp only [stopStep, hx, if_false]
      exact stay
  | authShutdown io =>
    simp only [stopStep]
    split
    case isTrue hx => exact h.frozen rfl (by rw [hx]; rfl) rfl
    case isFalse => exact stay
  | poolShutdown =>
    simp only [stopStep]
    split
    case isTrue hx => exact h.frozen rfl (by rw [hx]; rfl) rfl
    case isFalse => exact stay
  | exit =>
    simp only [stopStep]
    split
    case isTrue hx => exact h.frozen rfl (by rw [hx]; rfl) rfl
    case isFalse => exact stay

theorem start (auth : AuthState) (files : Str → Option Str) {n : ℕ} {s : DbState}
    (hs : GoodAfter n s) (hn : n < 2 ^ 64) : StopInv (.start auth files s) [] := by
  have hnone : ∀ {id r}, ¬ Standing [] id r := by
    intro id r h
    obtain ⟨before, after, he, -⟩ := h
    simp at he
  refine ⟨fun _ => ⟨n, hn, hs, fun id r hr => absurd hr hnone⟩, fun id r hr => ?_, fun hf => ?_,
    fun _ => List.not_mem_nil, fun before after he => ?_⟩
  · cases hr
  · cases hf
  · simp at he

end StopInv

/-- In every run in which no command comes too late: the adds that were answered
with OK, and not deleted afterwards, are in the saved file, and no command calls
the database after its end. -/
theorem shutdown_keeps_adds (auth : AuthState) {opened : Str → Option Str} {i : StartInput}
    {s : DbState} (hs : startUp .server subscribersPath opened i = some s)
    (hsize : ∀ content, opened subscribersPath = some content → content.length < 2 ^ 64)
    (files : Str → Option Str) (ops : List StopOp)
    (hin : Machine.Along stopStep InTime (.start auth files s) ops) :
    let x := Machine.final stopStep (.start auth files s) ops
    let log := stopLog (.start auth files s) ops
    (x.phase.hasSaved = true → ∃ content, x.files subscribersPath = some content ∧
        ∀ before id r after, log = before ++ .added id r :: after → .deleted id ∉ after →
          InFile content id r) ∧
      ∀ before after, log = before ++ .destroyed :: after → ∀ c, .used c ∉ after := by
  have hn : (opened subscribersPath).elim 0 List.length < 2 ^ 64 := by
    cases hc : opened subscribersPath with
    | none => decide
    | some content => exact hsize content hc
  have hstep : ∀ x log op, StopInv x log → InTime x op →
      StopInv (stopStep x op).1 (log ++ (stopStep x op).2) := fun x log op hx hop => hx.step hop
  have h := Machine.along_invariant hstep (StopInv.start auth files (startUp_good hs) hn) hin
  rw [List.nil_append] at h
  refine ⟨fun hsaved => ?_, h.used⟩
  obtain ⟨content, hfile, hkept⟩ := h.file hsaved
  exact ⟨content, hfile, fun before id r after he hdel => hkept id r ⟨before, after, he, hdel⟩⟩

/-! ### Two runs -/

def adminAuth : AuthState := (authStep (AuthState.start (adminFile 48 (lit "0"))) adminInit).1

def annAdd : List StopOp :=
  [.thread (.connect 3), .thread (.line 3 (lit "LOGIN admin x") (zeroLogin 7)),
    .thread (.line 3 (lit "ADD 310150000000001 14155550101 ACTIVE Ann") (zeroLogin 8))]

def annFields : SubscriberFields :=
  ⟨lit "310150000000001", lit "14155550101", lit "Ann", lit "UNSET", lit "UNSET", .active⟩

theorem easyStart_starts :
    (startUp .server subscribersPath (fun _ => none) easyStart).isSome = true := by decide +kernel

def easyStore : DbState :=
  (startUp .server subscribersPath (fun _ => none) easyStart).get easyStart_starts

/-- A command that is over before `main` stops. -/
def timelyRun : List StopOp :=
  annAdd ++ [.thread (.finish 3 9 Alloc.all), .leave, .save SaveIo.all Alloc.all]

theorem InTime.early {x : StopState} {op : StopOp} (hx : x.phase.hasSaved = false)
    (hids : x.server.db.nextId ≠ 0)
    (hop : ∀ io a, op = .save io a → io.Succeeds ∧
      ∀ k < x.server.db.byId.nodes.length, AllocAt a k) : InTime x op := by
  refine ⟨fun c client h _ _ hlate => ?_, hop, hids⟩
  rcases hlate.2 with hfreed | ⟨hsaved, -⟩
  · rw [MainPhase.saved_of_freed hfreed] at hx
    cases hx
  · rw [hsaved] at hx
    cases hx

theorem shutdown_keeps_adds_ann :
    ∃ content, (Machine.final stopStep (.start adminAuth (fun _ => none) easyStore) timelyRun).files
        subscribersPath = some content ∧ InFile content 1 annFields := by
  have hin : Machine.Along stopStep InTime (.start adminAuth (fun _ => none) easyStore)
      timelyRun := by
    have quiet : ∀ {x : StopState} {op : StopOp}, (∀ io a, op ≠ .save io a) →
        ∀ io a, op = .save io a → io.Succeeds ∧
          ∀ k < x.server.db.byId.nodes.length, AllocAt a k := fun hop io a he =>
      absurd he (hop io a)
    refine ⟨.early ?_ ?_ (quiet (by simp)), .early ?_ ?_ (quiet (by simp)),
      .early ?_ ?_ (quiet (by simp)), .early ?_ ?_ (quiet (by simp)),
      .early ?_ ?_ (quiet (by simp)), .early ?_ ?_ fun io a he => ?_, trivial⟩
    rotate_right
    · cases he
      exact ⟨SaveIo.all_succeeds, fun _ _ => ⟨fun _ => rfl, rfl⟩⟩
    all_goals decide +kernel
  have hlog : stopLog (.start adminAuth (fun _ => none) easyStore) timelyRun =
      [.used 3] ++ .added 1 annFields :: [] := by decide +kernel
  have hs : startUp .server subscribersPath (fun _ => none) easyStart = some easyStore :=
    (Option.some_get easyStart_starts).symm
  obtain ⟨content, hfile, hkept⟩ := (shutdown_keeps_adds adminAuth hs (fun _ h => by cases h)
    (fun _ => none) timelyRun hin).1 (by decide +kernel)
  exact ⟨content, hfile, hkept _ _ _ _ hlog List.not_mem_nil⟩

/-- One thread that `main` overtakes twice. -/
def lateRun : List StopOp :=
  annAdd ++ [.leave, .save SaveIo.all Alloc.all, .thread (.finish 3 9 Alloc.all),
    .thread (.line 3 (lit "SEARCH 1") (zeroLogin 10)), .destroy Alloc.all,
    .thread (.finish 3 11 Alloc.all), .authShutdown UserIo.all, .poolShutdown, .exit]

theorem late_commands :
    let x := Machine.final stopStep (.start adminAuth (fun _ => none) easyStore) lateRun
    let log := stopLog (.start adminAuth (fun _ => none) easyStore) lateRun
    x.phase = .exited ∧ log = [.used 3, .added 1 annFields, .destroyed, .used 3] ∧
      x.files subscribersPath = some csvHeader ∧ ¬ InFile csvHeader 1 annFields := by
  intro x log
  refine ⟨by decide +kernel, by decide +kernel, by decide +kernel, ?_⟩
  intro h
  obtain ⟨piece, hp, -⟩ := h
  have hnone : recordLines csvHeader = [] := by decide +kernel
  rw [hnone] at hp
  cases hp

end SubscriberMgmt
