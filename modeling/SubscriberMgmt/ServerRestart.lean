import SubscriberMgmt.SavedAccounts
import SubscriberMgmt.ServerRegistry
import SubscriberMgmt.ServerShutdown

/-!
# What the clients were told is there after a restart (`server.c:279-361`)

`main` saves while the threads of the clients still run. The file has the accounts
of the registry that answered the commands finished by then, and no later command
changes it. Either program that starts with this file has exactly these accounts.
-/

namespace SubscriberMgmt

section Run

variable {p : SStrPool} {db : SubscriberDb}

theorem handler_saveable (h : Saveable (p, db)) (handler : Handler) (now : Int64) (a : Alloc) :
    let out := handler.run p db now a
    Saveable (out.1, out.2.1) := by
  intro out
  cases handler with
  | add args =>
    have hrun := h.run (.add args now a)
    exact hrun
  | search args => exact h.strings (cmdSearch_keeps p db args a)
  | delete args =>
    simp only [out, Handler.run, cmdDelete]
    cases scanId args with
    | none => exact h
    | some id =>
      have hrun := h.run (.other (.delete id) rfl)
      exact hrun
  | list => exact h.strings (cmdList_keeps p db a)

theorem serverStep_saveable {s : ServerState} (h : Saveable (s.strs, s.db)) (op : ServerOp) :
    Saveable ((serverStep s op).1.strs, (serverStep s op).1.db) := by
  cases hx : s.finishing op with
  | none =>
    obtain ⟨hstrs, hdb⟩ := serverStep_quiet hx
    rw [hstrs, hdb]
    exact h
  | some x =>
    obtain ⟨-, hstrs, hdb⟩ := serverStep_finishing hx
    rw [hstrs, hdb]
    exact handler_saveable h x.handler x.now x.a

theorem serverRun_saveable {s : ServerState} (h : Saveable (s.strs, s.db)) (ops : List ServerOp) :
    Saveable ((Machine.final serverStep s ops).strs, (Machine.final serverStep s ops).db) := by
  induction ops generalizing s with
  | nil => exact h
  | cons op ops ih =>
    rw [Machine.final_cons]
    exact ih (serverStep_saveable h op)

end Run

/-! ### The registry and the accounts -/

theorem sstrPoolInit_open {p : SStrPool} {n : ℕ} {a : Alloc} (h : (sstrPoolInit p n a).1 = .ok) :
    (sstrPoolInit p n a).2.initialized = true := by
  unfold sstrPoolInit htCreate at h ⊢
  cases hp : p.initialized with
  | true => simp only [if_true, hp]
  | false =>
    cases h0 : a 0 with
    | false => simp [hp, h0] at h
    | true =>
      cases h1 : a 1 with
      | false => simp [hp, h0, h1] at h
      | true => rfl

namespace Registry

variable {r : Registry} {p : SStrPool} {db : SubscriberDb}

/-- The server starts with a registry: that of the lines that it has loaded. -/
theorem startUp_held {path : Str} {opened : Str → Option Str} {i : StartInput} {s : DbState}
    (h : startUp .server path opened i = some s)
    (hlast : loadCount (some path) opened < 2 ^ 64) :
    ∃ r : Registry, r.HeldBy s ∧ r.last ≤ loadCount (some path) opened := by
  have hopen : (sstrPoolInit SStrPool.start 1024 i.pool).1 = .ok := by
    by_contra hne
    simp only [startUp, ne_eq, hne, not_false_eq_true, and_self, true_or, if_true] at h
    cases h
  obtain ⟨db, hdb, hp, rfl⟩ := startUp_cases h
  have hnew := HeldBy.create hp (sstrPoolInit_open hopen) hdb
  have hzero : empty.last + loadCount (some path) opened < 2 ^ 64 := by
    rw [show empty.last = 0 from rfl, Nat.zero_add]
    exact hlast
  obtain ⟨r, -, hheld, hle⟩ := hnew.load (some path) opened i.clock i.load hzero
  refine ⟨r, hheld, ?_⟩
  rwa [show empty.last = 0 from rfl, Nat.zero_add] at hle

/-- While the ids last the accounts of the registry are those that a save lists. -/
theorem HeldBy.accounts (h : r.HeldBy (p, db)) (hlast : r.last < 2 ^ 64) (f : SubscriberFields) :
    f ∈ dbAccounts (p, db) ↔ ∃ id x, r.get id = some x ∧ x.fields = f := by
  obtain ⟨listed, live, hinv, -, hlists⟩ := h.held
  have hperm := dbContents_live (p := p) hinv (by omega)
  rw [dbAccounts, (hperm.map Prod.snd).mem_iff, List.map_map, List.mem_map]
  constructor
  · intro hf
    obtain ⟨b, hb, rfl⟩ := hf
    exact ⟨_, _, (hlists.mem _ _).mp (List.mem_map_of_mem hb), rfl⟩
  · intro hf
    obtain ⟨id, x, hx, rfl⟩ := hf
    obtain ⟨b, hb, he⟩ := List.mem_map.mp ((hlists.mem id x).mpr hx)
    exact ⟨b, hb, by rw [← (Prod.mk.inj he).2]; rfl⟩

end Registry

/-! ### The threads until the save -/

/-- The steps that a step of the process is for the threads. Once `main` has left its loop it
takes no connection. -/
def StopOp.threadOps (x : StopState) : StopOp → List ServerOp
  | .thread (.connect c) => if x.phase = .accepting then [.connect c] else []
  | .thread op => [op]
  | _ => []

def threadOps (x : StopState) : List StopOp → List ServerOp
  | [] => []
  | op :: ops => op.threadOps x ++ threadOps (stopStep x op).1 ops

section Stop

variable {x : StopState}

theorem finishStep_frame (x : StopState) (c : ℕ) (now : Int64) (a : Alloc) :
    (finishStep x c now a).1.files = x.files ∧ (finishStep x c now a).1.phase = x.phase := by
  unfold finishStep
  split
  · split <;> exact ⟨rfl, rfl⟩
  · exact ⟨rfl, rfl⟩

theorem finishStep_server (h : x.phase.hasFreed = false) (c : ℕ) (now : Int64) (a : Alloc) :
    (finishStep x c now a).1.server = (serverStep x.server (.finish c now a)).1 := by
  unfold finishStep
  split
  next token loggedIn handler hc =>
    rw [h]
    rfl
  next => simp only [serverStep]

/-- The file of the save stays, whatever the threads still do. -/
theorem stopStep_saved (h : x.phase.hasSaved = true) (op : StopOp) :
    (stopStep x op).1.phase.hasSaved = true ∧ (stopStep x op).1.files = x.files := by
  have hleft : x.phase ≠ .left := fun he => by
    rw [he] at h
    cases h
  cases op with
  | thread op =>
    simp only [stopStep]
    split
    · exact ⟨h, rfl⟩
    · cases op with
      | finish c now a =>
        obtain ⟨hfiles, hphase⟩ := finishStep_frame x c now a
        exact ⟨hphase ▸ h, hfiles⟩
      | connect c =>
        dsimp only
        split <;> exact ⟨h, rfl⟩
      | _ => exact ⟨h, rfl⟩
  | leave =>
    simp only [stopStep]
    split
    next hx =>
      rw [hx] at h
      cases h
    next => exact ⟨h, rfl⟩
  | save io a =>
    rw [stopStep, if_neg hleft]
    exact ⟨h, rfl⟩
  | destroy a =>
    simp only [stopStep]
    split
    · exact ⟨rfl, rfl⟩
    · exact ⟨h, rfl⟩
  | authShutdown io =>
    simp only [stopStep]
    split
    · exact ⟨rfl, rfl⟩
    · exact ⟨h, rfl⟩
  | poolShutdown =>
    simp only [stopStep]
    split
    · exact ⟨rfl, rfl⟩
    · exact ⟨h, rfl⟩
  | exit =>
    simp only [stopStep]
    split
    · exact ⟨rfl, rfl⟩
    · exact ⟨h, rfl⟩

theorem stopRun_saved (h : x.phase.hasSaved = true) (ops : List StopOp) :
    (Machine.final stopStep x ops).phase.hasSaved = true ∧
      (Machine.final stopStep x ops).files = x.files := by
  induction ops generalizing x with
  | nil => exact ⟨h, rfl⟩
  | cons op ops ih =>
    obtain ⟨hsaved, hfiles⟩ := stopStep_saved h op
    obtain ⟨hsaved', hfiles'⟩ := ih hsaved
    exact ⟨hsaved', hfiles'.trans hfiles⟩

/-- Until `main` saves, the process is the server with its threads. -/
theorem stopStep_threads {op : StopOp} (h : (stopStep x op).1.phase.hasSaved = false) :
    (stopStep x op).1.server = Machine.final serverStep x.server (op.threadOps x) := by
  have hx : x.phase.hasSaved = false := by
    by_contra hsaved
    rw [(stopStep_saved (by simpa using hsaved) op).1] at h
    cases h
  have hfreed : x.phase.hasFreed = false := by
    by_contra hfreed
    rw [MainPhase.saved_of_freed (by simpa using hfreed)] at hx
    cases hx
  have hphase : ∀ phase : MainPhase, phase.hasSaved = true → x.phase ≠ phase := by
    intro phase hsaved he
    rw [he, hsaved] at hx
    cases hx
  cases op with
  | thread op =>
    simp only [stopStep, hphase .exited rfl, if_false]
    cases op with
    | finish c now a => exact finishStep_server hfreed c now a
    | connect c =>
      simp only [StopOp.threadOps]
      split <;> rfl
    | _ => rfl
  | leave =>
    simp only [stopStep]
    split <;> rfl
  | save io a =>
    by_cases hleft : x.phase = .left
    · simp only [stopStep, hleft, if_true] at h
      cases h
    · simp only [stopStep, hleft, if_false]
      rfl
  | destroy a =>
    simp only [stopStep, hphase .saved rfl, if_false]
    rfl
  | authShutdown io =>
    simp only [stopStep, hphase .destroyed rfl, if_false]
    rfl
  | poolShutdown =>
    simp only [stopStep, hphase .authDown rfl, if_false]
    rfl
  | exit =>
    simp only [stopStep, hphase .poolDown rfl, if_false]
    rfl

theorem stopRun_threads {ops : List StopOp}
    (h : (Machine.final stopStep x ops).phase.hasSaved = false) :
    (Machine.final stopStep x ops).server =
      Machine.final serverStep x.server (threadOps x ops) := by
  induction ops generalizing x with
  | nil => rfl
  | cons op ops ih =>
    have hstep : (stopStep x op).1.phase.hasSaved = false := by
      by_contra hsaved
      rw [Machine.final_cons, (stopRun_saved (by simpa using hsaved) ops).1] at h
      cases h
    rw [Machine.final_cons, ih h, stopStep_threads hstep, threadOps, Machine.final_append]

/-- After a save in a run, the file is what the save has left. -/
theorem stopRun_save (h : x.phase = .left) (io : SaveIo) (a : Alloc) (after : List StopOp) :
    (Machine.final stopStep x (.save io a :: after)).files =
      (subdbSaveCsv x.server.strs x.server.db (some subscribersPath) io a
        (Disk.start x.files)).2.2.files := by
  have hsave : (stopStep x (.save io a)).1 =
      { server := { x.server with strs := (subdbSaveCsv x.server.strs x.server.db
          (some subscribersPath) io a (Disk.start x.files)).2.1 }
        files := (subdbSaveCsv x.server.strs x.server.db (some subscribersPath) io a
          (Disk.start x.files)).2.2.files
        phase := .saved } := by
    simp only [stopStep, h, if_true]
  rw [Machine.final_cons, hsave, (stopRun_saved rfl after).2]

end Stop

/-! ### Stop and restart -/

/-- The process is stopped while its threads run. If its save succeeds, both programs start with
exactly the accounts of the registry that answered the commands finished until then, whatever
the threads do afterwards. -/
theorem server_restart_keeps {opened : Str → Option Str} {i : StartInput} {s : DbState}
    (hstart : startUp .server subscribersPath opened i = some s) {r : Registry} (hr : r.HeldBy s)
    (auth : AuthState) (files : Str → Option Str) (before : List StopOp)
    (hleft : (Machine.final stopStep (.start auth files s) before).phase = .left)
    (hlast : r.last + ((serverSeen (StopState.start auth files s).server
      (threadOps (.start auth files s) before)).map fun x => x.1.adds).sum < 2 ^ 64)
    (io : SaveIo) (a : Alloc) :
    let start := StopState.start auth files s
    let x := Machine.final stopStep start before
    let seen := serverSeen start.server (threadOps start before)
    (subdbSaveCsv x.server.strs x.server.db (some subscribersPath) io a
        (Disk.start x.files)).1 = .ok →
      ∃ r', Machine.Runs Registry.Answers r (seen.map Prod.fst) (seen.map Prod.snd) r' ∧
        ∀ (after : List StopOp) {prog : Program} {opened' : Str → Option Str} {i' : StartInput}
          {t : DbState},
          opened' subscribersPath = (Machine.final stopStep start
            (before ++ .save io a :: after)).files subscribersPath → i'.HasMemory →
          startUp prog subscribersPath opened' i' = some t →
          (dbAccounts t).Nodup ∧
            ∀ f, f ∈ dbAccounts t ↔ ∃ id x, r'.get id = some x ∧ x.fields = f := by
  intro start x seen hsaved
  have hserver : x.server = Machine.final serverStep start.server (threadOps start before) :=
    stopRun_threads (by rw [hleft]; rfl)
  obtain ⟨r', hrun, hheld, hle⟩ := serverRun_serves (s := start.server) hr _ hlast
  have hsaveable := serverRun_saveable (s := start.server) (startUp_saveable hstart)
    (threadOps start before)
  rw [← hserver] at hheld hsaveable
  refine ⟨r', hrun, fun after prog opened' i' t hopen hmem hnext => ?_⟩
  rw [Machine.final_append, stopRun_save hleft, subdbSaveCsv_file hsaved] at hopen
  obtain ⟨listed, live, hinv, -⟩ := hheld.held
  have hperm := hsaveable.restart hinv hopen hmem hnext
  constructor
  · apply hperm.nodup_iff.mpr
    exact hinv.accounts_apart.imp fun hapart he => hapart.1 (by rw [he])
  · intro f
    rw [hperm.mem_iff]
    exact hheld.accounts (Nat.lt_of_le_of_lt hle hlast) f

/-- A thread finishes an ADD before the save and another one after it. -/
def addBefore : List StopOp := annAdd ++ [.thread (.finish 3 9 Alloc.all), .leave]

def addAfter : List StopOp :=
  [.thread (.line 3 (lit "ADD 310150000000002 14155550102 ACTIVE Bob") (zeroLogin 10)),
    .thread (.finish 3 11 Alloc.all), .destroy Alloc.all, .authShutdown UserIo.all,
    .poolShutdown, .exit]

/-- The menu program starts with what a client of the server has added in time. -/
theorem server_restart_keeps_added : ∃ t r r',
    startUp .cli subscribersPath (Machine.final stopStep (.start adminAuth (fun _ => none)
        easyStore) (addBefore ++ .save SaveIo.all Alloc.all :: addAfter)).files easyStart =
      some t ∧ dbAccounts t = [annFields] ∧ Registry.HeldBy r easyStore ∧
      Machine.Runs Registry.Answers r
        ((serverSeen (StopState.start adminAuth (fun _ => none) easyStore).server
          (threadOps (.start adminAuth (fun _ => none) easyStore) addBefore)).map Prod.fst)
        ((serverSeen (StopState.start adminAuth (fun _ => none) easyStore).server
          (threadOps (.start adminAuth (fun _ => none) easyStore) addBefore)).map Prod.snd) r' ∧
      ∀ f, f ∈ dbAccounts t ↔ ∃ id x, r'.get id = some x ∧ x.fields = f := by
  have hs : startUp .server subscribersPath (fun _ => none) easyStart = some easyStore :=
    (Option.some_get easyStart_starts).symm
  obtain ⟨r, hr, hle⟩ := Registry.startUp_held hs (by decide)
  have hadds : ((serverSeen (StopState.start adminAuth (fun _ => none) easyStore).server
      (threadOps (.start adminAuth (fun _ => none) easyStore) addBefore)).map
        fun x => x.1.adds).sum = 1 := by decide +kernel
  have hlast : r.last + ((serverSeen (StopState.start adminAuth (fun _ => none) easyStore).server
      (threadOps (.start adminAuth (fun _ => none) easyStore) addBefore)).map
        fun x => x.1.adds).sum < 2 ^ 64 := by
    rw [hadds]
    exact Nat.lt_of_le_of_lt (Nat.add_le_add_right hle 1) (by decide)
  have hagain : ((startUp .cli subscribersPath (Machine.final stopStep (.start adminAuth
      (fun _ => none) easyStore) (addBefore ++ .save SaveIo.all Alloc.all :: addAfter)).files
        easyStart).any fun t => dbAccounts t = [annFields]) = true := by decide +kernel
  obtain ⟨t, ht, hone⟩ := (Option.any_eq_true _ _).mp hagain
  obtain ⟨r', hrun, hkept⟩ := server_restart_keeps hs hr adminAuth (fun _ => none) addBefore
    (by decide +kernel) hlast SaveIo.all Alloc.all (by decide +kernel)
  exact ⟨t, r, r', ht, of_decide_eq_true hone, hr, hrun, (hkept addAfter rfl ⟨rfl, rfl⟩ ht).2⟩

end SubscriberMgmt
