import SubscriberMgmt.SubscriberContents

/-!
# Starting and stopping (`main.c:653-682`, `server.c:285-361`)

Both programs load `data/subscribers.csv`, whatever that reports, and save the
database over it at the end.
-/

namespace SubscriberMgmt
open CText

/-! ### The records of a file -/

def isHeader (piece : Str) : Bool := (cString piece).take 14 = lit "subscriber_id,"

/-- The lines of a file without a header that the loader recognizes. -/
def recordLines (content : Str) : List Str :=
  match fgetsAll (smMaxLineLen - 2) content with
  | [] => []
  | header :: pieces => if isHeader header then pieces else header :: pieces

/-- What the loader reads in a well-formed line. -/
def lineRecord (piece : Str) : Option SubscriberFields :=
  match scanRecord (chompLine piece) with
  | none => none
  | some f =>
    if subValidateImsi f.imsi && subValidateMsisdn f.msisdn && subValidateName f.name &&
        subValidateName f.region && subValidateName f.plan then
      some ⟨f.imsi, f.msisdn, f.name, f.region, f.plan, subStatusFromStr f.statusS⟩
    else none

def fileRecords (content : Str) : List SubscriberFields :=
  (recordLines content).filterMap lineRecord

def SubscriberFields.Clashes (r : SubscriberFields) (kept : List SubscriberFields) : Prop :=
  ∃ k ∈ kept, k.imsi = r.imsi ∨ k.msisdn = r.msisdn

instance (r : SubscriberFields) (kept : List SubscriberFields) : Decidable (r.Clashes kept) :=
  inferInstanceAs (Decidable (∃ k ∈ kept, _))

def addNew (kept : List SubscriberFields) (r : SubscriberFields) : List SubscriberFields :=
  if r.Clashes kept then kept else r :: kept

/-- The records without those whose IMSI or MSISDN an earlier one of them has,
the last one first. -/
def newRecords (rs : List SubscriberFields) : List SubscriberFields := rs.foldl addNew []

theorem addNew_sub (kept : List SubscriberFields) (r : SubscriberFields) :
    ∀ k ∈ kept, k ∈ addNew kept r := by
  intro k hk
  unfold addNew
  split
  · exact hk
  · exact List.mem_cons_of_mem _ hk

theorem newRecords_eq_nil {rs : List SubscriberFields} (h : newRecords rs = []) : rs = [] := by
  cases rs with
  | nil => rfl
  | cons r rs =>
    -- the first record stays to the end
    have hkeep : ∀ (l kept : List SubscriberFields), r ∈ kept → r ∈ l.foldl addNew kept := by
      intro l
      induction l with
      | nil => exact fun _ hk => hk
      | cons x l ih => exact fun kept hk => ih _ (addNew_sub kept x r hk)
    have hfirst : addNew [] r = [r] := if_neg (by simp [SubscriberFields.Clashes])
    have hr : r ∈ newRecords (r :: rs) := by
      rw [newRecords, List.foldl_cons, hfirst]
      exact hkeep rs [r] (List.mem_singleton_self r)
    rw [h] at hr
    cases hr

theorem subStatusFromStr_enumerator (s : Str) : (subStatusFromStr s).IsEnumerator := by
  unfold subStatusFromStr
  split
  · trivial
  · split
    · trivial
    · split <;> trivial

theorem lineRecord_status {piece : Str} {r : SubscriberFields} (h : lineRecord piece = some r) :
    r.status.IsEnumerator := by
  unfold lineRecord at h
  split at h
  · cases h
  · split at h
    · cases h
      exact subStatusFromStr_enumerator _
    · cases h

/-! ### The records of a saved file -/

theorem GoodRecord.lineRecord {p : SStrPool} {s : Subscriber} (h : GoodRecord p s)
    (hst : s.status.IsEnumerator) : lineRecord (csvLine p s) = some (s.fields p) := by
  simp only [SubscriberMgmt.lineRecord, csvLine_eq, chompLine_line h.lineText, h.scanRecord, h.imsi,
    h.msisdn, h.name.cstr_valid, h.region.cstr_valid, h.plan.cstr_valid, Bool.and_self, if_true,
    subStatus_round_trip hst, Subscriber.fields]

theorem recordLines_csvFile {n : ℕ} {p : SStrPool} {db : SubscriberDb}
    (h : GoodAfter n (p, db)) : recordLines (csvFile p db) = (dbRecords db).map (csvLine p) := by
  have hhead : isHeader csvHeader = true := by decide
  have hgood : ∀ x ∈ db.byId.nodes, GoodRecord p (db.mem x.value) := fun x hx =>
    h.records _ (List.mem_map_of_mem hx)
  have hpieces := fgetsAll_csvFile hgood
  rw [recordLines, hpieces]
  simp only [hhead, if_true, csvLines_eq]

theorem fileRecords_csvFile {n : ℕ} {p : SStrPool} {db : SubscriberDb} (h : GoodAfter n (p, db))
    (hst : ∀ e ∈ dbContents (p, db), e.2.status.IsEnumerator) :
    fileRecords (csvFile p db) = (dbContents (p, db)).map Prod.snd := by
  rw [fileRecords, recordLines_csvFile h, dbContents, List.map_map, List.filterMap_map,
    ← List.filterMap_eq_map]
  apply List.filterMap_congr
  intro x hx
  exact (h.records x hx).lineRecord (hst (x.subscriberId, x.fields p) (List.mem_map_of_mem hx))

/-! ### Loading -/

/-- The database holds exactly the records `kept`. -/
structure Loaded (n : ℕ) (s : DbState) (kept : List SubscriberFields) : Prop where
  good : GoodAfter n s
  pool : s.1.initialized = true
  records : ((dbContents s).map Prod.snd).Perm kept
  status : ∀ r ∈ kept, r.status.IsEnumerator

theorem loadLine_eq {piece : Str} {r : SubscriberFields} (h : lineRecord piece = some r)
    (p : SStrPool) (db : SubscriberDb) (now : Int64) (a : Alloc) :
    let x := subdbAdd p db (some r.imsi) (some r.msisdn) (some r.name) (some r.region)
      (some r.plan) r.status true now a
    loadLine p db piece now a = (x.outcome, x.strs, x.db) := by
  unfold lineRecord at h
  split at h
  · cases h
  case h_2 f hf =>
    have hline : (chompLine piece).isEmpty = false := by
      by_contra he
      rw [Bool.not_eq_false, List.isEmpty_iff] at he
      rw [he] at hf
      cases hf
    split at h
    case isTrue hvalid =>
      cases h
      simp only [loadLine, hline, hf, hvalid, Bool.not_true, Bool.false_eq_true, if_false]
    case isFalse => cases h

theorem loadLine_record {piece : Str} {r : SubscriberFields} (h : lineRecord piece = some r)
    (p : SStrPool) (db : SubscriberDb) (now : Int64) (a : Alloc) :
    let x := subdbAdd p db (some r.imsi) (some r.msisdn) (some r.name) (some r.region)
      (some r.plan) r.status true now a
    (loadLine p db piece now a).2 = (x.strs, x.db) :=
  congrArg Prod.snd (loadLine_eq h p db now a)

theorem loadLine_other {piece : Str} (h : lineRecord piece = none) (p : SStrPool)
    (db : SubscriberDb) (now : Int64) (a : Alloc) : (loadLine p db piece now a).2 = (p, db) := by
  unfold lineRecord at h
  unfold loadLine
  dsimp only
  split
  case isTrue => rfl
  case isFalse =>
    cases hscan : scanRecord (chompLine piece) with
    | none => rfl
    | some f =>
      rw [hscan] at h
      dsimp only at h
      split at h
      case isTrue => cases h
      case isFalse hvalid => simp only [hvalid, Bool.not_false, if_true]

theorem loadLine_added {p : SStrPool} {db : SubscriberDb} {piece : Str} {now : Int64} {a : Alloc}
    {id : UInt64} (h : (loadLine p db piece now a).1 = .added id) : lineRecord piece ≠ none := by
  unfold loadLine at h
  dsimp only at h
  split at h
  · cases h
  · split at h
    · cases h
    · rename_i f hf
      split at h
      case isTrue => cases h
      case isFalse hvalid =>
        simp only [Bool.not_eq_true', Bool.not_eq_false] at hvalid
        simp [lineRecord, hf, hvalid]

theorem lineRecord_valid {piece : Str} {r : SubscriberFields} (h : lineRecord piece = some r) :
    subValidateImsi r.imsi = true ∧ subValidateMsisdn r.msisdn = true ∧
      subValidateName r.name = true ∧ subValidateName r.region = true ∧
      subValidateName r.plan = true := by
  unfold lineRecord at h
  split at h
  · cases h
  · split at h
    case isTrue hvalid =>
      cases h
      simpa only [Bool.and_eq_true, and_assoc] using hvalid
    case isFalse => cases h

/-- One line with memory for its add: its record joins the others unless it
clashes. -/
theorem Loaded.line {n : ℕ} {p : SStrPool} {db : SubscriberDb} {kept : List SubscriberFields}
    (h : Loaded n (p, db) kept) (hn : n < 2 ^ 64) (piece : Str) (now : Int64) :
    Loaded (n + 1) (loadLine p db piece now Alloc.all).2
      ((lineRecord piece).elim kept (addNew kept)) := by
  cases hline : lineRecord piece with
  | none =>
    rw [loadLine_other hline]
    exact ⟨h.good.mono (Nat.le_succ n), h.pool, h.records, h.status⟩
  | some r =>
    obtain ⟨hgood, hadd⟩ := h.good.add hn (some r.imsi) (some r.msisdn) (some r.name)
      (some r.region) (some r.plan) r.status true now Alloc.all
    obtain ⟨-, -, hinit⟩ := SStrPool.Keeps.subdbAdd p db (some r.imsi) (some r.msisdn)
      (some r.name) (some r.region) (some r.plan) r.status true now Alloc.all h.good.parts.1
    have hkeys : KeysNew r.imsi r.msisdn (dbContents (p, db)) ↔ ¬ r.Clashes kept := by
      constructor
      · intro hnew h
        obtain ⟨k, hk, hclash⟩ := h
        obtain ⟨e, he, rfl⟩ := List.mem_map.mp (h.records.mem_iff.mpr hk)
        exact hclash.elim (hnew e he).1 (hnew e he).2
      · intro hno e he
        have hk := h.records.mem_iff.mp (List.mem_map_of_mem he)
        exact ⟨fun hi => hno ⟨_, hk, Or.inl hi⟩, fun hm => hno ⟨_, hk, Or.inr hm⟩⟩
    have hok := fun hnew => h.good.add_ok hn h.pool (lineRecord_valid hline).1
      (lineRecord_valid hline).2.1 (lineRecord_valid hline).2.2.1 (lineRecord_valid hline).2.2.2.1
      (lineRecord_valid hline).2.2.2.2 hnew r.status now
    rw [loadLine_record hline]
    simp only [Option.elim_some]
    generalize subdbAdd p db (some r.imsi) (some r.msisdn) (some r.name) (some r.region)
      (some r.plan) r.status true now Alloc.all = x at hgood hadd hinit hok ⊢
    cases hadd with
    | kept hst hsame =>
      have hclash : r.Clashes kept := by
        by_contra hno
        exact hst (hok (hkeys.mpr hno))
      rw [addNew, if_pos hclash]
      exact ⟨hgood, hinit.trans h.pool, (hsame.map _).trans h.records, h.status⟩
    | @added id i m t g q hst hid hargs hnew hmore =>
      obtain ⟨h1, h2, h3, h4, h5⟩ := hargs
      cases h1; cases h2; cases h3; cases h4; cases h5
      rw [addNew, if_neg (hkeys.mp hnew)]
      refine ⟨hgood, hinit.trans h.pool, (hmore.map _).trans (h.records.cons r), fun k hk => ?_⟩
      rcases List.mem_cons.mp hk with rfl | hk
      · exact lineRecord_status hline
      · exact h.status k hk

theorem Loaded.lines {n : ℕ} {p : SStrPool} {db : SubscriberDb} {kept : List SubscriberFields}
    (h : Loaded n (p, db) kept) {pieces : List Str} (hn : n + pieces.length ≤ 2 ^ 64)
    (clock : ℕ → Int64) (i : ℕ) :
    Loaded (n + pieces.length) (loadLines p db clock Alloc.all i pieces).2
      ((pieces.filterMap lineRecord).foldl addNew kept) := by
  induction pieces generalizing n p db kept i with
  | nil => exact h
  | cons piece pieces ih =>
    rw [List.length_cons] at hn
    have hline := h.line (by omega) piece (clock i)
    simp only [loadLines, Alloc.all_skip]
    generalize loadLine p db piece (clock i) Alloc.all = x at hline ⊢
    have hrest := ih hline (by omega) (i + 1)
    rw [show n + (piece :: pieces).length = n + 1 + pieces.length by
      rw [List.length_cons]; omega]
    cases hrec : lineRecord piece with
    | none =>
      rw [hrec] at hrest
      rw [List.filterMap_cons_none hrec]
      exact hrest
    | some r =>
      rw [hrec] at hrest
      rw [List.filterMap_cons_some hrec]
      exact hrest

/-! ### The two programs -/

/-- What is at the path of the data file when a program starts. -/
inductive StoredFile where
  | absent
  | unreadable (content : Str)
  | readable (content : Str)

def StoredFile.content : StoredFile → Option Str
  | .absent => none
  | .unreadable content => some content
  | .readable content => some content

/-- What `fopen(path, "r")` lets a program read. -/
def StoredFile.opened : StoredFile → Option Str
  | .readable content => some content
  | _ => none

inductive Program where
  | cli
  | server
  deriving DecidableEq

/-- Memory for the three calls, the outcome of `auth_init`, and the clock of each
loaded line. -/
structure StartInput where
  pool : Alloc
  authOk : Bool
  create : Alloc
  load : Alloc
  clock : ℕ → Int64

/-- `main` up to the menu or the socket, `none` if it returns before. Only the
server looks at the result of `sstr_pool_init`, and neither at that of the load. -/
def startUp (prog : Program) (path : Str) (opened : Str → Option Str) (i : StartInput) :
    Option DbState :=
  let p := sstrPoolInit SStrPool.start 1024 i.pool
  if prog = .server ∧ p.1 ≠ .ok ∨ i.authOk = false then none
  else
    match subdbCreate i.create with
    | .error _ => none
    | .ok db =>
      let r := subdbLoadCsv p.2 db (some path) opened i.clock i.load
      some (r.strs, r.db)

/-- A call on the database while the program runs. -/
inductive MainOp where
  | call (op : DbOp)
  | backup (outPath : Str) (io : SaveIo) (a : Alloc)

def mainStep (x : DbState × (Str → Option Str)) : MainOp → DbState × (Str → Option Str)
  | .call op => ((dbStep x.1 op).1, x.2)
  | .backup outPath io a =>
    let r := subdbSaveCsv x.1.1 x.1.2 (some outPath) io a (Disk.start x.2)
    ((r.2.1, x.1.2), r.2.2.files)

/-- A whole run: the status of the last save, if it was reached, and the files. -/
def mainRun (prog : Program) (path : Str) (file : StoredFile) (others : Str → Option Str)
    (i : StartInput) (calls : List MainOp) (io : SaveIo) (a : Alloc) :
    Option SmStatus × (Str → Option Str) :=
  let files := Function.update others path file.content
  match startUp prog path (Function.update others path file.opened) i with
  | none => (none, files)
  | some s =>
    let x := calls.foldl mainStep (s, files)
    let r := subdbSaveCsv x.1.1 x.1.2 (some path) io a (Disk.start x.2)
    (some r.1, r.2.2.files)

/-- Not an add, an update, a delete or a restore; backups go to other files. -/
def MainOp.Quiet (path : Str) : MainOp → Prop
  | .call (.add ..) => False
  | .call (.delete _) => False
  | .call (.update ..) => False
  | .call (.loadCsv ..) => False
  | .call _ => True
  | .backup outPath _ _ => path ≠ outPath ∧ path ≠ tmpPath outPath

/-- Each well-formed line with new keys is still represented. -/
def LinesKept (before after : Option Str) : Prop :=
  ∀ r ∈ newRecords (before.elim [] fileRecords), r ∈ after.elim [] fileRecords

/-- The load at the start does not refuse the file. -/
def StoredFile.Loads : StoredFile → Prop
  | .absent => True
  | .unreadable _ => False
  | .readable content =>
    ∃ header pieces, fgetsAll (smMaxLineLen - 2) content = header :: pieces ∧ isHeader header = true

/-! ### Runs -/

theorem dbStep_quiet {s : DbState} {op : DbOp} {path : Str} (hs : s.1.WF)
    (hop : (MainOp.call op).Quiet path) :
    ∃ p, (dbStep s op).1 = (p, s.2) ∧ p.WF ∧ s.1.Extends p := by
  have hkeep : ∀ {p : SStrPool}, s.1.Keeps p → p.WF ∧ s.1.Extends p := fun hk =>
    ⟨(hk hs).1, (hk hs).2.1⟩
  cases op with
  | add => exact hop.elim
  | delete => exact hop.elim
  | update => exact hop.elim
  | loadCsv => exact hop.elim
  | searchById id a => exact ⟨_, rfl, hkeep (SStrPool.keeps_tracks.searchResult _ _ _ a)⟩
  | searchByImsi imsi a =>
    cases imsi with
    | none => exact ⟨_, rfl, hkeep (SStrPool.Keeps.refl _)⟩
    | some imsi => exact ⟨_, rfl, hkeep (SStrPool.keeps_tracks.searchResult _ _ _ a)⟩
  | searchByMsisdn msisdn a =>
    cases msisdn with
    | none => exact ⟨_, rfl, hkeep (SStrPool.Keeps.refl _)⟩
    | some msisdn => exact ⟨_, rfl, hkeep (SStrPool.keeps_tracks.searchResult _ _ _ a)⟩
  | searchByRegion region a =>
    cases region with
    | none => exact ⟨_, rfl, hkeep (SStrPool.Keeps.refl _)⟩
    | some region => exact ⟨_, rfl, hkeep (SStrPool.keeps_tracks.filteredSearch _ _ _ a)⟩
  | searchByPlan plan a =>
    cases plan with
    | none => exact ⟨_, rfl, hkeep (SStrPool.Keeps.refl _)⟩
    | some plan => exact ⟨_, rfl, hkeep (SStrPool.keeps_tracks.filteredSearch _ _ _ a)⟩
  | searchByStatus status a => exact ⟨_, rfl, hkeep (SStrPool.keeps_tracks.filteredSearch _ _ _ a)⟩
  | listAll a => exact ⟨_, rfl, hkeep (SStrPool.keeps_tracks.filteredSearch _ _ _ a)⟩
  | strings op => exact ⟨_, rfl, strStep_keeps hs op⟩

/-- What a quiet call keeps: the contents of the database and the data file. -/
theorem mainStep_quiet {n : ℕ} {x : DbState × (Str → Option Str)} {path : Str} {op : MainOp}
    (hx : GoodAfter n x.1) (hop : op.Quiet path) :
    GoodAfter n (mainStep x op).1 ∧ dbContents (mainStep x op).1 = dbContents x.1 ∧
      (mainStep x op).2 path = x.2 path := by
  obtain ⟨⟨p, db⟩, files⟩ := x
  cases op with
  | call op =>
    obtain ⟨p', he, hp, hext⟩ := dbStep_quiet (s := (p, db)) hx.parts.1 hop
    simp only [mainStep, he]
    exact ⟨hx.pool hp hext, dbContents_pool hx hext, trivial⟩
  | backup outPath io a =>
    obtain ⟨hp, hext, -⟩ := SStrPool.keeps_tracks.saveCsv p db (some outPath) io a
      (Disk.start files) hx.parts.1
    exact ⟨hx.pool hp hext, dbContents_pool hx hext, subdbSaveCsv_other p db hop.1 hop.2 io a files⟩

theorem mainStep_quiets {n : ℕ} {x : DbState × (Str → Option Str)} {path : Str}
    {calls : List MainOp} (hx : GoodAfter n x.1) (hq : ∀ op ∈ calls, op.Quiet path) :
    let y := calls.foldl mainStep x
    GoodAfter n y.1 ∧ dbContents y.1 = dbContents x.1 ∧ y.2 path = x.2 path := by
  induction calls generalizing x with
  | nil => exact ⟨hx, rfl, rfl⟩
  | cons op calls ih =>
    obtain ⟨h1, h2, h3⟩ := mainStep_quiet hx (hq op (List.mem_cons_self ..))
    obtain ⟨g1, g2, g3⟩ := ih h1 fun o ho => hq o (List.mem_cons_of_mem _ ho)
    exact ⟨g1, g2.trans h2, g3.trans h3⟩

theorem subdbLoadCsv_refused {p : SStrPool} {db : SubscriberDb} {path : Str}
    {opened : Str → Option Str} (h : ∀ content, opened path = some content →
      ∀ header pieces, fgetsAll (smMaxLineLen - 2) content = header :: pieces →
        isHeader header = false) (clock : ℕ → Int64) (a : Alloc) :
    let r := subdbLoadCsv p db (some path) opened clock a
    (r.strs, r.db) = (p, db) := by
  cases hc : opened path with
  | none => simp only [subdbLoadCsv, hc]
  | some content =>
    cases hl : fgetsAll (smMaxLineLen - 2) content with
    | nil => simp only [subdbLoadCsv, hc, hl]
    | cons header pieces =>
      have hhead := h content hc header pieces hl
      simp only [isHeader, decide_eq_false_iff_not] at hhead
      simp only [subdbLoadCsv, hc, hl, ne_eq, hhead, not_false_eq_true, if_true]

theorem subdbLoadCsv_lines {p : SStrPool} {db : SubscriberDb} {path content header : Str}
    {pieces : List Str} {opened : Str → Option Str} (hopen : opened path = some content)
    (hl : fgetsAll (smMaxLineLen - 2) content = header :: pieces) (hhead : isHeader header = true)
    (clock : ℕ → Int64) (a : Alloc) :
    let r := subdbLoadCsv p db (some path) opened clock a
    (r.strs, r.db) = (loadLines p db clock a 0 pieces).2 := by
  simp only [isHeader, decide_eq_true_eq] at hhead
  simp only [subdbLoadCsv, hopen, hl, ne_eq, hhead, not_true_eq_false, if_false]

theorem startUp_cases {prog : Program} {path : Str} {opened : Str → Option Str} {i : StartInput}
    {s : DbState} (h : startUp prog path opened i = some s) :
    ∃ db, subdbCreate i.create = .ok db ∧
      let p := (sstrPoolInit SStrPool.start 1024 i.pool).2
      let r := subdbLoadCsv p db (some path) opened i.clock i.load
      p.WF ∧ s = (r.strs, r.db) := by
  unfold startUp at h
  dsimp only at h
  split at h
  · cases h
  · split at h
    · cases h
    case h_2 db hdb =>
      cases h
      exact ⟨db, hdb, SStrPool.init_wf SStrPool.start_wf _ _, rfl⟩

/-- A start whose load refuses the file has an empty database. -/
theorem startUp_refused {prog : Program} {path : Str} {others : Str → Option Str}
    {file : StoredFile} (hno : ¬ file.Loads) {i : StartInput} {s : DbState}
    (h : startUp prog path (Function.update others path file.opened) i = some s) :
    GoodAfter 0 s ∧ dbContents s = [] := by
  obtain ⟨db, hdb, hp, rfl⟩ := startUp_cases h
  rw [subdbLoadCsv_refused]
  · have hgood := GoodAfter.create hp hdb
    have hlive := dbContents_live (p := (sstrPoolInit SStrPool.start 1024 i.pool).2)
      (subdbCreate_inv hdb) (by omega)
    exact ⟨hgood, hlive.eq_nil⟩
  · intro content hopen header pieces hl
    rw [Function.update_self] at hopen
    cases file with
    | absent => cases hopen
    | unreadable => cases hopen
    | readable c =>
      cases hopen
      exact Bool.eq_false_iff.mpr fun hhead => hno ⟨header, pieces, hl, hhead⟩

/-- Nothing fails for lack of memory before the menu or the socket. -/
structure StartInput.HasMemory (i : StartInput) : Prop where
  pool : i.pool = Alloc.all
  load : i.load = Alloc.all

theorem startUp_loaded {prog : Program} {path content header : Str} {pieces : List Str}
    {others : Str → Option Str} (hl : fgetsAll (smMaxLineLen - 2) content = header :: pieces)
    (hhead : isHeader header = true) (hlen : pieces.length ≤ 2 ^ 64) {i : StartInput}
    (hi : i.HasMemory) {s : DbState}
    (h : startUp prog path (Function.update others path (some content)) i = some s) :
    Loaded pieces.length s (newRecords (fileRecords content)) := by
  obtain ⟨db, hdb, hp, rfl⟩ := startUp_cases h
  have hinit : (sstrPoolInit SStrPool.start 1024 Alloc.all).2.initialized = true := by
    decide +kernel
  rw [hi.pool] at hp ⊢
  have hempty := (dbContents_live (p := (sstrPoolInit SStrPool.start 1024 Alloc.all).2)
    (subdbCreate_inv hdb) (by omega)).eq_nil
  have hstart : Loaded 0 ((sstrPoolInit SStrPool.start 1024 Alloc.all).2, db) [] :=
    ⟨.create hp hdb, hinit, by rw [hempty]; exact .nil, fun r hr => absurd hr List.not_mem_nil⟩
  have hlines := hstart.lines (show 0 + pieces.length ≤ 2 ^ 64 by omega) i.clock 0
  have hrecords : recordLines content = pieces := by
    simp only [recordLines, hl, hhead, if_true]
  rw [subdbLoadCsv_lines (Function.update_self ..) hl hhead, hi.load]
  rw [Nat.zero_add] at hlines
  rwa [newRecords, fileRecords, hrecords]

theorem subdbLoadCsv_lines_le (p : SStrPool) (db : SubscriberDb) (path : Str)
    (opened : Str → Option Str) (clock : ℕ → Int64) (a : Alloc) :
    (subdbLoadCsv p db (some path) opened clock a).lines.length ≤
      (opened path).elim 0 List.length := by
  have hlines : ∀ (p : SStrPool) (db : SubscriberDb) (i : ℕ) (pieces : List Str),
      (loadLines p db clock a i pieces).1.length = pieces.length := by
    intro p db i pieces
    induction pieces generalizing p db i with
    | nil => rfl
    | cons piece pieces ih =>
      simp only [loadLines, List.length_cons]
      rw [ih]
  cases hc : opened path with
  | none => simp only [subdbLoadCsv, hc, Option.elim_none, List.length_nil, le_refl]
  | some content =>
    have hle := fgetsAll_length_le (smMaxLineLen - 2) content
    cases hl : fgetsAll (smMaxLineLen - 2) content with
    | nil => simp only [subdbLoadCsv, hc, hl, List.length_nil, Nat.zero_le]
    | cons header pieces =>
      rw [hl, List.length_cons] at hle
      simp only [subdbLoadCsv, hc, hl]
      split
      · exact Nat.zero_le _
      · simp only [hlines, Option.elim_some]
        omega

theorem startUp_good {prog : Program} {path : Str} {opened : Str → Option Str} {i : StartInput}
    {s : DbState} (h : startUp prog path opened i = some s) :
    GoodAfter ((opened path).elim 0 List.length) s := by
  obtain ⟨db, hdb, hp, rfl⟩ := startUp_cases h
  have hle := subdbLoadCsv_lines_le (sstrPoolInit SStrPool.start 1024 i.pool).2 db path opened
    i.clock i.load
  have hload := (GoodAfter.create hp hdb).load (some path) opened i.clock i.load
  exact hload.mono (by omega)

theorem newRecords_sub {rs : List SubscriberFields} {r : SubscriberFields}
    (h : r ∈ newRecords rs) : r ∈ rs := by
  have hfrom : ∀ (l kept : List SubscriberFields), r ∈ l.foldl addNew kept → r ∈ kept ∨ r ∈ l := by
    intro l
    induction l with
    | nil => exact fun _ hr => Or.inl hr
    | cons x l ih =>
      intro kept hr
      rcases ih _ hr with hr | hr
      · unfold addNew at hr
        split at hr
        · exact Or.inl hr
        · rcases List.mem_cons.mp hr with rfl | hr
          · exact Or.inr (List.mem_cons_self ..)
          · exact Or.inl hr
      · exact Or.inr (List.mem_cons_of_mem _ hr)
  exact (hfrom rs [] h).resolve_left List.not_mem_nil

theorem LinesKept.refl (file : Option Str) : LinesKept file file := fun _ hr => newRecords_sub hr

theorem LinesKept.of_empty {before after : Option Str} (h : before.elim [] fileRecords = []) :
    LinesKept before after := by
  intro r hr
  rw [h] at hr
  cases hr

/-- A run that saves writes the contents that the start loaded. -/
theorem mainRun_cases (prog : Program) {path : Str} (hpath : path.length < 512) (file : StoredFile)
    (others : Str → Option Str) (i : StartInput) {calls : List MainOp}
    (hquiet : ∀ op ∈ calls, op.Quiet path) {io : SaveIo} (hio : io.Succeeds) (a : Alloc) :
    let run := mainRun prog path file others i calls io a
    (run.1 ≠ some .ok ∧ run.2 path = file.content) ∨
      run.1 = some .ok ∧ ∃ s n p db,
        startUp prog path (Function.update others path file.opened) i = some s ∧
          GoodAfter n (p, db) ∧ dbContents (p, db) = dbContents s ∧
          run.2 path = some (csvFile p db) := by
  simp only [mainRun]
  cases hs : startUp prog path (Function.update others path file.opened) i with
  | none => exact Or.inl ⟨fun he => (by cases he), Function.update_self ..⟩
  | some s =>
    obtain ⟨hgood, hsame, hfile⟩ := mainStep_quiets
      (x := (s, Function.update others path file.content)) (startUp_good hs) hquiet
    replace hfile := hfile.trans (Function.update_self ..)
    dsimp only
    generalize calls.foldl mainStep (s, Function.update others path file.content) = x
      at hgood hsame hfile ⊢
    obtain ⟨⟨p, db⟩, files⟩ := x
    have hlen : path.length ≠ 599 := by omega
    have hkept := (subdbSaveCsv_ok_or_kept p db hlen hio a files).resolve_left
    have hcontent := @subdbSaveCsv_file p db path io a files
    dsimp only at hgood hsame hfile ⊢
    generalize subdbSaveCsv p db (some path) io a (Disk.start files) = r at hkept hcontent ⊢
    by_cases hok : r.1 = .ok
    · exact Or.inr ⟨congrArg some hok, s, _, p, db, rfl, hgood, hsame, hcontent hok⟩
    · exact Or.inl ⟨fun he => hok (Option.some.inj he), (hkept hok).trans hfile⟩

/-- Starting and stopping keeps the lines of the file exactly when the load does
not refuse the file, or the file has no well-formed line. Without memory for the
load a line may be lost as well; a last save that is not reached, or fails for lack
of memory, changes nothing. -/
theorem restart_keeps_lines_iff (prog : Program) {path : Str} (hpath : path.length < 512)
    (file : StoredFile) (hsize : ∀ content, file.content = some content → content.length < 2 ^ 64)
    (others : Str → Option Str) (i : StartInput) {calls : List MainOp}
    (hquiet : ∀ op ∈ calls, op.Quiet path) {io : SaveIo} (hio : io.Succeeds) (a : Alloc) :
    let run := mainRun prog path file others i calls io a
    let kept := LinesKept file.content (run.2 path)
    let safe := file.Loads ∨ file.content.elim [] fileRecords = []
    (run.1 ≠ some .ok → kept) ∧ (run.1 = some .ok → kept → safe) ∧
      (run.1 = some .ok → i.HasMemory → (kept ↔ safe)) := by
  intro run kept safe
  rcases mainRun_cases prog hpath file others i hquiet hio a with
    ⟨hne, hfile⟩ | ⟨hok, s, n, p, db, hs, hgood, hsame, hfile⟩
  · have hkept : kept := by
      show LinesKept _ _
      rw [hfile]
      exact .refl _
    exact ⟨fun _ => hkept, fun he => absurd he hne, fun he => absurd he hne⟩
  have hnecessary : kept → safe := by
    intro hkept
    by_contra hno
    rw [not_or] at hno
    obtain ⟨-, hempty⟩ := startUp_refused hno.1 hs
    have hnil : dbContents (p, db) = [] := hsame.trans hempty
    have hrecords := fileRecords_csvFile hgood (by rw [hnil]; simp)
    rw [hnil, List.map_nil] at hrecords
    have hnone : ∀ r ∈ newRecords (file.content.elim [] fileRecords), False := by
      intro r hr
      have hmem := hkept r hr
      rw [hfile, Option.elim_some, hrecords] at hmem
      exact List.not_mem_nil hmem
    exact hno.2 (newRecords_eq_nil (List.eq_nil_iff_forall_not_mem.mpr hnone))
  refine ⟨fun hne => absurd hok hne, fun _ => hnecessary, fun _ hmem => ⟨hnecessary, ?_⟩⟩
  intro h
  obtain hloads | hempty := h
  · cases file with
    | absent => exact .of_empty rfl
    | unreadable => exact hloads.elim
    | readable content =>
      obtain ⟨header, pieces, hl, hhead⟩ := hloads
      have hle := fgetsAll_length_le (smMaxLineLen - 2) content
      rw [hl, List.length_cons] at hle
      have hsmall := hsize content rfl
      have hloaded := startUp_loaded hl hhead (by omega) hmem hs
      have hperm : ((dbContents (p, db)).map Prod.snd).Perm (newRecords (fileRecords content)) := by
        rw [hsame]
        exact hloaded.records
      have hrecords := fileRecords_csvFile hgood fun e he =>
        hloaded.status _ (hperm.mem_iff.mp (List.mem_map_of_mem he))
      intro r hr
      rw [hfile, Option.elim_some, hrecords]
      exact hperm.mem_iff.mpr hr
  · exact .of_empty hempty

def subscribersPath : Str := lit "data/subscribers.csv"

def oneLineFile : Str :=
  csvHeader ++ lit "1,310150000000001,14155550101,A,North,Gold,ACTIVE,5,5\n"

def easyStart : StartInput := ⟨Alloc.all, true, Alloc.all, Alloc.all, fun _ => 5⟩

theorem restart_keeps_lines_one :
    LinesKept (some oneLineFile) ((mainRun .server subscribersPath (.readable oneLineFile)
      (fun _ => none) easyStart [.call (.listAll Alloc.all)] SaveIo.all Alloc.all).2
        subscribersPath) := by
  have hquiet : ∀ op ∈ [MainOp.call (.listAll Alloc.all)], op.Quiet subscribersPath := by
    intro op hop
    rw [List.mem_singleton.mp hop]
    trivial
  have hsize : ∀ content, (StoredFile.readable oneLineFile).content = some content →
      content.length < 2 ^ 64 := by
    intro content hc
    cases hc
    decide +kernel
  have hloads : (StoredFile.readable oneLineFile).Loads :=
    ⟨csvHeader, [lit "1,310150000000001,14155550101,A,North,Gold,ACTIVE,5,5\n"],
      by decide +kernel, by decide⟩
  exact ((restart_keeps_lines_iff .server (by decide) _ hsize (fun _ => none) easyStart hquiet
    SaveIo.all_succeeds Alloc.all).2.2 (by decide +kernel) ⟨rfl, rfl⟩).mpr (Or.inl hloads)

/-- A byte order mark before the header: the record of the file is gone. -/
theorem restart_loses_lines :
    let content := [239, 187, 191] ++ oneLineFile
    let run := mainRun .server subscribersPath (.readable content) (fun _ => none) easyStart []
      SaveIo.all Alloc.all
    run.1 = some .ok ∧ ¬ LinesKept (some content) (run.2 subscribersPath) := by
  intro content run
  have hbefore : newRecords (fileRecords content) = [⟨lit "310150000000001", lit "14155550101",
      lit "A", lit "North", lit "Gold", .active⟩] := by decide +kernel
  have hafter : run.2 subscribersPath = some csvHeader := by decide +kernel
  have hempty : fileRecords csvHeader = [] := by decide +kernel
  refine ⟨by decide +kernel, fun hkept => ?_⟩
  rw [LinesKept, hafter, Option.elim_some, Option.elim_some, hbefore, hempty] at hkept
  exact List.not_mem_nil (hkept _ (List.mem_singleton_self _))

end SubscriberMgmt
