import SubscriberMgmt.Cli
import SubscriberMgmt.Server
import SubscriberMgmt.SubscriberSearch
import SubscriberMgmt.SubscriberReload

/-!
# Where statuses come from (`server.c:120-141`, `main.c:232-336`, `subscriber.c:90-97`)

Four entry points turn a word into a status, and none refuses a word that it does
not know: such a word becomes the status UNKNOWN and is stored.
-/

namespace SubscriberMgmt
open CText

/-! ### Words -/

/-- The statuses that a record is meant to have. -/
def SubStatus.Known : SubStatus → Prop
  | .active | .suspended | .terminated => True
  | _ => False

/-- What a word means in a CSV file and at the prompt of `action_update`. -/
def statusNamed (word : Str) : Option SubStatus :=
  if word = lit "ACTIVE" then some .active
  else if word = lit "SUSPENDED" then some .suspended
  else if word = lit "TERMINATED" then some .terminated
  else none

/-- What a word means in ADD: the protocol has the words in small letters; the capital ones name
what they are read as. -/
def addStatusNamed (word : Str) : Option SubStatus :=
  if word = lit "active" then some .active
  else if word = lit "suspended" then some .suspended
  else if word = lit "terminated" then some .terminated
  else statusNamed word

/-- A word of the input: the status that it names and the one that it is read as. -/
structure StatusWord where
  named : Option SubStatus
  read : SubStatus
  agrees : read.Known → named = some read

theorem statusNamed_of_known {word : Str} (h : (subStatusFromStr word).Known) :
    statusNamed word = some (subStatusFromStr word) := by
  unfold statusNamed
  unfold subStatusFromStr at h ⊢
  by_cases h1 : word = lit "ACTIVE"
  · simp only [if_pos h1]
  · by_cases h2 : word = lit "SUSPENDED"
    · simp only [if_neg h1, if_pos h2]
    · by_cases h3 : word = lit "TERMINATED"
      · simp only [if_neg h1, if_neg h2, if_pos h3]
      · simp only [if_neg h1, if_neg h2, if_neg h3] at h
        exact h.elim

def StatusWord.typed (word : Str) : StatusWord :=
  ⟨statusNamed word, subStatusFromStr word, statusNamed_of_known⟩

/-- A capital word is no word of the protocol. -/
theorem addStatusNamed_of_known {word : Str} (h : (subStatusFromStr word).Known) :
    addStatusNamed word = some (subStatusFromStr word) := by
  have hsmall : ∀ w, subStatusFromStr w = .unknown → word ≠ w := by
    intro w hw he
    subst he
    rw [hw] at h
    exact h
  unfold addStatusNamed
  rw [if_neg (hsmall _ (by decide)), if_neg (hsmall _ (by decide)), if_neg (hsmall _ (by decide))]
  exact statusNamed_of_known h

def StatusWord.added (word : Str) : StatusWord :=
  ⟨addStatusNamed word, subStatusFromStr word, addStatusNamed_of_known⟩

/-- `action_add` asks for no status. -/
def StatusWord.fresh : StatusWord := ⟨some .active, .active, fun _ => rfl⟩

/-! ### The entry points and the calls they make -/

def DbOp.setsStatus : DbOp → Bool
  | .add .. | .update .. | .loadCsv .. => true
  | _ => false

/-- What is done to a database: the four ways by which a status comes in, and any
other call. -/
inductive StatusOp where
  | add (args : Str) (now : Int64) (a : Alloc)
  | cliAdd (imsi msisdn name region plan : Str) (now : Int64) (a : Alloc)
  | cliUpdate (id : UInt64) (name region plan statusBuf : Str) (now : Int64) (a : Alloc)
  | load (path : Option Str) (files : Str → Option Str) (clock : ℕ → Int64) (a : Alloc)
  | other (op : DbOp) (h : op.setsStatus = false)

def StatusOp.run (s : DbState) : StatusOp → DbState
  | .add args now a =>
    let r := cmdAdd s.1 s.2 args now a
    (r.1, r.2.1)
  | .cliAdd imsi msisdn name region plan now a =>
    let r := addTyped s.1 s.2 imsi msisdn name region plan now a
    (r.strs, r.db)
  | .cliUpdate id name region plan statusBuf now a =>
    (updateTyped s.1 s.2 id name region plan statusBuf now a).2
  | .load path files clock a =>
    let r := subdbLoadCsv s.1 s.2 path files clock a
    (r.strs, r.db)
  | .other op _ => (dbStep s op).1

/-- One input with a status word, as the call that it leads to. -/
inductive Entry where
  | add (imsi msisdn name region plan : Str) (word : StatusWord) (now : Int64) (a : Alloc)
  | update (id : UInt64) (name region plan : Option Str) (word : Option StatusWord)
      (now : Int64) (a : Alloc)
  | other (op : DbOp) (h : op.setsStatus = false)

def Entry.word : Entry → Option StatusWord
  | .add _ _ _ _ _ word _ _ => some word
  | .update _ _ _ _ word _ _ => word
  | .other _ _ => none

/-- The call with another status: its result and the state after it. -/
def Entry.call (s : DbState) (e : Entry) (status : Option SubStatus) : SmStatus × DbState :=
  match e with
  | .add imsi msisdn name region plan _ now a =>
    let r := subdbAdd s.1 s.2 (some imsi) (some msisdn) (some name) (some region) (some plan)
      (status.getD .active) true now a
    (r.status, r.strs, r.db)
  | .update id name region plan _ now a => subdbUpdate s.1 s.2 id name region plan status now a
  | .other op _ => (.ok, (dbStep s op).1)

/-- The IMSI of the record that an input is about. -/
def Entry.imsi (s : DbState) : Entry → Option Str
  | .add imsi _ _ _ _ _ _ _ => some imsi
  | .update id _ _ _ _ _ _ =>
    ((htGet (idOps s.2.mem) s.2.byId (.value id)).toOption).map fun b => (s.2.mem b).imsi.chars
  | .other _ _ => none

/-- The call is made with the status that was read. An input that is accepted is
logged: the IMSI and the status that the word names. -/
def entryStep (s : DbState) (e : Entry) : DbState × List (Str × Option SubStatus) :=
  let r := e.call s (e.word.map StatusWord.read)
  (r.2, if r.1 = .ok then
    (e.imsi s).toList.flatMap fun imsi => e.word.toList.map fun w => (imsi, w.named) else [])

def lineEntries (piece : Str) (now : Int64) (a : Alloc) : List Entry :=
  let line := chompLine piece
  if line.isEmpty then []
  else (scanRecord line).toList.map fun f =>
    .add f.imsi f.msisdn f.name f.region f.plan (.typed f.statusS) now a

/-- The lines after the header, the `i`-th one first. -/
def fileEntries (clock : ℕ → Int64) (a : Alloc) (i : ℕ) : List Str → List Entry
  | [] => []
  | piece :: pieces =>
    lineEntries piece (clock i) (a.skip (20 * i)) ++ fileEntries clock a (i + 1) pieces

def StatusOp.entries : StatusOp → List Entry
  | .add args now a =>
    (scanAdd args).toList.map fun f =>
      .add f.1 f.2.1 f.2.2.2 (lit "UNSET") (lit "UNSET") (.added f.2.2.1) now a
  | .cliAdd imsi msisdn name region plan now a =>
    [.add imsi msisdn name region plan .fresh now a]
  | .cliUpdate id name region plan statusBuf now a =>
    [.update id (typedText name) (typedText region) (typedText plan)
      ((typedText statusBuf).map .typed) now a]
  | .load path files clock a =>
    match (path.bind files).map (fgetsAll (smMaxLineLen - 2)) with
    | some (header :: pieces) =>
      if (cString header).take 14 ≠ lit "subscriber_id," then [] else fileEntries clock a 0 pieces
    | _ => []
  | .other op h => [.other op h]

theorem loadLine_entries (s : DbState) (piece : Str) (now : Int64) (a : Alloc) :
    (loadLine s.1 s.2 piece now a).2 =
      Machine.final entryStep s (lineEntries piece now a) := by
  simp only [loadLine, lineEntries]
  split
  case isTrue => rfl
  case isFalse =>
    cases hscan : scanRecord (chompLine piece) with
    | none => rfl
    | some f =>
      simp only
      split
      case isTrue hbad =>
        simp only [Option.toList_some, List.map_cons, List.map_nil, Machine.final_cons,
          Machine.final_nil, entryStep, Entry.call, subdbAdd, if_pos hbad]
      case isFalse => rfl

theorem loadLines_entries (s : DbState) (clock : ℕ → Int64) (a : Alloc) (i : ℕ)
    (pieces : List Str) :
    (loadLines s.1 s.2 clock a i pieces).2 =
      Machine.final entryStep s (fileEntries clock a i pieces) := by
  induction pieces generalizing s i with
  | nil => rfl
  | cons piece pieces ih =>
    have hline := loadLine_entries s piece (clock i) (a.skip (20 * i))
    simp only [loadLines, fileEntries, Machine.final_append, ← hline]
    exact ih _ _

/-- An entry point does what the calls of its entries do. -/
theorem StatusOp.run_entries (s : DbState) (op : StatusOp) :
    op.run s = Machine.final entryStep s op.entries := by
  cases op with
  | add args now a =>
    simp only [run, entries, cmdAdd]
    cases scanAdd args with
    | none => rfl
    | some f => rfl
  | cliAdd => rfl
  | cliUpdate id name region plan statusBuf now a =>
    have hread : ((typedText statusBuf).map StatusWord.typed).map StatusWord.read =
        (typedText statusBuf).map subStatusFromStr := Option.map_map ..
    simp only [run, entries, updateTyped, Machine.final_cons, Machine.final_nil, entryStep,
      Entry.call, Entry.word, hread]
  | load path files clock a =>
    simp only [run, entries, subdbLoadCsv]
    cases path with
    | none => rfl
    | some path =>
      cases hfile : files path with
      | none => simp [hfile]
      | some content =>
        cases hpieces : fgetsAll (smMaxLineLen - 2) content with
        | nil => simp [hfile, hpieces]
        | cons header pieces =>
          by_cases hheader : (cString header).take 14 = lit "subscriber_id,"
          · simpa [hfile, hpieces, hheader] using loadLines_entries s clock a 0 pieces
          · simp [hfile, hpieces, hheader]
  | other => rfl

theorem runs_entries (s : DbState) (ops : List StatusOp) :
    ops.foldl StatusOp.run s = Machine.final entryStep s (ops.flatMap StatusOp.entries) := by
  induction ops generalizing s with
  | nil => rfl
  | cons op ops ih =>
    rw [List.foldl_cons, List.flatMap_cons, Machine.final_append, op.run_entries s]
    exact ih _

/-! ### What one input does to the records -/

/-- The call comes to the point where a status is stored: nothing that the source
checks before it fails. -/
def Entry.Stores (s : DbState) : Entry → Prop
  | .add imsi msisdn name region plan word now a =>
    (subValidateImsi imsi && subValidateMsisdn msisdn && subValidateName name &&
        subValidateName region && subValidateName plan) = true ∧
      (htGet (imsiOps s.2.mem) s.2.byImsi (.value imsi)).isOk = false ∧
      (htGet (msisdnOps s.2.mem) s.2.byMsisdn (.value msisdn)).isOk = false ∧
      ∃ b pool strs n r p, mempoolAlloc s.2.pool a = (some b, pool) ∧
        internTexts s.1 name region plan (a.skip 2) = (.ok, strs, n, r, p) ∧
        (indexRecord (s.2.place pool b
          (newRecord s.2.nextId imsi msisdn n r p word.read now)) b (a.skip 14)).1 = .ok
  | .update id name region plan _ _ _ =>
    (name.all subValidateName && region.all subValidateName && plan.all subValidateName) = true ∧
      (htGet (idOps s.2.mem) s.2.byId (.value id)).isOk = true
  | .other _ _ => True

theorem insertRecord_status (strs : SStrPool) (db : SubscriberDb) (b : Block) (a : Alloc) :
    (insertRecord strs db b a).status = (indexRecord db b a).1 := by
  unfold insertRecord
  split
  case h_1 db' heq => rw [heq]
  case h_2 st db' hne heq => rw [heq]

theorem addRecord_ok_iff (s : DbState) (imsi msisdn name region plan : Str) (status : SubStatus)
    (now : Int64) (a : Alloc) :
    (addRecord s.1 s.2 imsi msisdn name region plan status now a).status = .ok ↔
      ∃ b pool strs n r p, mempoolAlloc s.2.pool a = (some b, pool) ∧
        internTexts s.1 name region plan (a.skip 2) = (.ok, strs, n, r, p) ∧
        (indexRecord (s.2.place pool b
          (newRecord s.2.nextId imsi msisdn n r p status now)) b (a.skip 14)).1 = .ok := by
  rcases hblock : mempoolAlloc s.2.pool a with ⟨_ | b, pool⟩
  · simp [addRecord, hblock]
  · rcases htexts : internTexts s.1 name region plan (a.skip 2) with ⟨st, strs, n, r, p⟩
    by_cases hst : st = .ok
    · subst hst
      simp only [addRecord, hblock, htexts, insertRecord_status]
      constructor
      · intro h
        exact ⟨b, pool, strs, n, r, p, rfl, rfl, h⟩
      · intro h
        obtain ⟨_, _, _, _, _, _, hb, ht, h⟩ := h
        cases hb
        cases ht
        exact h
    · constructor
      · intro h
        simp only [addRecord, hblock, htexts] at h
        exact absurd h hst
      · intro h
        obtain ⟨_, _, _, _, _, _, -, ht, -⟩ := h
        cases ht
        exact absurd rfl hst

/-- The status has no part in whether the call succeeds: the source never looks at it. -/
theorem Entry.ok_iff (s : DbState) (e : Entry) :
    (e.call s (e.word.map StatusWord.read)).1 = .ok ↔ e.Stores s := by
  cases e with
  | add imsi msisdn name region plan word now a =>
    simp only [call, Entry.word, Option.map_some, Option.getD_some, Stores, subdbAdd,
      ← addRecord_ok_iff]
    cases hvalid : (subValidateImsi imsi && subValidateMsisdn msisdn && subValidateName name &&
      subValidateName region && subValidateName plan) with
    | false => simp
    | true =>
      cases htGet (imsiOps s.2.mem) s.2.byImsi (.value imsi) with
      | ok b => simp [Except.isOk, Except.toBool]
      | error st =>
        cases htGet (msisdnOps s.2.mem) s.2.byMsisdn (.value msisdn) with
        | ok b => simp [Except.isOk, Except.toBool]
        | error st' => simp [Except.isOk, Except.toBool]
  | update id name region plan word now a =>
    simp only [call, Stores, subdbUpdate]
    cases hvalid : (name.all subValidateName && region.all subValidateName &&
      plan.all subValidateName) with
    | false => simp
    | true => cases htGet (idOps s.2.mem) s.2.byId (.value id) <;> simp [Except.isOk, Except.toBool]
  | other op h => simp [call, Stores]

theorem entryStep_good {s : DbState} (hs : GoodState s) (e : Entry) :
    GoodState (entryStep s e).1 := by
  cases e with
  | add => exact hs.add _ _ _ _ _ _ _ _ _
  | update => exact hs.update _ _ _ _ _ _ _
  | other op _ => exact dbStep_good hs op

/-- A refused input leaves no trace among the records. -/
def Entry.Refused (s : DbState) (e : Entry) : Prop :=
  (e.call s (e.word.map StatusWord.read)).1 ≠ .ok ∧
    (contents (entryStep s e).1.1 (entryStep s e).1.2).Perm (contents s.1 s.2)

theorem entryStep_refused {s : DbState} (hs : GoodState s) {e : Entry} (h : ¬ e.Stores s) :
    e.Refused s := by
  have hst := mt (e.ok_iff s).mp h
  refine ⟨hst, ?_⟩
  obtain ⟨hp, base, listed, live, bound, hinv, hgood⟩ := hs
  cases e with
  | add imsi msisdn name region plan word now a =>
    obtain ⟨-, hx, -⟩ := SStrPool.Keeps.subdbAdd s.1 s.2 (some imsi) (some msisdn) (some name)
      (some region) (some plan) word.read true now a hp
    cases subdbAdd_cases s.1 hinv (some imsi) (some msisdn) (some name) (some region) (some plan)
      word.read true now a with
    | inl hkept =>
      cases hkept with
      | intro _ _ _ _ hinv' hmem =>
        exact contents_kept hinv.indexed hinv'.indexed hx hgood hmem
    | inr hdone =>
      obtain ⟨_, _, _, _, _, -, -, -, -, -, hdone⟩ := hdone
      cases hdone with
      | intro _ _ hok => exact absurd hok hst
  | update id name region plan word now a =>
    cases subdbUpdate_refused_or s.1 s.2 id name region plan (word.map StatusWord.read) now a with
    | inl hno =>
      obtain ⟨st, -, he, -⟩ := hno
      have hsame : (entryStep s (.update id name region plan word now a)).1 = s :=
        congrArg Prod.snd he
      rw [hsame]
    | inr hyes =>
      obtain ⟨b, r, -, -, -, -, -, he⟩ := hyes
      exact absurd (congrArg Prod.fst he) hst
  | other op _ => exact absurd rfl hst

/-- Where the status of a record comes from: it was there before and the input is not
about this IMSI, or it is what the word of the input was read as. -/
def Entry.Explains (s : DbState) (e : Entry) (r : Subscriber) : Prop :=
  (∃ r₀ ∈ s.2.records, r₀.imsi = r.imsi ∧ r₀.status = r.status ∧
      ∀ x ∈ (entryStep s e).2, x.1 ≠ r.imsi.chars) ∨
    ∃ w ∈ e.word, e.Stores s ∧ (entryStep s e).2 = [(r.imsi.chars, w.named)] ∧ r.status = w.read

theorem entryStep_log_refused {s : DbState} {e : Entry} (h : ¬ e.Stores s) :
    (entryStep s e).2 = [] := if_neg (mt (e.ok_iff s).mp h)

theorem entryStep_log_stored {s : DbState} {e : Entry} (h : e.Stores s) :
    (entryStep s e).2 =
      (e.imsi s).toList.flatMap fun imsi => e.word.toList.map fun w => (imsi, w.named) :=
  if_pos ((e.ok_iff s).mpr h)

theorem explains_refused {s : DbState} (hs : GoodState s) {e : Entry} (h : ¬ e.Stores s) :
    ∀ r ∈ (entryStep s e).1.2.records, e.Explains s r := by
  intro r hr
  have hsame := (entryStep_refused hs h).2
  have hmem := hsame.mem_iff.mp (List.mem_map_of_mem hr)
  obtain ⟨r₀, hr₀, heq⟩ := List.mem_map.mp hmem
  obtain rfl : r₀ = r := congrArg Snapshot.sub heq
  refine Or.inl ⟨r₀, hr₀, rfl, rfl, ?_⟩
  rw [entryStep_log_refused h]
  exact fun x hx => absurd hx List.not_mem_nil

section Stored

variable {s : DbState} {base bound : ℕ} {listed live : List Block}

theorem explains_added (hinv : DbInv s.2 base listed live bound)
    (imsi msisdn name region plan : Str) (word : StatusWord) (now : Int64) (a : Alloc)
    (h : (Entry.add imsi msisdn name region plan word now a).Stores s) :
    ∀ r ∈ (entryStep s (.add imsi msisdn name region plan word now a)).1.2.records,
      (Entry.add imsi msisdn name region plan word now a).Explains s r := by
  have hok := (Entry.ok_iff s _).mpr h
  have hlog := entryStep_log_stored h
  cases subdbAdd_cases s.1 hinv (some imsi) (some msisdn) (some name) (some region) (some plan)
    word.read true now a with
  | inl hkept =>
    cases hkept with
    | intro hst => exact absurd hok hst
  | inr hdone =>
    obtain ⟨i, m, n, g, q, hi, hm, -, -, -, hdone⟩ := hdone
    obtain rfl : imsi = i := Option.some.inj hi
    cases hdone with
    | @intro b n g q hnew hb _ _ _ hinv' hmem =>
      intro r hr
      obtain ⟨c, hc, rfl⟩ := List.mem_map.mp (hinv'.indexed.records_perm.mem_iff.mp hr)
      cases List.mem_cons.mp hc with
      | inl hcb =>
        have himsi := CharField.copy_chars (validDigits_length hnew.validImsi)
        refine Or.inr ⟨word, rfl, h, ?_, ?_⟩
        · rw [hlog, hcb, hmem, Function.update_self]
          simp only [newRecord, himsi]
          rfl
        · rw [hcb, hmem, Function.update_self]
          rfl
      | inr hc =>
        have hsame := Function.update_of_ne (ne_of_mem_of_not_mem hc hb)
          (newRecord s.2.nextId imsi m n g q word.read now) s.2.mem
        rw [hmem, hsame]
        have hold : s.2.mem c ∈ s.2.records :=
          hinv.indexed.records_perm.mem_iff.mpr (List.mem_map_of_mem hc)
        refine Or.inl ⟨s.2.mem c, hold, rfl, rfl, ?_⟩
        rw [hlog]
        intro x hx
        obtain rfl : x = (imsi, word.named) := List.mem_singleton.mp hx
        exact fun heq => hnew.newImsi c hc heq.symm

theorem explains_updated (hinv : DbInv s.2 base listed live bound) (id : UInt64)
    (name region plan : Option Str) (word : Option StatusWord) (now : Int64) (a : Alloc)
    (h : (Entry.update id name region plan word now a).Stores s) :
    ∀ r ∈ (entryStep s (.update id name region plan word now a)).1.2.records,
      (Entry.update id name region plan word now a).Explains s r := by
  have hok := (Entry.ok_iff s _).mpr h
  have hlog := entryStep_log_stored h
  cases subdbUpdate_refused_or s.1 s.2 id name region plan (word.map StatusWord.read) now a with
  | inl hno =>
    obtain ⟨st, hst, he, -⟩ := hno
    exact absurd ((congrArg Prod.fst he).symm.trans hok) hst
  | inr hyes =>
    obtain ⟨b, u, hget, hu, -, -, -, he⟩ := hyes
    have hb := hinv.indexed.sub b (hinv.indexed.byId.get_ok_iff.mp hget).1
    have himsi : u.imsi = (s.2.mem b).imsi := by
      rw [hu]
      rfl
    have hinv' : DbInv { s.2 with mem := Function.update s.2.mem b u } base listed live bound :=
      hinv.rewrite (by rw [hu]; rfl) himsi (by rw [hu]; rfl)
    have hdb : (entryStep s (.update id name region plan word now a)).1.2 =
        { s.2 with mem := Function.update s.2.mem b u } := congrArg (·.2.2) he
    simp only [Entry.imsi, hget, Except.toOption, Option.map_some, Option.toList_some,
      List.flatMap_singleton, Entry.word] at hlog
    rw [hdb]
    intro r hr
    obtain ⟨c, hc, rfl⟩ := List.mem_map.mp (hinv'.indexed.records_perm.mem_iff.mp hr)
    have hold : s.2.mem c ∈ s.2.records :=
      hinv.indexed.records_perm.mem_iff.mpr (List.mem_map_of_mem hc)
    by_cases hcb : c = b
    · subst hcb
      simp only [Function.update_self]
      cases word with
      | none =>
        refine Or.inl ⟨s.2.mem c, hold, himsi.symm, ?_, ?_⟩
        · rw [hu]
          rfl
        · rw [hlog]
          exact fun x hx => absurd hx List.not_mem_nil
      | some w =>
        refine Or.inr ⟨w, rfl, h, ?_, ?_⟩
        · rw [hlog, himsi]
          rfl
        · rw [hu]
          rfl
    · simp only [Function.update_of_ne hcb]
      refine Or.inl ⟨s.2.mem c, hold, rfl, rfl, ?_⟩
      rw [hlog]
      intro x hx heq
      obtain ⟨w, -, rfl⟩ := List.mem_map.mp hx
      exact hcb (hinv.indexed.byImsi.inj hc hb heq.symm)

theorem explains_other (hinv : DbInv s.2 base listed live bound) (op : DbOp)
    (hop : op.setsStatus = false) :
    ∀ r ∈ (entryStep s (.other op hop)).1.2.records, (Entry.other op hop).Explains s r := by
  have hsub : ∀ r ∈ (entryStep s (.other op hop)).1.2.records, r ∈ s.2.records := by
    cases op with
    | add => cases hop
    | update => cases hop
    | loadCsv => cases hop
    | delete id =>
      intro r hr
      have hdb : (entryStep s (.other (.delete id) hop)).1.2 = (subdbDelete s.1 s.2 id).2.2 := rfl
      rw [hdb] at hr
      cases subdbDelete_cases s.1 hinv id with
      | inl hno => rwa [hno] at hr
      | inr hyes =>
        obtain ⟨b, listed', live', hperm, -, -, hinv', hmem, -⟩ := hyes
        obtain ⟨c, hc, rfl⟩ := List.mem_map.mp (hinv'.indexed.records_perm.mem_iff.mp hr)
        rw [hmem c hc]
        exact hinv.indexed.records_perm.mem_iff.mpr
          (List.mem_map_of_mem (hperm.mem_iff.mpr (List.mem_cons_of_mem _ hc)))
    | _ => exact fun r hr => hr
  have hlog : (entryStep s (.other op hop)).2 = [] := rfl
  intro r hr
  refine Or.inl ⟨r, hsub r hr, rfl, rfl, ?_⟩
  rw [hlog]
  exact fun x hx => absurd hx List.not_mem_nil

end Stored

theorem entryStep_explains {s : DbState} (hs : GoodState s) (e : Entry) :
    ∀ r ∈ (entryStep s e).1.2.records, e.Explains s r := by
  by_cases h : e.Stores s
  · obtain ⟨-, base, listed, live, bound, hinv, -⟩ := hs
    cases e with
    | add => exact explains_added hinv _ _ _ _ _ _ _ _ h
    | update => exact explains_updated hinv _ _ _ _ _ _ _ h
    | other op hop => exact explains_other hinv op hop
  · exact explains_refused hs h

/-! ### Runs -/

/-- If the call gets as far as storing a status, its word is one that the source knows. -/
def Entry.Meets (s : DbState) (e : Entry) : Prop := e.Stores s → ∀ w ∈ e.word, w.read.Known

/-- What the last accepted input about each IMSI named. -/
def namedBy (log : List (Str × Option SubStatus)) : Str → Option SubStatus :=
  log.foldl (fun named x => Function.update named x.1 x.2) fun _ => none

def StatusesNamed (db : SubscriberDb) (log : List (Str × Option SubStatus)) : Prop :=
  ∀ r ∈ db.records, r.status.Known ∧ namedBy log r.imsi.chars = some r.status

theorem namedBy_append_other {log log' : List (Str × Option SubStatus)} {imsi : Str}
    (h : ∀ x ∈ log', x.1 ≠ imsi) : namedBy (log ++ log') imsi = namedBy log imsi := by
  unfold namedBy
  rw [List.foldl_append]
  generalize log.foldl (fun named x => Function.update named x.1 x.2) (fun _ => none) = named
  induction log' generalizing named with
  | nil => rfl
  | cons x log' ih =>
    have hx := h x (List.mem_cons_self ..)
    rw [List.foldl_cons, ih fun y hy => h y (List.mem_cons_of_mem _ hy)]
    exact Function.update_of_ne hx.symm _ _

theorem namedBy_append_self (log : List (Str × Option SubStatus)) (imsi : Str)
    (named : Option SubStatus) : namedBy (log ++ [(imsi, named)]) imsi = named := by
  unfold namedBy
  rw [List.foldl_append]
  exact Function.update_self ..

/-- One input keeps the statuses named, if its word is known whenever it is stored. -/
theorem StatusesNamed.entryStep {s : DbState} (hs : GoodState s)
    {log : List (Str × Option SubStatus)} (h : StatusesNamed s.2 log) {e : Entry}
    (hmeets : e.Meets s) :
    StatusesNamed (entryStep s e).1.2 (log ++ (entryStep s e).2) := by
  intro r hr
  cases entryStep_explains hs e r hr with
  | inl hold =>
    obtain ⟨r₀, hr₀, himsi, hstatus, hlog⟩ := hold
    rw [namedBy_append_other hlog, ← himsi, ← hstatus]
    exact h r₀ hr₀
  | inr hnew =>
    obtain ⟨w, hw, hstores, hlog, hstatus⟩ := hnew
    have hknown := hmeets hstores w hw
    rw [hlog, namedBy_append_self, hstatus]
    exact ⟨hknown, w.agrees hknown⟩

theorem StatusWord.not_known {w : StatusWord} (h : w.named = none) : ¬ w.read.Known := by
  intro hknown
  rw [w.agrees hknown] at h
  cases h

/-! ### The report -/

/-- The number in the report is the number of listed records, if the search gets its memory. -/
theorem countByStatus_eq (p : SStrPool) (db : SubscriberDb) (status : SubStatus) {a : Alloc}
    (ha : ∀ k < ((dbRecords db).filter fun r => r.status = status).length, AllocAt a k) :
    (countByStatus p db status a).1 = ((dbRecords db).filter fun r => r.status = status).length := by
  have hm : ByTexts fun _ r => decide (r.status = status) := fun _ _ _ => rfl
  cases filteredSearch_cases hm p db a with
  | inl hyes =>
    obtain ⟨-, p', -, hsearch⟩ := hyes
    simp only [countByStatus, subdbSearchByStatus, hsearch]
  | inr hno => exact absurd ha hno.1

theorem count_known {l : List Subscriber} (h : ∀ r ∈ l, r.status.Known) :
    (reportStatuses.map fun x => (l.filter fun r => r.status = x.1).length).sum = l.length := by
  induction l with
  | nil => rfl
  | cons r l ih =>
    have hrest := ih fun r hr => h r (List.mem_cons_of_mem _ hr)
    have hr := h r (List.mem_cons_self ..)
    simp only [reportStatuses, List.map_cons, List.map_nil, List.sum_cons, List.sum_nil,
      List.filter_cons, List.length_cons] at hrest ⊢
    cases hstatus : r.status with
    | active => simp; omega
    | suspended => simp; omega
    | terminated => simp; omega
    | unknown =>
      rw [hstatus] at hr
      exact hr.elim
    | other code =>
      rw [hstatus] at hr
      exact hr.elim

/-- The three numbers of the report add up to its total, if their searches get their memory. -/
def ReportAddsUp (db : SubscriberDb) : Prop :=
  ∀ (pools : SubStatus → SStrPool) (allocs : SubStatus → Alloc),
    (∀ x ∈ reportStatuses, ∀ k < ((dbRecords db).filter fun r => r.status = x.1).length,
      AllocAt (allocs x.1) k) →
    (reportStatuses.map fun x => (countByStatus (pools x.1) db x.1 (allocs x.1)).1).sum =
      subdbCount db

theorem StatusesNamed.report {s : DbState} (hs : GoodState s)
    {log : List (Str × Option SubStatus)} (h : StatusesNamed s.2 log) : ReportAddsUp s.2 := by
  obtain ⟨-, base, listed, live, bound, hinv, -⟩ := hs
  intro pools allocs hmem
  have hcounts : (reportStatuses.map fun x =>
      (countByStatus (pools x.1) s.2 x.1 (allocs x.1)).1) =
      reportStatuses.map fun x => ((dbRecords s.2).filter fun r => r.status = x.1).length :=
    List.map_congr_left fun x hx => countByStatus_eq _ _ _ (hmem x hx)
  rw [hcounts, count_known fun r hr => (h r (hinv.listed_sub hr)).1]
  calc (dbRecords s.2).length = (listed.map s.2.mem).length := hinv.records.length_eq
    _ = listed.length := List.length_map _
    _ = subdbCount s.2 := hinv.indexed.byId.count.symm

/-! ### Statuses after any run -/

def statusLog (s : DbState) (ops : List StatusOp) : List (Str × Option SubStatus) :=
  (Machine.outputs entryStep s (ops.flatMap StatusOp.entries)).flatten

/-- In a run in which only known words come as far as being stored, every record has the status
that was named last, an input that names none is refused, and the report adds up. -/
theorem statuses_named {p : SStrPool} (hp : p.WF) {a : Alloc} {db : SubscriberDb}
    (hcreate : subdbCreate a = .ok db) (ops : List StatusOp)
    (hmeets : Machine.Along entryStep Entry.Meets (p, db) (ops.flatMap StatusOp.entries)) :
    StatusesNamed (ops.foldl StatusOp.run (p, db)).2 (statusLog (p, db) ops) ∧
      (∀ pre e post, ops.flatMap StatusOp.entries = pre ++ e :: post →
        ∀ w ∈ e.word, w.named = none → e.Refused (Machine.final entryStep (p, db) pre)) ∧
      ReportAddsUp (ops.foldl StatusOp.run (p, db)).2 := by
  have h0 : GoodState (p, db) := (Reachable.created hp hcreate).good
  have hempty : StatusesNamed (p, db).2 [] := by
    have hperm := (subdbCreate_inv hcreate).indexed.records_perm
    intro r hr
    exact absurd (hperm.mem_iff.mp hr) List.not_mem_nil
  have hrun := Machine.along_invariant
    (P := fun s log => GoodState s ∧ StatusesNamed s.2 log)
    (fun s log e h hmay => ⟨entryStep_good h.1 e, h.2.entryStep h.1 hmay⟩) ⟨h0, hempty⟩ hmeets
  rw [← runs_entries, List.nil_append] at hrun
  refine ⟨hrun.2, ?_, hrun.2.report hrun.1⟩
  intro pre e post hsplit w hw hnone
  rw [hsplit] at hmeets
  have hgood : GoodState (Machine.final entryStep (p, db) pre) :=
    Machine.final_invariant (P := GoodState) (fun _ e hs => entryStep_good hs e) h0 pre
  apply entryStep_refused hgood
  intro hstores
  exact StatusWord.not_known hnone (hmeets.at_split hstores w hw)

/-- Ann is added with a capital word and then suspended at the prompt. -/
def annOps : List StatusOp :=
  [.other (.strings (.init 16 Alloc.all)) rfl,
    .add (lit "100000 1000000 ACTIVE Ann") 0 Alloc.all,
    .cliUpdate 1 [] [] [] (lit "SUSPENDED") 1 Alloc.all]

theorem statuses_named_ann : ∃ db, subdbCreate Alloc.all = .ok db ∧
    StatusesNamed (annOps.foldl StatusOp.run (SStrPool.start, db)).2
      (statusLog (SStrPool.start, db) annOps) ∧
    (∀ pre e post, annOps.flatMap StatusOp.entries = pre ++ e :: post →
      ∀ w ∈ e.word, w.named = none →
        e.Refused (Machine.final entryStep (SStrPool.start, db) pre)) ∧
    ReportAddsUp (annOps.foldl StatusOp.run (SStrPool.start, db)).2 := by
  have hcreate : ∃ db, subdbCreate Alloc.all = .ok db := ⟨_, rfl⟩
  obtain ⟨db, hdb⟩ := hcreate
  have hwords : (annOps.flatMap StatusOp.entries).map (fun e => e.word.map StatusWord.read) =
      [none, some .active, some .suspended] := by decide +kernel
  refine ⟨db, hdb, statuses_named SStrPool.start_wf hdb annOps (.of_forall ?_ _)⟩
  intro e he s _ w hw
  have hread : some w.read ∈ [none, some SubStatus.active, some SubStatus.suspended] := by
    rw [← hwords]
    exact List.mem_map.mpr ⟨e, he, by rw [hw]; rfl⟩
  simp only [List.mem_cons, List.not_mem_nil, or_false, reduceCtorEq, false_or,
    Option.some.injEq] at hread
  cases hread with
  | inl h => rw [h]; trivial
  | inr h => rw [h]; trivial

/-! ### The words of the protocol -/

/-- Ann is added with the word that the protocol has, and then updated with a word that
nothing has. -/
def smallOps : List StatusOp :=
  [.other (.strings (.init 16 Alloc.all)) rfl,
    .add (lit "100000 1000000 active Ann") 0 Alloc.all]

def badUpdate : Entry := .update 1 none none none (some (.typed (lit "closed"))) 1 Alloc.all

/-- The record of Ann is stored as UNKNOWN, the three counts are 0 and the total is 1, and the
update succeeds. -/
theorem statuses_small_letters : ∃ db, subdbCreate Alloc.all = .ok db ∧
    ¬ StatusesNamed (smallOps.foldl StatusOp.run (SStrPool.start, db)).2
      (statusLog (SStrPool.start, db) smallOps) ∧
    statusNamed (lit "closed") = none ∧
    ¬ badUpdate.Refused (smallOps.foldl StatusOp.run (SStrPool.start, db)) ∧
    ¬ ReportAddsUp (smallOps.foldl StatusOp.run (SStrPool.start, db)).2 := by
  have hrun : ∃ db, subdbCreate Alloc.all = .ok db ∧
      let s := smallOps.foldl StatusOp.run (SStrPool.start, db)
      s.2.records.map Subscriber.status = [.unknown] ∧
        (badUpdate.call s (some .unknown)).1 = .ok ∧
        (reportStatuses.map fun x => (countByStatus s.1 s.2 x.1 Alloc.all).1) = [0, 0, 0] ∧
        subdbCount s.2 = 1 := by
    refine ⟨_, rfl, ?_⟩
    decide +kernel
  obtain ⟨db, hdb, hstatus, hupdate, hcounts, htotal⟩ := hrun
  refine ⟨db, hdb, ?_, by decide, fun h => h.1 hupdate, ?_⟩
  · intro h
    obtain ⟨r, hr, hunknown⟩ := List.mem_map.mp (hstatus ▸ List.mem_singleton.mpr rfl :
      SubStatus.unknown ∈ (smallOps.foldl StatusOp.run (SStrPool.start, db)).2.records.map
        Subscriber.status)
    have hknown := (h r hr).1
    rw [hunknown] at hknown
    exact hknown
  · intro h
    have hsum := h (fun _ => (smallOps.foldl StatusOp.run (SStrPool.start, db)).1)
      (fun _ => Alloc.all) fun _ _ _ _ => ⟨fun _ => rfl, rfl⟩
    rw [hcounts, htotal] at hsum
    cases hsum

end SubscriberMgmt
