import SubscriberMgmt.CliSessions
import SubscriberMgmt.Server
import SubscriberMgmt.SubscriberRecords

/-!
# The ids that clients type (`server.c:144-186`, `main.c:98-150`, `main.c:283-355`)

Ids are read by `sscanf` and `strtoull`, which take a prefix of the text, accept
a sign and never refuse a number for its size. What a command does to which
record follows from the number that they make of the text.
-/

namespace SubscriberMgmt
open CText

/-! ### What calls do to the record of an id -/

def HasId (db : SubscriberDb) (n : ℕ) : Prop := ∃ x ∈ dbRecords db, x.subscriberId.toNat = n

/-- A record with the id was there and is gone or another now. -/
def Alters (db db' : SubscriberDb) (n : ℕ) : Prop :=
  ∃ x ∈ dbRecords db, x.subscriberId.toNat = n ∧ x ∉ dbRecords db'

section Calls

variable {p : SStrPool} {db : SubscriberDb} {n : ℕ}

theorem Alters.self_iff : Alters db db n ↔ False :=
  iff_of_false (fun h => by
    obtain ⟨x, hx, -, hgone⟩ := h
    exact hgone hx) id

theorem GoodState.get_ok (h : GoodState (p, db)) {id : UInt64} :
    (∃ b, htGet (idOps db.mem) db.byId (.value id) = .ok b) ↔ HasId db id.toNat := by
  obtain ⟨-, base, listed, live, bound, hinv, -⟩ := h
  constructor
  · intro hb
    obtain ⟨b, hb⟩ := hb
    obtain ⟨hlisted, hid⟩ := hinv.indexed.byId.get_ok_iff.mp hb
    exact ⟨db.mem b, hinv.records.mem_iff.mpr (List.mem_map_of_mem hlisted), by rw [hid]⟩
  · intro hx
    obtain ⟨x, hx, hid⟩ := hx
    obtain ⟨b, hlisted, rfl⟩ := List.mem_map.mp (hinv.records.mem_iff.mp hx)
    exact ⟨b, hinv.indexed.byId.get_ok_iff.mpr ⟨hlisted, UInt64.toNat_inj.mp hid⟩⟩

theorem GoodState.delete_alters (h : GoodState (p, db)) (id : UInt64) :
    Alters db (subdbDelete p db id).2.2 n ↔ n = id.toNat ∧ HasId db n := by
  by_cases hhas : HasId db id.toNat
  · obtain ⟨b, hb⟩ := h.get_ok.mpr hhas
    obtain ⟨-, base, listed, live, bound, hinv, -⟩ := h
    rcases subdbDelete_cases p hinv id with
      he | ⟨b', listed', live', -, hid, -, hinv', hmem, hperm, -⟩
    · rw [subdbDelete, hb] at he
      cases he
    · have hold := hinv.records.trans (hperm.map _)
      have hnew : (dbRecords (subdbDelete p db id).2.2).Perm (listed'.map db.mem) := by
        refine hinv'.records.trans (List.Perm.of_eq (List.map_congr_left fun q hq => ?_))
        exact hmem q (hinv'.indexed.sub q hq)
      -- no other record has the id
      have hother : db.mem b' ∉ listed'.map db.mem := by
        intro hm
        obtain ⟨q, hq, he⟩ := List.mem_map.mp hm
        have hdistinct := (hperm.pairwise_iff Ne.symm).mp hinv.indexed.byId.distinct
        exact (List.pairwise_cons.mp hdistinct).1 q hq (by rw [he])
      constructor
      · intro ha
        obtain ⟨x, hx, hxn, hgone⟩ := ha
        rcases List.mem_cons.mp (hold.mem_iff.mp hx) with rfl | hx'
        · rw [hid] at hxn
          exact ⟨hxn.symm, hxn ▸ hhas⟩
        · exact absurd (hnew.mem_iff.mpr hx') hgone
      · intro hn
        refine ⟨db.mem b', hold.mem_iff.mpr (List.mem_cons_self ..), ?_, fun hm => ?_⟩
        · rw [hid, hn.1]
        · exact hother (hnew.mem_iff.mp hm)
  · have hnone : subdbDelete p db id = (.errNotFound, p, db) := by
      unfold subdbDelete
      cases hg : htGet (idOps db.mem) db.byId (.value id) with
      | error e => rfl
      | ok b => exact absurd (h.get_ok.mp ⟨b, hg⟩) hhas
    rw [hnone, Alters.self_iff, false_iff]
    exact fun hn => hhas (hn.1 ▸ hn.2)

theorem GoodState.search_finds (h : GoodState (p, db)) (id : UInt64) (a : Alloc) {x : Subscriber}
    (hx : (subdbSearchById p db id a).1 = .ok x) :
    x.subscriberId.toNat = id.toNat ∧ HasId db id.toNat := by
  unfold subdbSearchById searchResult makeSnapshot at hx
  split at hx
  case h_1 => cases hx
  case h_2 b hb =>
    have hid : (db.mem b).subscriberId = id := by
      obtain ⟨-, base, listed, live, bound, hinv, -⟩ := h
      exact (hinv.indexed.byId.get_ok_iff.mp hb).2
    cases h0 : a 0 with
    | false =>
      rw [h0] at hx
      cases hx
    | true =>
      rw [h0] at hx
      cases hx
      exact ⟨by rw [hid], h.get_ok.mp ⟨b, hb⟩⟩

theorem GoodState.search_found (h : GoodState (p, db)) {id : UInt64} (hid : HasId db id.toNat) :
    ∃ x, (subdbSearchById p db id Alloc.all).1 = .ok x ∧ x.subscriberId.toNat = id.toNat := by
  obtain ⟨b, hb⟩ := h.get_ok.mpr hid
  have hx : (subdbSearchById p db id Alloc.all).1 = .ok (db.mem b) := by
    rw [subdbSearchById, hb]
    rfl
  exact ⟨db.mem b, hx, (h.search_finds id Alloc.all hx).1⟩

theorem GoodState.update_alters (h : GoodState (p, db)) (p' : SStrPool) (id : UInt64)
    (name region plan : Option Str) (status : Option SubStatus) (now : Int64) (a : Alloc)
    (halters : Alters db (subdbUpdate p' db id name region plan status now a).2.2 n) :
    n = id.toNat ∧ HasId db n := by
  rcases subdbUpdate_refused_or p' db id name region plan status now a with
    ⟨st, -, he, -⟩ | ⟨b, s, hb, -, -, -, -, he⟩
  · rw [he, Alters.self_iff] at halters
    exact halters.elim
  · rw [he] at halters
    obtain ⟨x, hx, hn, hgone⟩ := halters
    obtain ⟨m, hm, rfl⟩ := List.mem_map.mp hx
    have hmb : m.value = b := by
      by_contra hne
      exact hgone (List.mem_map.mpr ⟨m, hm, Function.update_of_ne hne _ _⟩)
    obtain ⟨-, base, listed, live, bound, hinv, -⟩ := h
    have hid := (hinv.indexed.byId.get_ok_iff.mp hb).2
    have hnid : n = id.toNat := by rw [← hn, hmb, hid]
    exact ⟨hnid, db.mem m.value, List.mem_map_of_mem hm, hn⟩

end Calls

/-! ### The number that is made of a text -/

theorem scanUInt_lt {s : Str} {r : ℕ × Str} (h : scanUInt 64 s = some r) : r.1 < 2 ^ 64 := by
  have hr : Converts s r.1 := scanUInt_converts.mp (by rw [h]; rfl)
  obtain ⟨-, sign, ds, -, -, -, -, -, -, -, hv⟩ := hr
  exact hv ▸ unsignedValue_lt sign ds

theorem scanId_eq_none_iff {args : Str} : scanId args = none ↔ ∀ n, ¬ Converts args n := by
  simp only [← scanUInt_converts, scanId, Option.map_eq_none_iff]
  cases scanUInt 64 args with
  | none => simp
  | some r => simp

theorem scanId_eq_some_iff {args : Str} {id : UInt64} :
    scanId args = some id ↔ Converts args id.toNat := by
  rw [← scanUInt_converts, scanId]
  cases hscan : scanUInt 64 args with
  | none => simp
  | some r =>
    have hlt := scanUInt_lt hscan
    simp only [Option.map_some, Option.some.injEq]
    rw [← UInt64.toNat_inj, UInt64.toNat_ofNat', Nat.mod_eq_of_lt hlt]

/-- The part of it that `read_line` hands to `read_id`. -/
def lineRead (line : Str) : Str :=
  (line.take 31).takeWhile fun c => c != 0 && (c != carriageReturn)

/-- The number that `read_id` makes of a line: 0 when it starts with none. -/
def TypedAs (line : Str) (n : ℕ) : Prop :=
  Converts (lineRead line) n ∨ (∀ m, ¬ Converts (lineRead line) m) ∧ n = 0

theorem readLineFrom_fst (stdin : Str) :
    (readLineFrom 32 stdin).1 = lineRead (typedLine stdin) := by
  have hfirst : ∀ s, ((cString (fgets 31 s).1).takeWhile fun c =>
      c != carriageReturn && c != newline) = lineRead (typedLine s) := by
    intro s
    have hline : ∀ c ∈ (typedLine s).take 31, (c != newline) = true := fun c hc =>
      List.mem_takeWhile_imp (p := (· != newline)) (List.mem_of_mem_take hc)
    rw [cString, List.takeWhile_takeWhile, fgets_takeWhile 31 s _ (by simp), lineRead,
      ← List.takeWhile_eq_self_iff.mpr hline, List.takeWhile_takeWhile]
    refine congrArg (fun q => List.takeWhile q ((typedLine s).take 31)) ?_
    funext c
    grind
  unfold readLineFrom
  split
  · rfl
  · dsimp only
    split
    · exact hfirst _
    · exact hfirst _

theorem typedId_iff {stdin : Str} {n : ℕ} :
    (typedId (readLineFrom 32 stdin).1).toNat = n ↔ TypedAs (typedLine stdin) n := by
  rw [readLineFrom_fst, TypedAs]
  simp only [← scanUInt_converts, typedId]
  cases hscan : scanUInt 64 (lineRead (typedLine stdin)) with
  | none => simp [eq_comm]
  | some r =>
    have hlt := scanUInt_lt hscan
    simp only [UInt64.toNat_ofNat', Nat.mod_eq_of_lt hlt, Option.map_some, Option.some.injEq,
      forall_eq', false_and, or_false]

/-! ### Commands that act on the number -/

/-- The text is a numeral and read as what it denotes, or it is read as a number
that no record has. -/
def ReadExactly (db : SubscriberDb) (text : Str) (reads : ℕ → Prop) : Prop :=
  (∃ n, Numeral text n ∧ reads n) ∨ ∀ n, reads n → ¬ HasId db n

/-- A command that acts on records of the number read. -/
theorem numeral_of_readExactly {db : SubscriberDb} {text : Str} {reads acts : ℕ → Prop}
    (hunique : ∀ m n, reads m → reads n → m = n) (hacts : ∀ n, acts n → reads n ∧ HasId db n)
    (h : ReadExactly db text reads) : ∀ n, acts n → Numeral text n := by
  intro n hn
  obtain ⟨hread, hhas⟩ := hacts n hn
  rcases h with ⟨m, hm, hreadm⟩ | hno
  · exact hunique m n hreadm hread ▸ hm
  · exact absurd hhas (hno n hread)

/-- A command that acts on every record of the number read. -/
theorem numeral_iff_readExactly {db : SubscriberDb} {text : Str} {reads acts : ℕ → Prop}
    (hunique : ∀ m n, reads m → reads n → m = n) (hacts : ∀ n, acts n ↔ reads n ∧ HasId db n) :
    (∀ n, acts n → Numeral text n) ↔ ReadExactly db text reads := by
  refine ⟨fun h => ?_, numeral_of_readExactly hunique fun n hn => (hacts n).mp hn⟩
  by_cases hsome : ∃ n, reads n ∧ HasId db n
  · obtain ⟨n, hn⟩ := hsome
    exact Or.inl ⟨n, h n ((hacts n).mpr hn), hn.1⟩
  · exact Or.inr fun n hread hhas => hsome ⟨n, hread, hhas⟩

section Commands

variable {p : SStrPool} {db : SubscriberDb}

theorem cmdDelete_alters (h : GoodState (p, db)) (args : Str) (n : ℕ) :
    Alters db (cmdDelete p db args).2.1 n ↔ Converts args n ∧ HasId db n := by
  unfold cmdDelete
  cases hscan : scanId args with
  | none =>
    rw [Alters.self_iff, false_iff]
    exact fun hn => scanId_eq_none_iff.mp hscan n hn.1
  | some id =>
    have hid := scanId_eq_some_iff.mp hscan
    refine (h.delete_alters id).trans (and_congr_left fun _ => ⟨fun hn => hn ▸ hid, fun hn => ?_⟩)
    exact hn.unique hid

theorem cmdSearch_finds (h : GoodState (p, db)) (args : Str) (n : ℕ) :
    (∃ a x, .found x ∈ (cmdSearch p db args a).2 ∧ x.subscriberId.toNat = n) ↔
      Converts args n ∧ HasId db n := by
  unfold cmdSearch
  cases hscan : scanId args with
  | none =>
    refine iff_of_false (fun hx => ?_) fun hn => scanId_eq_none_iff.mp hscan n hn.1
    obtain ⟨a, x, hx, -⟩ := hx
    cases List.mem_singleton.mp hx
  | some id =>
    have hid := scanId_eq_some_iff.mp hscan
    constructor
    · intro hx
      obtain ⟨a, x, hx, rfl⟩ := hx
      dsimp only at hx
      split at hx
      case h_1 sub strs heq =>
        cases List.mem_singleton.mp hx
        obtain ⟨hsame, hhas⟩ := h.search_finds id a (congrArg Prod.fst heq)
        exact ⟨hsame ▸ hid, hsame ▸ hhas⟩
      case h_2 => cases List.mem_singleton.mp hx
    · intro hn
      obtain ⟨hread, hhas⟩ := hn
      have hsame := hread.unique hid
      obtain ⟨x, hx, hxid⟩ := h.search_found (hsame ▸ hhas)
      refine ⟨Alloc.all, x, ?_, hxid.trans hsame.symm⟩
      dsimp only
      generalize subdbSearchById p db id Alloc.all = r at hx ⊢
      obtain ⟨r, strs⟩ := r
      cases hx
      exact List.mem_singleton.mpr rfl

end Commands

/-! ### Actions of the menu -/

section Runs

variable {α : Type} (s : CliState)

theorem authorize_run (token : Str) (action : SmAction) (f : Except SmStatus AuthUser → Cli α) :
    (authorize token action >>= f) s =
      let r := authAuthorize s.auth (some token) action (s.outside s.tick).now
      f r.1 { s with
        tick := s.tick + 1
        shutdownRequested := s.shutdownRequested || (s.outside s.tick).signal
        auth := r.2
        authorizedAt := if r.1.isOk then (s.outside s.tick).now else s.authorizedAt } := rfl

theorem puts_run (text : String) (f : Unit → Cli α) :
    (puts text >>= f) s = f () { s with stdout := s.stdout ++ lit text } := rfl

theorem readId_run (f : UInt64 → Cli α) :
    (readId >>= f) s = f (typedId (readLineFrom 32 s.stdin).1) { s with
      tick := s.tick + 1
      shutdownRequested := s.shutdownRequested || (s.outside s.tick).signal
      stdin := (readLineFrom 32 s.stdin).2 } := rfl

theorem searchById_run (id : UInt64) (f : Except SmStatus Subscriber → Cli α) :
    (searchById id >>= f) s =
      let r := subdbSearchById s.strs s.db id (s.outside s.tick).alloc
      f r.1 { s with
        tick := s.tick + 1
        shutdownRequested := s.shutdownRequested || (s.outside s.tick).signal
        strs := r.2 } := rfl

theorem actionDelete_db (token : Str) :
    (actionDelete token s).2.db =
      if (authAuthorize s.auth (some token) .subDelete (s.outside s.tick).now).1.isOk then
        (subdbDelete s.strs s.db (typedId (readLineFrom 32 s.stdin).1)).2.2
      else s.db := by
  unfold actionDelete
  rw [authorize_run]
  generalize authAuthorize s.auth (some token) .subDelete (s.outside s.tick).now = r
  obtain ⟨v, auth⟩ := r
  cases v with
  | error st => rfl
  | ok user => rfl

/-- An update is made of the record that the id typed first names, or of none. -/
theorem actionUpdate_db (token : Str) :
    (actionUpdate token s).2.db = s.db ∨ ∃ p name region plan status now a,
      (actionUpdate token s).2.db = (subdbUpdate p s.db (typedId (readLineFrom 32 s.stdin).1) name
        region plan status now a).2.2 := by
  unfold actionUpdate
  rw [authorize_run]
  generalize authAuthorize s.auth (some token) .subUpdate (s.outside s.tick).now = r
  obtain ⟨v, auth⟩ := r
  cases v with
  | error st => exact Or.inl rfl
  | ok user =>
    dsimp only
    rw [puts_run, readId_run, searchById_run]
    dsimp only
    generalize subdbSearchById s.strs s.db _ (s.outside _).alloc = found
    obtain ⟨v, strs⟩ := found
    cases v with
    | error st => exact Or.inl rfl
    | ok sub => exact Or.inr ⟨_, _, _, _, _, _, _, rfl⟩

end Runs

/-- What is typed is next on standard input of a program that works on the database. -/
def CliState.Reads (s : CliState) (p : SStrPool) (db : SubscriberDb) (stdin : Str) : Prop :=
  s.strs = p ∧ s.db = db ∧ s.stdin = stdin

def CliDeletes (p : SStrPool) (db : SubscriberDb) (stdin : Str) (n : ℕ) : Prop :=
  ∃ token s, s.Reads p db stdin ∧ Alters db (actionDelete token s).2.db n

def CliUpdates (p : SStrPool) (db : SubscriberDb) (stdin : Str) (n : ℕ) : Prop :=
  ∃ token s, s.Reads p db stdin ∧ Alters db (actionUpdate token s).2.db n

/-- The lookup behind what `action_search` and `action_update` display. -/
def CliFinds (p : SStrPool) (db : SubscriberDb) (stdin : Str) (n : ℕ) : Prop :=
  ∃ s x, s.Reads p db stdin ∧ ((readId >>= searchById) s).1 = .ok x ∧ x.subscriberId.toNat = n

def loggedInAdmin : AuthState :=
  (authLogin loadedAdmin (some (lit "admin")) (some (lit "x")) true (zeroLogin 0)).2

def adminAt (p : SStrPool) (db : SubscriberDb) (stdin : Str) : CliState :=
  .start loggedInAdmin p db (Disk.start fun _ => none) stdin (calmOutside fun _ => 0)

theorem loggedInAdmin_deletes :
    (authAuthorize loggedInAdmin (some (List.replicate 64 48)) .subDelete 0).1.isOk = true := by
  decide +kernel

section Actions

variable {p : SStrPool} {db : SubscriberDb}

theorem cliDeletes_iff (h : GoodState (p, db)) (stdin : Str) (n : ℕ) :
    CliDeletes p db stdin n ↔ TypedAs (typedLine stdin) n ∧ HasId db n := by
  rw [← typedId_iff]
  constructor
  · intro hd
    obtain ⟨token, s, ⟨rfl, rfl, rfl⟩, hd⟩ := hd
    rw [actionDelete_db] at hd
    split at hd
    case isTrue =>
      obtain ⟨hn, hhas⟩ := (h.delete_alters _).mp hd
      exact ⟨hn.symm, hhas⟩
    case isFalse => exact (Alters.self_iff.mp hd).elim
  · intro hn
    refine ⟨List.replicate 64 48, adminAt p db stdin, ⟨rfl, rfl, rfl⟩, ?_⟩
    rw [actionDelete_db]
    exact (if_pos loggedInAdmin_deletes).symm ▸ (h.delete_alters _).mpr ⟨hn.1.symm, hn.2⟩

theorem cliFinds_iff (h : GoodState (p, db)) (stdin : Str) (n : ℕ) :
    CliFinds p db stdin n ↔ TypedAs (typedLine stdin) n ∧ HasId db n := by
  rw [← typedId_iff]
  constructor
  · intro hf
    obtain ⟨s, x, ⟨rfl, rfl, rfl⟩, hx, rfl⟩ := hf
    obtain ⟨hid, hhas⟩ := h.search_finds _ _ hx
    exact ⟨hid.symm, hid ▸ hhas⟩
  · intro hn
    obtain ⟨hid, hhas⟩ := hn
    obtain ⟨x, hx, hxid⟩ := h.search_found (hid ▸ hhas)
    exact ⟨adminAt p db stdin, x, ⟨rfl, rfl, rfl⟩, hx, hxid.trans hid⟩

theorem cliUpdates_acts (h : GoodState (p, db)) (stdin : Str) (n : ℕ)
    (hu : CliUpdates p db stdin n) : TypedAs (typedLine stdin) n ∧ HasId db n := by
  rw [← typedId_iff]
  obtain ⟨token, s, ⟨rfl, rfl, rfl⟩, hu⟩ := hu
  rcases actionUpdate_db s token with he | ⟨p', name, region, plan, status, now, a, he⟩
  · rw [he, Alters.self_iff] at hu
    exact hu.elim
  · rw [he] at hu
    obtain ⟨hn, hhas⟩ := h.update_alters _ _ _ _ _ _ _ _ hu
    exact ⟨hn.symm, hhas⟩

end Actions

theorem TypedAs.unique {line : Str} (m n : ℕ) (hm : TypedAs line m) (hn : TypedAs line n) :
    m = n := by
  rcases hm with hm | ⟨hnone, rfl⟩
  · rcases hn with hn | ⟨hnone, -⟩
    · exact hm.unique hn
    · exact absurd hm (hnone m)
  · rcases hn with hn | ⟨-, rfl⟩
    · exact absurd hn (hnone n)
    · rfl

/-! ### Ids parsed exactly -/

/-- For every reachable database: DELETE, SEARCH, `action_delete` and the lookups by
a typed id touch records of the number that the text denotes only, exactly if it is
a numeral read as its number, or is read as a number that no record has. Then that
holds of `action_update`, too. -/
theorem ids_parsed_exactly_iff (p : SStrPool) (db : SubscriberDb) (hreach : Reachable (p, db))
    (args stdin : Str) :
    ((∀ n, Alters db (cmdDelete p db args).2.1 n → Numeral args n) ↔
        ReadExactly db args (Converts args)) ∧
      ((∀ n, (∃ a x, .found x ∈ (cmdSearch p db args a).2 ∧ x.subscriberId.toNat = n) →
        Numeral args n) ↔ ReadExactly db args (Converts args)) ∧
      ((∀ n, CliDeletes p db stdin n → Numeral (typedLine stdin) n) ↔
        ReadExactly db (typedLine stdin) (TypedAs (typedLine stdin))) ∧
      ((∀ n, CliFinds p db stdin n → Numeral (typedLine stdin) n) ↔
        ReadExactly db (typedLine stdin) (TypedAs (typedLine stdin))) ∧
      (ReadExactly db (typedLine stdin) (TypedAs (typedLine stdin)) →
        ∀ n, CliUpdates p db stdin n → Numeral (typedLine stdin) n) := by
  have hgood := hreach.good
  have hconverts : ∀ m n, Converts args m → Converts args n → m = n := fun _ _ => Converts.unique
  exact ⟨numeral_iff_readExactly hconverts (cmdDelete_alters hgood args),
    numeral_iff_readExactly hconverts (cmdSearch_finds hgood args),
    numeral_iff_readExactly TypedAs.unique (cliDeletes_iff hgood stdin),
    numeral_iff_readExactly TypedAs.unique (cliFinds_iff hgood stdin),
    numeral_of_readExactly TypedAs.unique (cliUpdates_acts hgood stdin)⟩

/-- A database with one record, which has the id 1. -/
theorem oneRecord_reachable : ∃ p db, Reachable (p, db) ∧ HasId db 1 := by
  have hcreate : ∃ db, subdbCreate Alloc.all = .ok db := ⟨_, rfl⟩
  obtain ⟨db, hdb⟩ := hcreate
  obtain ⟨-, b, hone, hid, -⟩ := firstAdd_one hdb
  obtain ⟨listed, hinv⟩ := hone.inv
  refine ⟨_, _, ⟨(sstrPoolInit SStrPool.start 16 Alloc.all).2, Alloc.all, db,
    [.add (some (lit "100000")) (some (lit "1000000")) (some (lit "A")) (some (lit "A"))
      (some (lit "A")) .active true 0 Alloc.all],
    SStrPool.init_wf SStrPool.start_wf 16 Alloc.all, hdb, rfl⟩, _, ?_, congrArg UInt64.toNat hid⟩
  exact (hinv.records.trans ((hinv.young (by decide)).1.map _)).mem_iff.mpr
    (List.mem_singleton.mpr rfl)

theorem numeral_one : Numeral (lit "1") 1 :=
  ⟨[], lit "1", [], rfl, fun _ hc => absurd hc List.not_mem_nil,
    fun _ hc => absurd hc List.not_mem_nil, by decide, by decide +kernel, by decide +kernel⟩

theorem ids_parsed_exactly_iff_one : ∃ p db, Reachable (p, db) ∧ HasId db 1 ∧
    ∀ n, Alters db (cmdDelete p db (lit "1")).2.1 n → Numeral (lit "1") n := by
  obtain ⟨p, db, hreach, hhas⟩ := oneRecord_reachable
  exact ⟨p, db, hreach, hhas, (ids_parsed_exactly_iff p db hreach (lit "1") []).1.mpr
    (Or.inl ⟨1, numeral_one, numeral_one.converts (by decide)⟩)⟩

/-- Text behind the digits is ignored, and a minus sign counts back from `2 ^ 64`:
record 1 goes when `1x` is to be deleted, and when `-18446744073709551615` is. -/
theorem malformed_ids_delete : ∃ p db, Reachable (p, db) ∧
    Alters db (cmdDelete p db (lit "1x")).2.1 1 ∧ (∀ n, ¬ Numeral (lit "1x") n) ∧
    CliDeletes p db (lit "-18446744073709551615\n") 1 ∧
    ∀ n, ¬ Numeral (typedLine (lit "-18446744073709551615\n")) n := by
  obtain ⟨p, db, hreach, hhas⟩ := oneRecord_reachable
  refine ⟨p, db, hreach, (cmdDelete_alters hreach.good _ _).mpr ⟨?_, hhas⟩, fun n hn => ?_,
    (cliDeletes_iff hreach.good _ _).mpr ⟨?_, hhas⟩, fun n hn => ?_⟩
  · exact scanUInt_converts.mp (by decide)
  · have h := hn.chars 120 (by decide)
    cases h
  · exact Or.inl (scanUInt_converts.mp (by decide))
  · have h := hn.chars 45 (by decide)
    cases h

end SubscriberMgmt
