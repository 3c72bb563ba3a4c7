import SubscriberMgmt.CsvRestart
import SubscriberMgmt.SubscriberFailedAdd

/-!
# Loading a file twice (`subscriber.c:288-298, 896-961, 985-996`)

A line whose IMSI or MSISDN is taken is skipped. A load leaves no well-formed line
of its file without a record that has its IMSI or its MSISDN.
-/

namespace SubscriberMgmt
open CText

/-! ### Records that stay -/

theorem Snapshot.of_good {p p' : SStrPool} {r : Subscriber} (hr : GoodRecord p r)
    (he : p.Extends p') : Snapshot.of p' r = Snapshot.of p r := by
  simp only [Snapshot.of, hr.name.cstr_mono he, hr.region.cstr_mono he, hr.plan.cstr_mono he]

theorem contents_grown {p p' : SStrPool} {db db' : SubscriberDb}
    {listed listed' live new : List Block} (h : Indexed db listed live)
    (h' : Indexed db' listed' (new ++ live)) (he : p.Extends p')
    (hgood : ∀ b ∈ live, GoodRecord p (db.mem b)) (hmem : ∀ b ∈ live, db'.mem b = db.mem b) :
    (contents p' db').Perm (new.map (Snapshot.of p' ∘ db'.mem) ++ contents p db) := by
  have hsame : ∀ b ∈ live, (Snapshot.of p' ∘ db'.mem) b = (Snapshot.of p ∘ db.mem) b := by
    intro b hb
    simp only [Function.comp, hmem b hb]
    exact Snapshot.of_good (hgood b hb) he
  have hnew := h'.records_perm.map (Snapshot.of p')
  have hold := h.records_perm.map (Snapshot.of p)
  rw [List.map_map] at hnew hold
  rw [List.map_append, List.map_congr_left hsame] at hnew
  exact hnew.trans (hold.symm.append_left _)

theorem contents_kept {p p' : SStrPool} {db db' : SubscriberDb} {listed listed' live : List Block}
    (h : Indexed db listed live) (h' : Indexed db' listed' live) (he : p.Extends p')
    (hgood : ∀ b ∈ live, GoodRecord p (db.mem b)) (hmem : ∀ b ∈ live, db'.mem b = db.mem b) :
    (contents p' db').Perm (contents p db) :=
  contents_grown h (show Indexed db' listed' ([] ++ live) from h') he hgood hmem

/-- The records of the one database are in the other as they were, and are found
there. -/
structure KeepsRecords (p : SStrPool) (db : SubscriberDb) (p' : SStrPool) (db' : SubscriberDb) :
    Prop where
  records : ∃ new, (contents p' db').Perm (new ++ contents p db)
  byId : ∀ id a x, (subdbSearchById p db id a).1 = .ok x → (subdbSearchById p' db' id a).1 = .ok x
  byImsi : ∀ imsi a x, (subdbSearchByImsi p db imsi a).1 = .ok x →
    (subdbSearchByImsi p' db' imsi a).1 = .ok x
  byMsisdn : ∀ msisdn a x, (subdbSearchByMsisdn p db msisdn a).1 = .ok x →
    (subdbSearchByMsisdn p' db' msisdn a).1 = .ok x

theorem searchResult_found {p p' : SStrPool} {mem mem' : Block → Subscriber}
    {found found' : Except SmStatus Block} {a : Alloc} {x : Subscriber}
    (hfound : ∀ b, found = .ok b → found' = .ok b ∧ mem' b = mem b)
    (h : (searchResult p mem found a).1 = .ok x) : (searchResult p' mem' found' a).1 = .ok x := by
  cases found with
  | error st => cases h
  | ok b =>
    obtain ⟨rfl, hmem⟩ := hfound b rfl
    rw [searchResult_eq (p := p) fun c hc => by cases hc; exact hmem]
    exact h

theorem Indexes.get_grown {P A : Type*} [DecidableEq A] {hash : A → UInt64} {read read' : P → A}
    {t t' : HashTable (KeyRef P A) P} {live live' : List P} (h : Indexes hash read t live)
    (h' : Indexes hash read' t' live') (hsub : ∀ p ∈ live, p ∈ live')
    (hread : ∀ p ∈ live, read' p = read p) {k : A} {p : P}
    (hg : htGet (KeyRef.ops hash read) t (.value k) = .ok p) :
    htGet (KeyRef.ops hash read') t' (.value k) = .ok p := by
  obtain ⟨hm, hk⟩ := h.get_ok_iff.mp hg
  exact h'.get_ok_iff.mpr ⟨hsub p hm, (hread p hm).trans hk⟩

theorem DbInv.keepsRecords {p p' : SStrPool} {db db' : SubscriberDb} {base bound bound' : ℕ}
    {listed listed' live new : List Block} (h : DbInv db base listed live bound)
    (h' : DbInv db' base listed' (new ++ live) bound') (hbound : bound ≤ base + 2 ^ 64)
    (hbound' : bound' ≤ base + 2 ^ 64) (he : p.Extends p')
    (hgood : ∀ b ∈ live, GoodRecord p (db.mem b)) (hmem : ∀ b ∈ live, db'.mem b = db.mem b) :
    KeepsRecords p db p' db' := by
  have hid := h.indexed.byId.perm (h.young hbound).1
  have hid' := h'.indexed.byId.perm (h'.young hbound').1
  have hsub : ∀ b ∈ live, b ∈ new ++ live := fun b hb => List.mem_append_right _ hb
  refine ⟨⟨_, contents_grown h.indexed h'.indexed he hgood hmem⟩, ?_, ?_, ?_⟩
  · intro id a x hx
    refine searchResult_found (fun b hb => ⟨?_, hmem b (hid.get_ok_iff.mp hb).1⟩) hx
    exact hid.get_grown hid' hsub (fun c hc => by rw [hmem c hc]) hb
  · intro imsi a x hx
    cases imsi with
    | none => exact hx
    | some imsi =>
      refine searchResult_found (fun b hb => ⟨?_, hmem b
        (h.indexed.byImsi.get_ok_iff.mp hb).1⟩) hx
      exact h.indexed.byImsi.get_grown h'.indexed.byImsi hsub (fun c hc => by rw [hmem c hc]) hb
  · intro msisdn a x hx
    cases msisdn with
    | none => exact hx
    | some msisdn =>
      refine searchResult_found (fun b hb => ⟨?_, hmem b
        (h.indexed.byMsisdn.get_ok_iff.mp hb).1⟩) hx
      exact h.indexed.byMsisdn.get_grown h'.indexed.byMsisdn hsub (fun c hc => by rw [hmem c hc]) hb

/-! ### Databases that grow -/

/-- In at most `k` adds more blocks came to be live, and those that were are as they
were. -/
def Grown (db : SubscriberDb) (base : ℕ) (live : List Block) (bound k : ℕ) (db' : SubscriberDb) :
    Prop :=
  ∃ new listed' bound', DbInv db' base listed' (new ++ live) bound' ∧ bound' ≤ bound + k ∧
    ∀ b ∈ live, db'.mem b = db.mem b

section Grown

variable {db : SubscriberDb} {base : ℕ} {listed live : List Block} {bound : ℕ}

theorem Grown.still (h : DbInv db base listed live bound) : Grown db base live bound 0 db :=
  ⟨[], listed, bound, h, le_rfl, fun _ _ => rfl⟩

theorem Grown.plus {db' db'' : SubscriberDb} {j k : ℕ} (h : Grown db base live bound j db')
    (h' : ∀ {listed' live' bound'}, DbInv db' base listed' live' bound' →
      Grown db' base live' bound' k db'') : Grown db base live bound (j + k) db'' := by
  obtain ⟨new, listed', bound', hinv, hle, hmem⟩ := h
  obtain ⟨new', listed'', bound'', hinv', hle', hmem'⟩ := h' hinv
  rw [← List.append_assoc] at hinv'
  refine ⟨new' ++ new, listed'', bound'', hinv', by omega, fun b hb => ?_⟩
  rw [hmem' b (List.mem_append_right _ hb), hmem b hb]

theorem subdbAdd_grown (p : SStrPool) (h : DbInv db base listed live bound)
    (imsi msisdn name region plan : Option Str) (status : SubStatus) (outId : Bool) (now : Int64)
    (a : Alloc) :
    Grown db base live bound 1
      (subdbAdd p db imsi msisdn name region plan status outId now a).db := by
  rcases subdbAdd_cases p h imsi msisdn name region plan status outId now a with
    ⟨-, -, -, hhi, hinv, hmem⟩ | ⟨i, m, n, g, q, -, -, -, -, -, hd⟩
  · exact ⟨[], _, _, hinv, hhi, hmem⟩
  · obtain ⟨-, hb, -, -, -, hinv, hmem⟩ := hd
    refine ⟨[_], _, _, hinv, le_rfl, fun c hc => ?_⟩
    rw [hmem, Function.update_of_ne (ne_of_mem_of_not_mem hc hb)]

theorem loadLine_grown (p : SStrPool) (h : DbInv db base listed live bound) (piece : Str)
    (now : Int64) (a : Alloc) :
    Grown db base live bound (loadLine p db piece now a).1.out.adds
      (loadLine p db piece now a).2.2 := by
  simp only [loadLine]
  split
  · exact .still h
  · split
    · exact .still h
    · split
      · exact .still h
      · rw [(subdbAdd_step p h _ _ _ _ _ _ _ _ _).2]
        exact subdbAdd_grown p h _ _ _ _ _ _ _ _ _

theorem loadLines_grown (p : SStrPool) (h : DbInv db base listed live bound) (clock : ℕ → Int64)
    (a : Alloc) (i : ℕ) (pieces : List Str) :
    let r := loadLines p db clock a i pieces
    Grown db base live bound (DbOut.total (r.1.map LineOutcome.out)).adds r.2.2 := by
  induction pieces generalizing p db listed live bound i with
  | nil => exact .still h
  | cons piece pieces ih =>
    have hline := loadLine_grown p h piece (clock i) (a.skip (20 * i))
    simp only [loadLines]
    generalize loadLine p db piece (clock i) (a.skip (20 * i)) = x at hline ⊢
    exact hline.plus fun hinv => ih x.2.1 hinv (i + 1)

theorem subdbLoadCsv_grown (p : SStrPool) (h : DbInv db base listed live bound)
    (path : Option Str) (files : Str → Option Str) (clock : ℕ → Int64) (a : Alloc) :
    let r := subdbLoadCsv p db path files clock a
    Grown db base live bound (DbOut.total (r.lines.map LineOutcome.out)).adds r.db := by
  simp only
  unfold subdbLoadCsv
  split
  · exact .still h
  · split
    · exact .still h
    · split
      · exact .still h
      · split
        · exact .still h
        · exact loadLines_grown p h clock a 0 _

end Grown

/-! ### Lines whose keys are taken -/

/-- A record that is listed has the IMSI or the MSISDN. -/
def KeyTaken (s : DbState) (r : SubscriberFields) : Prop :=
  ¬ KeysNew r.imsi r.msisdn (dbContents s)

theorem KeyTaken.mono {s s' : DbState} {r : SubscriberFields} (h : KeyTaken s r)
    (hsub : ∀ e ∈ dbContents s, e ∈ dbContents s') : KeyTaken s' r :=
  fun hnew => h fun e he => hnew e (hsub e he)

theorem KeyTaken.not_addable {p : SStrPool} {db : SubscriberDb} {base bound : ℕ}
    {listed live : List Block} (h : DbInv db base listed live bound) {r : SubscriberFields}
    (htaken : KeyTaken (p, db) r) {name region plan : Str}
    (hadd : Addable db live r.imsi r.msisdn name region plan) : False := by
  refine htaken fun e he => ?_
  obtain ⟨x, hx, rfl⟩ := List.mem_map.mp he
  obtain ⟨b, hb, rfl⟩ := List.mem_map.mp (h.records.mem_iff.mp hx)
  have hlive := h.indexed.sub b hb
  exact ⟨hadd.newImsi b hlive, hadd.newMsisdn b hlive⟩

section Lines

variable {p : SStrPool} {db : SubscriberDb}

theorem loadLine_taken (h : GoodState (p, db)) {piece : Str}
    (htaken : ∀ r, lineRecord piece = some r → KeyTaken (p, db) r) (now : Int64) (a : Alloc) :
    (loadLine p db piece now a).2 = (p, db) ∧ ∀ id, (loadLine p db piece now a).1 ≠ .added id := by
  cases hline : lineRecord piece with
  | none =>
    refine ⟨loadLine_other hline p db now a, fun id hid => ?_⟩
    exact loadLine_added hid hline
  | some r =>
    obtain ⟨-, base, listed, live, bound, hinv, -⟩ := h
    rw [loadLine_eq hline]
    rcases subdbAdd_refused_or p hinv.indexed (some r.imsi) (some r.msisdn) (some r.name)
      (some r.region) (some r.plan) r.status true now a with
      ⟨st, hst, he⟩ | ⟨i, m, n, g, q, hi, hm, -, -, -, hadd, -⟩
    · rw [he]
      refine ⟨rfl, fun id hid => ?_⟩
      cases st <;> first | exact hst rfl | cases hid
    · cases hi
      cases hm
      exact ((htaken r hline).not_addable hinv hadd).elim

theorem loadLines_taken (h : GoodState (p, db)) {pieces : List Str}
    (htaken : ∀ piece ∈ pieces, ∀ r, lineRecord piece = some r → KeyTaken (p, db) r)
    (clock : ℕ → Int64) (a : Alloc) (i : ℕ) :
    (loadLines p db clock a i pieces).2 = (p, db) ∧
      ∀ id, .added id ∉ (loadLines p db clock a i pieces).1 := by
  induction pieces generalizing i with
  | nil => exact ⟨rfl, fun id => List.not_mem_nil⟩
  | cons piece pieces ih =>
    obtain ⟨hsame, hno⟩ := loadLine_taken h (htaken piece (List.mem_cons_self ..)) (clock i)
      (a.skip (20 * i))
    obtain ⟨hrest, hnone⟩ := ih (fun q hq => htaken q (List.mem_cons_of_mem _ hq)) (i + 1)
    simp only [loadLines, hsame]
    refine ⟨hrest, fun id hid => ?_⟩
    rcases List.mem_cons.mp hid with hid | hid
    · exact hno id hid.symm
    · exact hnone id hid

theorem AddResult.outcome_adds (r : AddResult) : r.outcome.out.adds = 1 := by
  unfold AddResult.outcome
  split <;> rfl

/-- With memory for it, a well-formed line leaves its keys taken. -/
theorem loadLine_takes {n : ℕ} (h : GoodAfter n (p, db)) (hi : p.initialized = true) (piece : Str)
    (now : Int64) (hn : n + (loadLine p db piece now Alloc.all).1.out.adds ≤ 2 ^ 64) :
    let x := loadLine p db piece now Alloc.all
    GoodAfter (n + x.1.out.adds) x.2 ∧ x.2.1.initialized = true ∧
      (∀ e ∈ dbContents (p, db), e ∈ dbContents x.2) ∧
      ∀ r, lineRecord piece = some r → KeyTaken x.2 r := by
  intro x
  have hgood : GoodAfter (n + x.1.out.adds) x.2 := by
    obtain ⟨-, listed, live, bound, hinv, hb, -⟩ := h.parts
    obtain ⟨listed', live', bound', hinv', -, hhi, -⟩ := loadLine_step p hinv piece now Alloc.all
    exact .of_good (h.good.loadLine piece now Alloc.all) hinv' (by simp only [x]; omega)
  have hinit := (SStrPool.Keeps.loadLine p db piece now Alloc.all h.1).2.2.trans hi
  refine ⟨hgood, hinit, ?_⟩
  cases hline : lineRecord piece with
  | none =>
    have hsame : x.2 = (p, db) := loadLine_other hline p db now Alloc.all
    rw [hsame]
    exact ⟨fun e he => he, fun r hr => by cases hr⟩
  | some r =>
    obtain ⟨h1, h2, h3, h4, h5⟩ := lineRecord_valid hline
    have hone : x.1.out.adds = 1 := by
      simp only [x]
      rw [loadLine_eq hline]
      exact AddResult.outcome_adds _
    have hadd := (h.add (by simp only [x] at hone; omega) (some r.imsi) (some r.msisdn)
      (some r.name) (some r.region) (some r.plan) r.status true now Alloc.all).2
    have hok := fun hnew => h.add_ok (by simp only [x] at hone; omega) hi h1 h2 h3 h4 h5 hnew
      r.status now
    simp only [x]
    rw [loadLine_record hline]
    generalize subdbAdd p db (some r.imsi) (some r.msisdn) (some r.name) (some r.region)
      (some r.plan) r.status true now Alloc.all = y at hadd hok ⊢
    cases hadd with
    | kept hst hsame =>
      refine ⟨fun e he => hsame.mem_iff.mpr he, fun r' hr' hnew => hst (hok ?_)⟩
      cases hr'
      exact hnew.perm hsame
    | @added id i m t g q hst hid hargs hnew hmore =>
      refine ⟨fun e he => hmore.mem_iff.mpr (List.mem_cons_of_mem _ he), fun r' hr' hno => ?_⟩
      cases hr'
      obtain ⟨him, -⟩ := hargs
      cases him
      exact (hno _ (hmore.mem_iff.mpr (List.mem_cons_self ..))).1 rfl

theorem loadLines_takes {n : ℕ} (h : GoodAfter n (p, db)) (hi : p.initialized = true)
    (clock : ℕ → Int64) (i : ℕ) (pieces : List Str)
    (hn : n + (DbOut.total ((loadLines p db clock Alloc.all i pieces).1.map
      LineOutcome.out)).adds ≤ 2 ^ 64) :
    let x := loadLines p db clock Alloc.all i pieces
    GoodState x.2 ∧ (∀ e ∈ dbContents (p, db), e ∈ dbContents x.2) ∧
      ∀ piece ∈ pieces, ∀ r, lineRecord piece = some r → KeyTaken x.2 r := by
  induction pieces generalizing n p db i with
  | nil => exact ⟨h.good, fun e he => he, fun piece hp => absurd hp List.not_mem_nil⟩
  | cons piece pieces ih =>
    have hcount : (DbOut.total ((loadLines p db clock Alloc.all i (piece :: pieces)).1.map
        LineOutcome.out)).adds = (loadLine p db piece (clock i) Alloc.all).1.out.adds +
        (DbOut.total ((loadLines (loadLine p db piece (clock i) Alloc.all).2.1
          (loadLine p db piece (clock i) Alloc.all).2.2 clock Alloc.all (i + 1) pieces).1.map
            LineOutcome.out)).adds := rfl
    rw [hcount] at hn
    have hline := loadLine_takes h hi piece (clock i) (by omega)
    simp only [loadLines, Alloc.all_skip]
    generalize loadLine p db piece (clock i) Alloc.all = x at hn hline ⊢
    obtain ⟨hgood, hinit, hsub, htaken⟩ := hline
    rw [← Nat.add_assoc] at hn
    obtain ⟨hgood', hsub', htaken'⟩ := ih hgood hinit (i + 1) hn
    refine ⟨hgood', fun e he => hsub' e (hsub e he), fun q hq r hr => ?_⟩
    rcases List.mem_cons.mp hq with rfl | hq
    · exact (htaken r hr).mono hsub'
    · exact htaken' q hq r hr

end Lines

/-! ### A pool that is not open -/

theorem sstrIntern_closed {p : SStrPool} (hi : p.initialized = false) (text : Str) (a : Alloc) :
    ∃ st, st ≠ .ok ∧ sstrIntern p text a = (.error st, p) :=
  ⟨.errInternal, fun h => (by cases h), by simp only [sstrIntern, hi]; rfl⟩

/-- Nothing was added and no id was used. -/
def Untouched (db : SubscriberDb) (base : ℕ) (live : List Block) (bound : ℕ) (db' : SubscriberDb) :
    Prop :=
  (∃ listed', DbInv db' base listed' live bound) ∧ db'.nextId = db.nextId ∧
    ∀ b ∈ live, db'.mem b = db.mem b

section Closed

variable {p : SStrPool} (hi : p.initialized = false) {db : SubscriberDb} {base : ℕ}
  {listed live : List Block} {bound : ℕ}

include hi

theorem loadLine_closed (h : DbInv db base listed live bound) (piece : Str) (now : Int64)
    (a : Alloc) :
    let x := loadLine p db piece now a
    x.2.1 = p ∧ (∀ id, x.1 ≠ .added id) ∧ Untouched db base live bound x.2.2 := by
  intro x
  cases hline : lineRecord piece with
  | none =>
    have hsame : x.2 = (p, db) := loadLine_other hline p db now a
    rw [hsame]
    exact ⟨rfl, fun id hid => loadLine_added hid hline, ⟨listed, h⟩, rfl, fun b hb => rfl⟩
  | some r =>
    obtain ⟨hst, hstrs, hnext⟩ := subdbAdd_unread (fun text => sstrIntern_closed hi text (a.skip 2))
      db (some r.imsi) (some r.msisdn) (some r.name) (some r.region) (some r.plan) r.status true now
    have hcases := subdbAdd_cases p h (some r.imsi) (some r.msisdn) (some r.name) (some r.region)
      (some r.plan) r.status true now a
    simp only [x]
    rw [loadLine_eq hline]
    generalize subdbAdd p db (some r.imsi) (some r.msisdn) (some r.name) (some r.region)
      (some r.plan) r.status true now a = y at hst hstrs hnext hcases ⊢
    refine ⟨hstrs, fun id hid => ?_, ?_⟩
    · unfold AddResult.outcome at hid
      split at hid
      · exact hst ‹_›
      · cases hid
    · rcases hcases with ⟨-, -, hlo, hhi, hinv, hmem⟩ | ⟨_, _, _, _, _, -, -, -, -, -, hd⟩
      · -- the counter is the old one, so that it did not move
        have heq := hinv.next.symm.trans (hnext.trans h.next)
        have hbound := congrArg UInt64.toNat heq
        rw [UInt64.toNat_ofNat', UInt64.toNat_ofNat'] at hbound
        rename_i listed' bound'
        obtain rfl : bound' = bound := by omega
        exact ⟨⟨listed', hinv⟩, hnext, hmem⟩
      · cases hd with
        | intro _ _ hok => exact absurd hok hst

theorem loadLines_closed (h : DbInv db base listed live bound) (clock : ℕ → Int64) (a : Alloc)
    (i : ℕ) (pieces : List Str) :
    let x := loadLines p db clock a i pieces
    x.2.1 = p ∧ (∀ id, .added id ∉ x.1) ∧ Untouched db base live bound x.2.2 := by
  induction pieces generalizing db listed i with
  | nil => exact ⟨rfl, fun id => List.not_mem_nil, ⟨listed, h⟩, rfl, fun b hb => rfl⟩
  | cons piece pieces ih =>
    obtain ⟨hp, hno, ⟨listed', hinv⟩, hnext, hmem⟩ :=
      loadLine_closed hi h piece (clock i) (a.skip (20 * i))
    simp only [loadLines]
    generalize loadLine p db piece (clock i) (a.skip (20 * i)) = x at hp hno hinv hnext hmem ⊢
    obtain ⟨o, p', db'⟩ := x
    obtain rfl : p' = p := hp
    obtain ⟨hp', hnone, hinv', hnext', hmem'⟩ := ih hinv (i + 1)
    refine ⟨hp', fun id hid => ?_, hinv', hnext'.trans hnext, fun b hb => ?_⟩
    · rcases List.mem_cons.mp hid with hid | hid
      · exact hno id hid.symm
      · exact hnone id hid
    · rw [hmem' b hb, hmem b hb]

end Closed

/-! ### Two loads -/

/-- The file decides whether there are lines to go through, and which. -/
theorem subdbLoadCsv_cases (path : Option Str) (files : Str → Option Str) :
    (∃ st, ∀ p db clock a, subdbLoadCsv p db path files clock a = ⟨st, [], p, db⟩) ∨
      ∃ pieces, ∀ p db clock a, subdbLoadCsv p db path files clock a =
        ⟨.ok, (loadLines p db clock a 0 pieces).1, (loadLines p db clock a 0 pieces).2.1,
          (loadLines p db clock a 0 pieces).2.2⟩ := by
  cases path with
  | none => exact Or.inl ⟨_, fun _ _ _ _ => rfl⟩
  | some path =>
    cases hf : files path with
    | none => exact Or.inl ⟨.errIo, fun _ _ _ _ => by simp only [subdbLoadCsv, hf]⟩
    | some content =>
      cases hl : fgetsAll (smMaxLineLen - 2) content with
      | nil => exact Or.inl ⟨.errCorruptData, fun _ _ _ _ => by simp only [subdbLoadCsv, hf, hl]⟩
      | cons header pieces =>
        by_cases hhead : (cString header).take 14 ≠ lit "subscriber_id,"
        · exact Or.inl ⟨.errCorruptData, fun _ _ _ _ => by
            simp only [subdbLoadCsv, hf, hl, if_pos hhead]⟩
        · exact Or.inr ⟨pieces, fun _ _ _ _ => by simp only [subdbLoadCsv, hf, hl, if_neg hhead]⟩

theorem KeepsRecords.refl (p : SStrPool) (db : SubscriberDb) : KeepsRecords p db p db :=
  ⟨⟨[], List.Perm.refl _⟩, fun _ _ _ h => h, fun _ _ _ h => h, fun _ _ _ h => h⟩

/-- The second of two loads finds nothing to add. -/
structure AddsNothing (r r' : LoadResult) : Prop where
  lines : ∀ id, .added id ∉ r'.lines
  nextId : r'.db.nextId = r.db.nextId
  records : (contents r'.strs r'.db).Perm (contents r.strs r.db)
  keeps : KeepsRecords r.strs r.db r'.strs r'.db

theorem AddsNothing.of_same {r r' : LoadResult} (hlines : ∀ id, .added id ∉ r'.lines)
    (hsame : (r'.strs, r'.db) = (r.strs, r.db)) : AddsNothing r r' := by
  obtain ⟨hstrs, hdb⟩ := Prod.mk.inj hsame
  refine ⟨hlines, by rw [hdb], by rw [hstrs, hdb], ?_⟩
  rw [hstrs, hdb]
  exact .refl _ _

section Twice

variable {n : ℕ} {p : SStrPool} {db : SubscriberDb} (h : GoodAfter n (p, db)) (path : Option Str)
  (files : Str → Option Str) (clock clock' : ℕ → Int64) (a : Alloc)
  (hn : n + (DbOut.total ((subdbLoadCsv p db path files clock Alloc.all).lines.map
    LineOutcome.out)).adds ≤ 2 ^ 64)

include h hn

theorem load_keeps :
    let r := subdbLoadCsv p db path files clock Alloc.all
    KeepsRecords p db r.strs r.db := by
  obtain ⟨hp, listed, live, bound, hinv, hb, hgood⟩ := h.parts
  obtain ⟨new, listed', bound', hinv', hb', hmem⟩ :=
    subdbLoadCsv_grown p hinv path files clock Alloc.all
  have he := (SStrPool.Keeps.subdbLoadCsv p db path files clock Alloc.all hp).2.1
  exact hinv.keepsRecords hinv' (by omega) (by omega) he hgood hmem

theorem load_again_open (hi : p.initialized = true) :
    let r := subdbLoadCsv p db path files clock Alloc.all
    let r' := subdbLoadCsv r.strs r.db path files clock' a
    (∀ id, .added id ∉ r'.lines) ∧ (r'.strs, r'.db) = (r.strs, r.db) := by
  rcases subdbLoadCsv_cases path files with ⟨st, he⟩ | ⟨pieces, he⟩
  · simp only [he]
    exact ⟨fun id => List.not_mem_nil, trivial⟩
  · simp only [he] at hn ⊢
    obtain ⟨hgood, -, htaken⟩ := loadLines_takes h hi clock 0 pieces hn
    obtain ⟨hsame, hnone⟩ := loadLines_taken hgood htaken clock' a 0
    exact ⟨hnone, hsame⟩

theorem load_again_closed (hi : p.initialized = false) :
    let r := subdbLoadCsv p db path files clock Alloc.all
    AddsNothing r (subdbLoadCsv r.strs r.db path files clock' a) := by
  rcases subdbLoadCsv_cases path files with ⟨st, he⟩ | ⟨pieces, he⟩
  · simp only [he]
    exact .of_same (fun id => List.not_mem_nil) rfl
  · obtain ⟨hp, listed, live, bound, hinv, hb, hgood⟩ := h.parts
    obtain ⟨hstrs, -, ⟨listed1, hinv1⟩, -, hmem1⟩ :=
      loadLines_closed hi hinv clock Alloc.all 0 pieces
    simp only [he]
    generalize loadLines p db clock Alloc.all 0 pieces = x at hstrs hinv1 hmem1 ⊢
    obtain ⟨os, p1, db1⟩ := x
    obtain rfl : p1 = p := hstrs
    obtain ⟨hstrs2, hnone, ⟨listed2, hinv2⟩, hnext, hmem2⟩ :=
      loadLines_closed hi hinv1 clock' a 0 pieces
    have hgood1 : ∀ b ∈ live, GoodRecord p1 (db1.mem b) := fun b hm => by
      rw [hmem1 b hm]
      exact hgood b hm
    have hext : p1.Extends (loadLines p1 db1 clock' a 0 pieces).2.1 := by
      rw [hstrs2]
      exact SStrPool.Extends.refl p1
    refine ⟨hnone, hnext, contents_kept hinv1.indexed hinv2.indexed hext hgood1 hmem2, ?_⟩
    exact hinv1.keepsRecords (show DbInv _ 1 listed2 ([] ++ live) bound from hinv2) (by omega)
      (by omega) hext hgood1 hmem2

end Twice

theorem dbAdds_concat (s : DbState) (calls : List DbOp) (op : DbOp) :
    (dbAdds s (calls ++ [op])).adds =
      (dbAdds s calls).adds + (dbStep (dbFinal s calls) op).2.adds := by
  induction calls generalizing s with
  | nil => simp [dbAdds, Machine.outputs, DbOut.total, DbOut.plus, DbOut.zero, dbFinal]
  | cons c calls ih =>
    have hrest := ih (dbStep s c).1
    simp only [List.cons_append, dbAdds_cons, DbOut.plus, hrest, Nat.add_assoc]
    rfl

theorem GoodAfter.run {p : SStrPool} (hp : p.WF) {a : Alloc} {db : SubscriberDb}
    (hdb : subdbCreate a = .ok db) (calls : List DbOp) :
    GoodAfter (dbAdds (p, db) calls).adds (dbFinal (p, db) calls) := by
  have hgood : GoodState (dbFinal (p, db) calls) :=
    Reachable.good ⟨p, a, db, calls, hp, hdb, rfl⟩
  have h0 : DbInv (p, db).2 1 [] [] 1 := subdbCreate_inv hdb
  obtain ⟨listed, live, bound, hinv, -, hhi, -⟩ := dbFinal_inv h0 calls
  exact .of_good hgood hinv (by omega)

/-- Unless the counter of ids comes round before the end of the first load: it keeps
every record that was there, and a second load of the same file adds nothing. -/
theorem load_twice {p : SStrPool} (hp : p.WF) {a₀ : Alloc} {db : SubscriberDb}
    (hdb : subdbCreate a₀ = .ok db) (calls : List DbOp) (path : Option Str)
    (files : Str → Option Str) (clock clock' : ℕ → Int64) (a : Alloc)
    (hfew : (dbAdds (p, db) (calls ++ [.loadCsv path files clock Alloc.all])).adds ≤ 2 ^ 64) :
    let s := dbFinal (p, db) calls
    let r := subdbLoadCsv s.1 s.2 path files clock Alloc.all
    let r' := subdbLoadCsv r.strs r.db path files clock' a
    KeepsRecords s.1 s.2 r.strs r.db ∧ AddsNothing r r' ∧
      (s.1.initialized = true → (r'.strs, r'.db) = (r.strs, r.db)) := by
  intro s r r'
  have h : GoodAfter (dbAdds (p, db) calls).adds (s.1, s.2) := .run hp hdb calls
  rw [dbAdds_concat] at hfew
  refine ⟨load_keeps h path files clock hfew, ?_, fun hi =>
    (load_again_open h path files clock clock' a hfew hi).2⟩
  cases hi : s.1.initialized with
  | true =>
    obtain ⟨hnone, hsame⟩ := load_again_open h path files clock clock' a hfew hi
    exact .of_same hnone hsame
  | false => exact load_again_closed h path files clock clock' a hfew hi

theorem load_twice_one : ∃ db, subdbCreate Alloc.all = .ok db ∧
    let s := dbFinal (SStrPool.start, db) [.strings (.init 16 Alloc.all)]
    let r := subdbLoadCsv s.1 s.2 (some subscribersPath) (fun _ => some oneLineFile) (fun _ => 5)
      Alloc.all
    let r' := subdbLoadCsv r.strs r.db (some subscribersPath) (fun _ => some oneLineFile)
      (fun _ => 9) Alloc.all
    r.lines = [.added 1] ∧ KeepsRecords s.1 s.2 r.strs r.db ∧ AddsNothing r r' ∧
      (r'.strs, r'.db) = (r.strs, r.db) := by
  have hrun : ∃ db, subdbCreate Alloc.all = .ok db ∧
      (subdbLoadCsv (dbFinal (SStrPool.start, db) [.strings (.init 16 Alloc.all)]).1
        (dbFinal (SStrPool.start, db) [.strings (.init 16 Alloc.all)]).2 (some subscribersPath)
        (fun _ => some oneLineFile) (fun _ => 5) Alloc.all).lines = [.added 1] ∧
      (dbAdds (SStrPool.start, db) ([.strings (.init 16 Alloc.all)] ++
        [.loadCsv (some subscribersPath) (fun _ => some oneLineFile) (fun _ => 5)
          Alloc.all])).adds ≤ 2 ^ 64 :=
    ⟨_, rfl, by decide +kernel, by decide +kernel⟩
  obtain ⟨db, hdb, hlines, hfew⟩ := hrun
  have hload := load_twice SStrPool.start_wf hdb [.strings (.init 16 Alloc.all)]
    (some subscribersPath) (fun _ => some oneLineFile) (fun _ => 5) (fun _ => 9) Alloc.all hfew
  exact ⟨db, hdb, hlines, hload.1, hload.2.1, hload.2.2 rfl⟩

def lateFile : Str := csvHeader ++ lit "1,200000,2000000,A,A,A,ACTIVE,0,0\n"

/-- When the counter has come round, a load takes the record with the next id out of
`by_id`. -/
theorem load_limits : ∃ db, subdbCreate Alloc.all = .ok db ∧ ∃ calls,
    let s := dbFinal (SStrPool.start, db) calls
    let r := subdbLoadCsv s.1 s.2 (some subscribersPath) (fun _ => some lateFile) (fun _ => 0)
      Alloc.all
    ¬ KeepsRecords s.1 s.2 r.strs r.db := by
  obtain ⟨db, hdb⟩ : ∃ db, subdbCreate Alloc.all = .ok db := ⟨_, rfl⟩
  have hrun : ∀ n, 2 + n = 1 + 2 ^ 64 →
      let s := dbFinal (SStrPool.start, db) (wrapCalls n)
      let r := subdbLoadCsv s.1 s.2 (some subscribersPath) (fun _ => some lateFile) (fun _ => 0)
        Alloc.all
      ¬ KeepsRecords s.1 s.2 r.strs r.db := by
    intro n hn s r hkeep
    obtain ⟨b, hone, hid⟩ := wrapCalls_one hdb n
    rw [hn] at hone
    obtain ⟨-, hbefore, hafter⟩ := hone.search_unlists hid .active 0 (a := Alloc.all) fun _ _ => rfl
    have hpieces : fgetsAll (smMaxLineLen - 2) lateFile =
        [csvHeader, lit "1,200000,2000000,A,A,A,ACTIVE,0,0\n"] := by decide +kernel
    have hline : lineRecord (lit "1,200000,2000000,A,A,A,ACTIVE,0,0\n") = some
        ⟨lit "200000", lit "2000000", lit "A", lit "A", lit "A", .active⟩ := by decide +kernel
    have hload : (r.strs, r.db) = (loadLine s.1 s.2 (lit "1,200000,2000000,A,A,A,ACTIVE,0,0\n") 0
        Alloc.all).2 := subdbLoadCsv_lines rfl hpieces (by decide) (fun _ => 0) Alloc.all
    rw [loadLine_record hline] at hload
    obtain ⟨hstrs, hdb'⟩ := Prod.mk.inj hload
    have hfound := hkeep.byId 1 Alloc.all _ hbefore
    rw [hstrs, hdb', hafter] at hfound
    cases hfound
  exact ⟨db, hdb, _, hrun (2 ^ 64 - 1) (by omega)⟩

end SubscriberMgmt
