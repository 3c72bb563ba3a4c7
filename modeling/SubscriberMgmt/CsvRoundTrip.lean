import SubscriberMgmt.CsvLine
import Mathlib.Data.Fintype.Card

/-!
# Saving a database and loading the file

Each line of a saved file becomes one record of the loaded database, with the
next id of that database and the time of the load.
-/

namespace SubscriberMgmt
open CText

theorem csvLines_eq (p : SStrPool) (db : SubscriberDb) :
    csvLines p db = (dbRecords db).map (csvLine p) := by
  simp only [csvLines, dbRecords, List.map_map, Function.comp_def]

/-! ### The records of the source -/

/-- Good records, no two of them with the same IMSI or MSISDN. -/
structure Savable (p : SStrPool) (ss : List Subscriber) : Prop where
  good : ∀ s ∈ ss, GoodRecord p s
  imsi : ss.Pairwise fun s s' => s.imsi.chars ≠ s'.imsi.chars
  msisdn : ss.Pairwise fun s s' => s.msisdn.chars ≠ s'.msisdn.chars

theorem Savable.tail {p : SStrPool} {s : Subscriber} {ss : List Subscriber}
    (h : Savable p (s :: ss)) : Savable p ss :=
  ⟨fun x hx => h.good x (List.mem_cons_of_mem _ hx), (List.pairwise_cons.mp h.imsi).2,
    (List.pairwise_cons.mp h.msisdn).2⟩

theorem ids_length {ids : List UInt64} (h : ids.Nodup) : ids.length ≤ 2 ^ 64 := by
  have hinj : Function.Injective UInt64.toFin := fun x y hxy => UInt64.toFin_inj.mp hxy
  have hcard := (h.map hinj).length_le_card
  rwa [List.length_map, Fintype.card_fin] at hcard

theorem Reachable.savable {p : SStrPool} {db : SubscriberDb} (h : Reachable (p, db)) :
    Savable p (dbRecords db) ∧ (dbRecords db).length ≤ 2 ^ 64 := by
  obtain ⟨-, base, listed, live, bound, hinv, hgood⟩ := h.good
  have hvalues := hinv.indexed.byId.values
  have hlive : ∀ b ∈ db.byId.nodes.map HtNode.value, b ∈ live := fun b hb =>
    hinv.indexed.sub b (hvalues.mem_iff.mp hb)
  have hid : (db.byId.nodes.map HtNode.value).Pairwise
      fun b c => (db.mem b).subscriberId ≠ (db.mem c).subscriberId :=
    (hvalues.pairwise_iff fun hne => Ne.symm hne).mpr hinv.indexed.byId.distinct
  have hkeys : ∀ {f : Block → Str}, (∀ b ∈ live, ∀ c ∈ live, f b = f c → b = c) →
      (db.byId.nodes.map HtNode.value).Pairwise fun b c => f b ≠ f c := fun {f} hf =>
    hid.imp_of_mem fun {b c} hb hc hne hfe =>
      hne (by rw [hf b (hlive b hb) c (hlive c hc) hfe])
  have hrec : dbRecords db = (db.byId.nodes.map HtNode.value).map db.mem := by
    simp only [dbRecords, List.map_map, Function.comp_def]
  refine ⟨⟨fun s hs => ?_, ?_, ?_⟩, ?_⟩
  · rw [hrec] at hs
    obtain ⟨b, hb, rfl⟩ := List.mem_map.mp hs
    exact hgood b (hlive b hb)
  · rw [hrec, List.pairwise_map]
    exact hkeys fun b hb c hc => hinv.indexed.byImsi.inj hb hc
  · rw [hrec, List.pairwise_map]
    exact hkeys fun b hb c hc => hinv.indexed.byMsisdn.inj hb hc
  · have hnodup : ((dbRecords db).map Subscriber.subscriberId).Nodup := by
      rw [hrec, List.map_map]
      exact List.pairwise_map.mpr hid
    have hlen := ids_length hnodup
    rwa [List.length_map] at hlen

/-! ### Loading one line -/

/-- `c` is a copy of `s` with a new id, made at `now`. -/
structure CopyOf (p : SStrPool) (s : Subscriber) (q : SStrPool) (id : UInt64) (now : Int64)
    (c : Subscriber) : Prop where
  id : c.subscriberId = id
  createdAt : c.createdAt = now
  updatedAt : c.updatedAt = now
  imsi : c.imsi = s.imsi
  msisdn : c.msisdn = s.msisdn
  name : q.TextIs c.name (sstrCstr p s.name)
  region : q.TextIs c.region (sstrCstr p s.region)
  plan : q.TextIs c.plan (sstrCstr p s.plan)
  status : c.status = subStatusFromStr (subStatusToStr s.status)

theorem CopyOf.mono {p q q' : SStrPool} {s c : Subscriber} {id : UInt64} {now : Int64}
    (h : CopyOf p s q id now c) (he : q.Extends q') : CopyOf p s q' id now c :=
  { h with name := h.name.mono he, region := h.region.mono he, plan := h.plan.mono he }

theorem CopyOf.fields {p q : SStrPool} {s c : Subscriber} {id : UInt64} {now : Int64}
    (h : CopyOf p s q id now c) (hst : s.status.IsEnumerator) : c.fields q = s.fields p := by
  simp only [Subscriber.fields, h.imsi, h.msisdn, h.name.cstr, h.region.cstr, h.plan.cstr,
    h.status, subStatus_round_trip hst]

def NewKeys (t : SubscriberDb) (live : List Block) (s : Subscriber) : Prop :=
  ∀ b ∈ live, (t.mem b).imsi.chars ≠ s.imsi.chars ∧ (t.mem b).msisdn.chars ≠ s.msisdn.chars

section Load

variable {p q : SStrPool} {t : SubscriberDb} {base : ℕ} {listed live : List Block} {bound : ℕ}

theorem loadLine_copy (hq : q.WF) (hi : q.initialized = true)
    (ht : DbInv t base listed live bound) (hbound : bound < base + 2 ^ 64) {s : Subscriber}
    (hs : GoodRecord p s) (hnew : NewKeys t live s) (now : Int64) :
    let r := loadLine q t (csvLine p s) now Alloc.all
    r.1 = .added (UInt64.ofNat bound) ∧ (r.2.1.WF ∧ q.Extends r.2.1 ∧ r.2.1.initialized = true) ∧
      ∃ b ∉ live, DbInv r.2.2 base (b :: listed) (b :: live) (bound + 1) ∧
        CopyOf p s r.2.1 (UInt64.ofNat bound) now (r.2.2.mem b) ∧
        ∀ c ∈ live, r.2.2.mem c = t.mem c := by
  have hkeep := SStrPool.Keeps.loadLine q t (csvLine p s) now Alloc.all hq
  have haddable : Addable t live s.imsi.chars s.msisdn.chars (sstrCstr p s.name)
      (sstrCstr p s.region) (sstrCstr p s.plan) :=
    ⟨hs.imsi, hs.msisdn, hs.name.cstr_valid, hs.region.cstr_valid, hs.plan.cstr_valid,
      fun b hb => (hnew b hb).1, fun b hb => (hnew b hb).2⟩
  have hline := hs.loadLine q t now Alloc.all
  simp only [subdbAdd_eq q ht.indexed haddable] at hline
  rw [hline] at hkeep ⊢
  rcases addRecord_reaches ht haddable hq hi _ now (a := Alloc.all) fun _ _ => rfl with
    ⟨-, hd⟩ | ⟨hno | hno, -⟩
  · cases hd with
    | @intro b _ _ _ _ hb hst' hid htexts hinv hmem =>
      obtain ⟨t1, t2, t3⟩ := internTexts_ok hq htexts
      refine ⟨?_, ⟨hkeep.1, hkeep.2.1, hkeep.2.2.trans hi⟩, b, hb, hinv, ?_, fun c hc => ?_⟩
      · simp only [AddResult.outcome, hst', hid, Option.getD_some, ht.next]
      · simp only [hmem, Function.update_self]
        exact ⟨ht.next, rfl, rfl, CharField.ext (CharField.copy_chars s.imsi.fits),
          CharField.ext (CharField.copy_chars s.msisdn.fits), t1, t2, t3, rfl⟩
      · simp only [hmem]
        exact Function.update_of_ne (ne_of_mem_of_not_mem hc hb) _ _
  · exact absurd ⟨rfl, rfl, rfl⟩ hno
  · omega

/-! ### Loading the lines of a file -/

/-- The blocks `bs` hold copies of the records `ss`, with consecutive ids from
`bound` on and the times of the lines from `i` on. -/
inductive LoadedFrom (p q : SStrPool) (mem : Block → Subscriber) (clock : ℕ → Int64) :
    ℕ → ℕ → List Subscriber → List Block → Prop
  | nil (i bound : ℕ) : LoadedFrom p q mem clock i bound [] []
  | cons {i bound : ℕ} {s : Subscriber} {ss : List Subscriber} {b : Block} {bs : List Block}
      (head : CopyOf p s q (UInt64.ofNat bound) (clock i) (mem b))
      (tail : LoadedFrom p q mem clock (i + 1) (bound + 1) ss bs) :
      LoadedFrom p q mem clock i bound (s :: ss) (b :: bs)

theorem LoadedFrom.fields {mem : Block → Subscriber} {clock : ℕ → Int64} {i bound : ℕ}
    {ss : List Subscriber} {bs : List Block} (h : LoadedFrom p q mem clock i bound ss bs)
    (hst : ∀ s ∈ ss, s.status.IsEnumerator) :
    bs.map (fun b => (mem b).fields q) = ss.map (Subscriber.fields p) := by
  induction h with
  | nil => rfl
  | cons head _ ih =>
    rw [List.map_cons, List.map_cons, head.fields (hst _ (List.mem_cons_self ..)),
      ih fun s hs => hst s (List.mem_cons_of_mem _ hs)]

theorem LoadedFrom.get {mem : Block → Subscriber} {clock : ℕ → Int64} {i bound : ℕ}
    {ss : List Subscriber} {bs : List Block} (h : LoadedFrom p q mem clock i bound ss bs) {k : ℕ}
    {s : Subscriber} (hk : ss[k]? = some s) :
    ∃ b ∈ bs, CopyOf p s q (UInt64.ofNat (bound + k)) (clock (i + k)) (mem b) := by
  induction h generalizing k with
  | nil => simp at hk
  | @cons i bound _ _ _ _ head _ ih =>
    cases k with
    | zero =>
      rw [List.getElem?_cons_zero] at hk
      cases hk
      exact ⟨_, List.mem_cons_self .., head⟩
    | succ k =>
      obtain ⟨b, hb, hc⟩ := ih hk
      refine ⟨b, List.mem_cons_of_mem _ hb, ?_⟩
      rwa [show bound + (k + 1) = bound + 1 + k by omega, show i + (k + 1) = i + 1 + k by omega]

theorem loadLines_copies (hq : q.WF) (hi : q.initialized = true)
    (ht : DbInv t base listed live bound) {ss : List Subscriber} (hss : Savable p ss)
    (hbound : bound + ss.length ≤ base + 2 ^ 64) (hnew : ∀ s ∈ ss, NewKeys t live s)
    (clock : ℕ → Int64) (i : ℕ) :
    let r := loadLines q t clock Alloc.all i (ss.map (csvLine p))
    (r.1.length = ss.length ∧ ∀ o ∈ r.1, ∃ id, o = .added id) ∧ q.Extends r.2.1 ∧
      ∃ bs, DbInv r.2.2 base (bs.reverse ++ listed) (bs.reverse ++ live) (bound + ss.length) ∧
        LoadedFrom p r.2.1 r.2.2.mem clock i bound ss bs ∧
        ∀ c ∈ live, r.2.2.mem c = t.mem c := by
  induction ss generalizing q t listed live bound i with
  | nil => exact ⟨⟨rfl, by simp [loadLines]⟩, SStrPool.Extends.refl q, [], ht, .nil i bound,
      fun _ _ => rfl⟩
  | cons s ss ih =>
    rw [List.length_cons] at hbound
    have hs := hss.good s (List.mem_cons_self ..)
    obtain ⟨hout, ⟨hqwf, he, hi'⟩, b, hb, hinv, hc, hold⟩ :=
      loadLine_copy hq hi ht (by omega) hs (hnew s (List.mem_cons_self ..)) (clock i)
    simp only [loadLines, List.map_cons, Alloc.all_skip]
    generalize loadLine q t (csvLine p s) (clock i) Alloc.all = r at hout hqwf he hi' hinv hc hold ⊢
    -- the new record has other keys than the lines to come
    have hnew' : ∀ s' ∈ ss, NewKeys r.2.2 (b :: live) s' := by
      intro s' hs' c hx
      rcases List.mem_cons.mp hx with rfl | hx
      · rw [hc.imsi, hc.msisdn]
        exact ⟨(List.pairwise_cons.mp hss.imsi).1 s' hs', (List.pairwise_cons.mp hss.msisdn).1 s' hs'⟩
      · rw [hold c hx]
        exact hnew s' (List.mem_cons_of_mem _ hs') c hx
    obtain ⟨⟨hlen, hall⟩, he', bs, hinv', hload, hold'⟩ :=
      ih hqwf hi' hinv hss.tail (by omega) hnew' (i + 1)
    refine ⟨⟨by simp only [List.length_cons, hlen], fun o ho => ?_⟩, he.trans he', b :: bs, ?_, ?_,
      fun c hx => ?_⟩
    · rcases List.mem_cons.mp ho with rfl | ho
      · exact ⟨_, hout⟩
      · exact hall o ho
    · simp only [List.reverse_cons, List.append_assoc, List.singleton_append, List.length_cons]
      rwa [show bound + (ss.length + 1) = bound + 1 + ss.length by omega]
    · refine .cons ?_ hload
      rw [hold' b (List.mem_cons_self ..)]
      exact hc.mono he'
    · rw [hold' c (List.mem_cons_of_mem _ hx), hold c hx]

end Load

theorem loadCsv_saved {p q : SStrPool} {db t : SubscriberDb} {bound : ℕ} (hs : Reachable (p, db))
    (hq : q.WF) (hi : q.initialized = true) (ht : DbInv t bound [] [] bound) {path : Str}
    {files : Str → Option Str} (hfile : files path = some (csvFile p db)) (clock : ℕ → Int64) :
    let r := subdbLoadCsv q t (some path) files clock Alloc.all
    r.status = .ok ∧ (r.lines.length = (dbRecords db).length ∧ ∀ o ∈ r.lines, ∃ id, o = .added id) ∧
      ∃ bs, DbInv r.db bound bs.reverse bs.reverse (bound + (dbRecords db).length) ∧
        LoadedFrom p r.strs r.db.mem clock 0 bound (dbRecords db) bs := by
  obtain ⟨hsav, hlen⟩ := hs.savable
  have hpieces : fgetsAll (smMaxLineLen - 2) (csvFile p db) =
      csvHeader :: (dbRecords db).map (csvLine p) := by
    rw [← csvLines_eq]
    exact fgetsAll_csvFile fun n hn => hsav.good _ (List.mem_map_of_mem hn)
  have hhead : (cString csvHeader).take 14 = lit "subscriber_id," := by decide
  obtain ⟨hlines, -, bs, hinv, hload, -⟩ := loadLines_copies hq hi ht hsav (by omega)
    (fun s _ b hb => absurd hb (List.not_mem_nil)) clock 0
  simp only [List.append_nil] at hinv
  simp only [subdbLoadCsv, hfile, hpieces, hhead, ne_eq, not_true_eq_false, if_false]
  exact ⟨trivial, hlines, bs, hinv, hload⟩

/-! ### The business fields -/

structure SubscriberDb.Empty (db : SubscriberDb) : Prop where
  byId : db.byId.nodes = []
  byImsi : db.byImsi.nodes = []
  byMsisdn : db.byMsisdn.nodes = []

theorem Reachable.restart {q : SStrPool} {t : SubscriberDb} (h : Reachable (q, t))
    (he : t.Empty) : q.WF ∧ ∃ bound, DbInv t bound [] [] bound := by
  obtain ⟨hq, base, listed, live, bound, hinv, -⟩ := h.good
  have hlisted : listed = [] := by
    have hv := hinv.indexed.byId.values
    rw [he.byId] at hv
    exact hv.nil_eq.symm
  have hlive : live = [] := by
    have hv := hinv.indexed.byImsi.values
    rw [he.byImsi] at hv
    exact hv.nil_eq.symm
  subst hlisted hlive
  exact ⟨hq, bound, hinv.indexed, hinv.owned, hinv.next, le_rfl,
    fun _ => ⟨List.Perm.refl _, fun b hb => absurd hb List.not_mem_nil⟩⟩

/-- A saved database comes back with the same business fields, record by
record. -/
theorem csv_round_trip {p q : SStrPool} {db t : SubscriberDb} (hs : Reachable (p, db))
    (hst : ∀ s ∈ dbRecords db, s.status.IsEnumerator) (ht : Reachable (q, t)) (he : t.Empty)
    (hq : q.initialized = true) {path : Str} {io : SaveIo} {a : Alloc}
    {files : Str → Option Str}
    (hsave : (subdbSaveCsv p db (some path) io a (Disk.start files)).1 = .ok)
    (clock : ℕ → Int64) :
    let disk := (subdbSaveCsv p db (some path) io a (Disk.start files)).2.2
    let r := subdbLoadCsv q t (some path) disk.files clock Alloc.all
    r.status = .ok ∧ (r.lines.length = (dbRecords db).length ∧ ∀ o ∈ r.lines, ∃ id, o = .added id) ∧
      ((dbRecords r.db).map (Subscriber.fields r.strs)).Perm
        ((dbRecords db).map (Subscriber.fields p)) := by
  intro disk r
  obtain ⟨hqwf, bound, hinv⟩ := ht.restart he
  obtain ⟨hok, hlines, bs, hinv', hload⟩ :=
    loadCsv_saved hs hqwf hq hinv (subdbSaveCsv_file hsave) clock
  refine ⟨hok, hlines, ?_⟩
  have hperm := hinv'.records.map (Subscriber.fields r.strs)
  rw [List.map_map] at hperm
  rw [← hload.fields hst]
  exact hperm.trans (bs.reverse_perm.map _)

theorem csv_round_trip_one :
    ∃ db, subdbCreate Alloc.all = .ok db ∧
      let s := dbFinal (SStrPool.start, db) [.strings (.init 16 Alloc.all),
        .add (some (lit "310150123456789")) (some (lit "14155550100")) (some (lit "A. User"))
          (some (lit "North")) (some (lit "Gold")) .suspended true 5 Alloc.all]
      let disk := (subdbSaveCsv s.1 s.2 (some (lit "s.csv")) SaveIo.all Alloc.all
        (Disk.start fun _ => none)).2.2
      let r := subdbLoadCsv s.1 db (some (lit "s.csv")) disk.files (fun _ => 9) Alloc.all
      r.status = .ok ∧
        (r.lines.length = (dbRecords s.2).length ∧ ∀ o ∈ r.lines, ∃ id, o = .added id) ∧
        ((dbRecords r.db).map (Subscriber.fields r.strs)).Perm
          ((dbRecords s.2).map (Subscriber.fields s.1)) := by
  refine ⟨_, rfl, ?_⟩
  intro s
  have hs : Reachable s := ⟨_, Alloc.all, _, _, SStrPool.start_wf, rfl, rfl⟩
  have hrec : (dbRecords s.2).map Subscriber.status = [.suspended] := by decide +kernel
  have hinit : s.1.initialized = true := by decide +kernel
  clear_value s
  obtain ⟨p, db⟩ := s
  have hst : ∀ c ∈ dbRecords db, c.status.IsEnumerator := by
    intro c hc
    have hm := List.mem_map_of_mem (f := Subscriber.status) hc
    rw [hrec] at hm
    rw [List.mem_singleton.mp hm]
    trivial
  exact csv_round_trip hs hst (Reachable.created hs.good.1 (a := Alloc.all) rfl)
    ⟨by decide +kernel, by decide +kernel, by decide +kernel⟩ hinit
    (subdbSaveCsv_all p db (by decide) fun _ => none) fun _ => 9

/-! ### Ids and times -/

/-- The search for each IMSI finds the record with its id and both times. -/
def IdentityKept (ss : List Subscriber) (q : SStrPool) (t : SubscriberDb) : Prop :=
  ∀ s ∈ ss, ∃ c, (subdbSearchByImsi q t (some s.imsi.chars) Alloc.all).1 = .ok c ∧
    c.subscriberId = s.subscriberId ∧ c.createdAt = s.createdAt ∧ c.updatedAt = s.updatedAt

/-- Each record already has the id and the times that the load gives to its
line. -/
def Renumbered (ss : List Subscriber) (clock : ℕ → Int64) : Prop :=
  ∀ i s, ss[i]? = some s →
    s.subscriberId = UInt64.ofNat (i + 1) ∧ s.createdAt = clock i ∧ s.updatedAt = clock i

theorem searchByImsi_live {q : SStrPool} {t : SubscriberDb} {listed live : List Block}
    (h : Indexed t listed live) {b : Block} (hb : b ∈ live) :
    (subdbSearchByImsi q t (some (t.mem b).imsi.chars) Alloc.all).1 = .ok (t.mem b) := by
  have hget : htGet (imsiOps t.mem) t.byImsi (.value (t.mem b).imsi.chars) = .ok b :=
    h.byImsi.get_ok_iff.mpr ⟨hb, rfl⟩
  simp only [subdbSearchByImsi, hget, searchResult, makeSnapshot, Alloc.all_apply, Bool.not_true,
    Bool.false_eq_true, if_false]

theorem loadCsv_identity {p q : SStrPool} {db t : SubscriberDb} (hs : Reachable (p, db))
    (hq : q.WF) (hi : q.initialized = true) {a : Alloc} (ht : subdbCreate a = .ok t)
    {path : Str} {files : Str → Option Str} (hfile : files path = some (csvFile p db))
    (clock : ℕ → Int64) :
    let r := subdbLoadCsv q t (some path) files clock Alloc.all
    IdentityKept (dbRecords db) r.strs r.db ↔ Renumbered (dbRecords db) clock := by
  intro r
  obtain ⟨-, -, bs, hinv, hload⟩ := loadCsv_saved hs hq hi (subdbCreate_inv ht) hfile clock
  -- the search finds the copy, whose id and times are those of its line
  have hfind : ∀ i s, (dbRecords db)[i]? = some s → ∃ c,
      (subdbSearchByImsi r.strs r.db (some s.imsi.chars) Alloc.all).1 = .ok c ∧
        c.subscriberId = UInt64.ofNat (i + 1) ∧ c.createdAt = clock i ∧ c.updatedAt = clock i := by
    intro i s hget
    obtain ⟨b, hb, hcopy⟩ := hload.get hget
    have hsearch := searchByImsi_live (q := r.strs) hinv.indexed (List.mem_reverse.mpr hb)
    rw [hcopy.imsi] at hsearch
    refine ⟨_, hsearch, ?_, ?_, ?_⟩
    · rw [hcopy.id, Nat.add_comm 1 i]
    · rw [hcopy.createdAt, Nat.zero_add]
    · rw [hcopy.updatedAt, Nat.zero_add]
  constructor
  · intro hkept i s hget
    obtain ⟨c, hc, h1, h2, h3⟩ := hfind i s hget
    obtain ⟨c', hc', h1', h2', h3'⟩ := hkept s (List.mem_of_getElem? hget)
    rw [hc] at hc'
    cases hc'
    exact ⟨h1'.symm.trans h1, h2'.symm.trans h2, h3'.symm.trans h3⟩
  · intro hren s hs
    obtain ⟨i, hget⟩ := List.mem_iff_getElem?.mp hs
    obtain ⟨c, hc, h1, h2, h3⟩ := hfind i s hget
    obtain ⟨r1, r2, r3⟩ := hren i s hget
    exact ⟨c, hc, h1.trans r1.symm, h2.trans r2.symm, h3.trans r3.symm⟩

/-- Ids and times survive a save and a load into a new database exactly when
they are the ones that the load gives anyway. -/
theorem csv_identity_iff {p q : SStrPool} {db t : SubscriberDb} (hs : Reachable (p, db))
    (hq : Reachable (q, t)) (hi : q.initialized = true) {b : Alloc} (ht : subdbCreate b = .ok t)
    {path : Str} {io : SaveIo} {a : Alloc} {files : Str → Option Str}
    (hsave : (subdbSaveCsv p db (some path) io a (Disk.start files)).1 = .ok)
    (clock : ℕ → Int64) :
    let disk := (subdbSaveCsv p db (some path) io a (Disk.start files)).2.2
    let r := subdbLoadCsv q t (some path) disk.files clock Alloc.all
    let r' := subdbRestore q t (some path) disk.files clock Alloc.all
    (IdentityKept (dbRecords db) r.strs r.db ↔ Renumbered (dbRecords db) clock) ∧
      (IdentityKept (dbRecords db) r'.strs r'.db ↔ Renumbered (dbRecords db) clock) :=
  ⟨loadCsv_identity hs hq.good.1 hi ht (subdbSaveCsv_file hsave) clock,
    loadCsv_identity hs hq.good.1 hi ht (subdbSaveCsv_file hsave) clock⟩

theorem csv_identity_one :
    ∃ db, subdbCreate Alloc.all = .ok db ∧
      let s := dbFinal (SStrPool.start, db) [.strings (.init 16 Alloc.all),
        .add (some (lit "310150123456789")) (some (lit "14155550100")) (some (lit "A. User"))
          (some (lit "North")) (some (lit "Gold")) .suspended true 5 Alloc.all]
      let disk := (subdbSaveCsv s.1 s.2 (some (lit "s.csv")) SaveIo.all Alloc.all
        (Disk.start fun _ => none)).2.2
      let r := subdbLoadCsv s.1 db (some (lit "s.csv")) disk.files (fun _ => 5) Alloc.all
      dbRecords s.2 ≠ [] ∧ IdentityKept (dbRecords s.2) r.strs r.db := by
  refine ⟨_, rfl, ?_⟩
  intro s
  have hs : Reachable s := ⟨_, Alloc.all, _, _, SStrPool.start_wf, rfl, rfl⟩
  have hrec : (dbRecords s.2).map (fun c => (c.subscriberId, c.createdAt, c.updatedAt)) =
      [(1, 5, 5)] := by decide +kernel
  have hinit : s.1.initialized = true := by decide +kernel
  clear_value s
  obtain ⟨p, db⟩ := s
  obtain ⟨c, hc, hval⟩ := List.map_eq_singleton_iff.mp hrec
  have hren : Renumbered (dbRecords db) fun _ => 5 := by
    intro i s hget
    rw [hc] at hget
    cases i with
    | zero =>
      cases hget
      exact ⟨congrArg (·.1) hval, congrArg (·.2.1) hval, congrArg (·.2.2) hval⟩
    | succ i => cases hget
  refine ⟨by rw [hc]; exact List.cons_ne_nil c [], ?_⟩
  exact (csv_identity_iff hs (Reachable.created hs.good.1 (a := Alloc.all) rfl) hinit
    (b := Alloc.all) rfl (subdbSaveCsv_all p db (by decide) fun _ => none) fun _ => 5).1.mpr hren

def addedTwice : List DbOp :=
  [.strings (.init 16 Alloc.all),
    .add (some (lit "310150000000001")) (some (lit "14155550101")) (some (lit "A"))
      (some (lit "North")) (some (lit "Gold")) .active true 5 Alloc.all,
    .delete 1,
    .add (some (lit "310150000000002")) (some (lit "14155550102")) (some (lit "B"))
      (some (lit "North")) (some (lit "Gold")) .active true 6 Alloc.all]

/-- The record with the id 2 comes back with the id 1. -/
theorem csv_identity_lost :
    ∃ db, subdbCreate Alloc.all = .ok db ∧
      let s := dbFinal (SStrPool.start, db) addedTwice
      let save := subdbSaveCsv s.1 s.2 (some (lit "s.csv")) SaveIo.all Alloc.all
        (Disk.start fun _ => none)
      let r := subdbLoadCsv s.1 db (some (lit "s.csv")) save.2.2.files (fun _ => 9) Alloc.all
      save.1 = .ok ∧ r.status = .ok ∧ ¬ IdentityKept (dbRecords s.2) r.strs r.db := by
  refine ⟨_, rfl, ?_⟩
  intro s
  have hs : Reachable s := ⟨_, Alloc.all, _, _, SStrPool.start_wf, rfl, rfl⟩
  have hids : (dbRecords s.2).map Subscriber.subscriberId = [2] := by decide +kernel
  have hinit : s.1.initialized = true := by decide +kernel
  clear_value s
  obtain ⟨p, db⟩ := s
  have hsave := @subdbSaveCsv_all p db (lit "s.csv") (by decide) fun _ => none
  refine ⟨hsave, (loadCsv_saved hs hs.good.1 hinit (subdbCreate_inv (a := Alloc.all) rfl)
    (subdbSaveCsv_file hsave) fun _ => 9).1, fun hkept => ?_⟩
  have hren := (loadCsv_identity hs hs.good.1 hinit (a := Alloc.all) rfl
    (subdbSaveCsv_file hsave) fun _ => 9).mp hkept
  obtain ⟨c, hc⟩ := List.map_eq_singleton_iff.mp hids
  have hget : (dbRecords db)[0]? = some c := by
    rw [hc.1]
    rfl
  have hid := (hren 0 c hget).1
  rw [hc.2] at hid
  exact absurd hid (by decide)

end SubscriberMgmt
