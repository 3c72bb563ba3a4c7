import SubscriberMgmt.SubscriberRefs
import SubscriberMgmt.SubscriberRuns
import Mathlib.Data.List.Perm.Basic

/-!
# Databases, their snapshots and the string pool

Any number of databases share the pool. Clients hold snapshots until they free
them; beside each snapshot stand the texts that it showed when it was taken.
-/

namespace SubscriberMgmt

/-- A database, and how many calls of `subdb_add` it has had. -/
structure StoredDb where
  db : SubscriberDb
  adds : ℕ

structure Snapshot where
  sub : Subscriber
  name : Str
  region : Str
  plan : Str
  deriving DecidableEq

def Snapshot.of (p : SStrPool) (s : Subscriber) : Snapshot :=
  ⟨s, sstrCstr p s.name, sstrCstr p s.region, sstrCstr p s.plan⟩

/-- The databases in the order of their creation; a destroyed one is `none`. -/
structure Store where
  strs : SStrPool
  dbs : List (Option StoredDb)
  snaps : List Snapshot

inductive Query where
  | byId (id : UInt64)
  | byImsi (imsi : Option Str)
  | byMsisdn (msisdn : Option Str)
  | byRegion (region : Option Str)
  | byPlan (plan : Option Str)
  | byStatus (status : SubStatus)
  | all

def Query.run (p : SStrPool) (db : SubscriberDb) (a : Alloc) :
    Query → Except SmStatus (List Subscriber) × SStrPool
  | .byId id =>
    let r := subdbSearchById p db id a
    (r.1.map fun s => [s], r.2)
  | .byImsi imsi =>
    let r := subdbSearchByImsi p db imsi a
    (r.1.map fun s => [s], r.2)
  | .byMsisdn msisdn =>
    let r := subdbSearchByMsisdn p db msisdn a
    (r.1.map fun s => [s], r.2)
  | .byRegion region => subdbSearchByRegion p db region a
  | .byPlan plan => subdbSearchByPlan p db plan a
  | .byStatus status => subdbSearchByStatus p db status a
  | .all => subdbListAll p db a

/-- References that a search may hold at one time. -/
def Query.takes (db : SubscriberDb) : Query → ℕ
  | .byId _ => 3
  | .byImsi _ => 3
  | .byMsisdn _ => 3
  | _ => 3 * subdbCount db

inductive StoreOp where
  | create (a : Alloc)
  | add (d : ℕ) (imsi msisdn name region plan : Option Str) (status : SubStatus) (outId : Bool)
      (now : Int64) (a : Alloc)
  | delete (d : ℕ) (id : UInt64)
  | update (d : ℕ) (id : UInt64) (name region plan : Option Str) (status : Option SubStatus)
      (now : Int64) (a : Alloc)
  | loadCsv (d : ℕ) (path : Option Str) (files : Str → Option Str) (clock : ℕ → Int64) (a : Alloc)
  | search (d : ℕ) (q : Query) (a : Alloc)
  | freeOne (n : Snapshot)
  | freeResults (ns : List Snapshot)
  | destroy (d : ℕ) (a : Alloc)

namespace Store

def change (s : Store) (d : ℕ) (f : SStrPool → StoredDb → SStrPool × StoredDb) : Store :=
  match s.dbs[d]? with
  | some (some x) => { s with strs := (f s.strs x).1, dbs := s.dbs.set d (some (f s.strs x).2) }
  | _ => s

/-- A call on a database that does not exist changes nothing. -/
def step (s : Store) : StoreOp → Store
  | .create a =>
    match subdbCreate a with
    | .ok db => { s with dbs := s.dbs ++ [some ⟨db, 0⟩] }
    | .error _ => s
  | .add d imsi msisdn name region plan status outId now a =>
    s.change d fun p x =>
      let r := subdbAdd p x.db imsi msisdn name region plan status outId now a
      (r.strs, ⟨r.db, x.adds + 1⟩)
  | .delete d id =>
    s.change d fun p x =>
      let r := subdbDelete p x.db id
      (r.2.1, ⟨r.2.2, x.adds⟩)
  | .update d id name region plan status now a =>
    s.change d fun p x =>
      let r := subdbUpdate p x.db id name region plan status now a
      (r.2.1, ⟨r.2.2, x.adds⟩)
  | .loadCsv d path files clock a =>
    s.change d fun p x =>
      let r := subdbLoadCsv p x.db path files clock a
      (r.strs, ⟨r.db, x.adds + loadCount path files⟩)
  | .search d q a =>
    match s.dbs[d]? with
    | some (some x) =>
      match q.run s.strs x.db a with
      | (.ok array, p) => { s with strs := p, snaps := array.map (Snapshot.of p) ++ s.snaps }
      | (.error _, p) => { s with strs := p }
    | _ => s
  | .freeOne n =>
    { s with strs := subdbFreeOne s.strs n.sub, snaps := s.snaps.erase n }
  | .freeResults ns =>
    { s with
      strs := subdbFreeResults s.strs (ns.map Snapshot.sub)
      snaps := s.snaps.diff ns }
  | .destroy d a =>
    match s.dbs[d]? with
    | some (some x) => { s with strs := subdbDestroy s.strs x.db a, dbs := s.dbs.set d none }
    | _ => s

/-- The name, region and plan fields of live records. -/
def dbRefs (s : Store) : List Handle := s.dbs.flatMap fun o => o.elim [] fun x => x.db.handles

/-- Those fields and the ones of snapshots that are not freed yet. -/
def refs (s : Store) : List Handle :=
  s.dbRefs ++ s.snaps.flatMap fun n => n.sub.handles

def takes (s : Store) : StoreOp → ℕ
  | .add .. => 3
  | .update .. => 3
  | .loadCsv _ path files _ _ => 3 * loadCount path files
  | .search d q _ => (s.dbs[d]?.join).elim 0 fun x => q.takes x.db
  | _ => 0

/-- Clients free snapshots that they hold, and the array of a `subdb_destroy` is
allocated. -/
def Holds (s : Store) : StoreOp → Prop
  | .freeOne n => n ∈ s.snaps
  | .freeResults ns => ns.Subperm s.snaps
  | .destroy _ a => a 0 = true
  | _ => True

/-- The id counter of a database that is destroyed has not come round. -/
def Young (s : Store) : StoreOp → Prop
  | .destroy d _ => ∀ x, s.dbs[d]? = some (some x) → x.adds ≤ 2 ^ 64
  | _ => True

def May (s : Store) (op : StoreOp) : Prop :=
  s.Holds op ∧ s.Young op ∧ Room s.refs (s.takes op)

/-- The state after a successful `sstr_pool_init`. -/
def init (hint : ℕ) (a : Alloc) : Store := ⟨(sstrPoolInit SStrPool.start hint a).2, [], []⟩

end Store

/-! ### The invariant -/

/-- A snapshot reads as it did when it was taken. -/
structure Snapshot.Intact (p : SStrPool) (n : Snapshot) : Prop where
  name : sstrCstr p n.sub.name = n.name
  region : sstrCstr p n.sub.region = n.region
  plan : sstrCstr p n.sub.plan = n.plan

def StoredDb.Inv (x : StoredDb) : Prop :=
  ∃ listed live bound, DbInv x.db 1 listed live bound ∧ bound ≤ 1 + x.adds

structure Store.Inv (s : Store) : Prop where
  refs : s.strs.Refs s.refs
  dbs : ∀ x, some x ∈ s.dbs → x.Inv
  snaps : ∀ n ∈ s.snaps, n.Intact s.strs

theorem Snapshot.of_intact (p : SStrPool) (s : Subscriber) : (Snapshot.of p s).Intact p :=
  ⟨rfl, rfl, rfl⟩

theorem Snapshot.Intact.keep {p p' : SStrPool} {n : Snapshot} (hn : n.Intact p)
    (he : p.Extends p') (hlt : ∀ h ∈ n.sub.handles, h < p.next) : n.Intact p' := by
  have hread : ∀ h : Option Handle,
      (∀ i ∈ h.toList, i < p.next) → sstrCstr p' h = sstrCstr p h := by
    intro h hh
    cases h with
    | none => rfl
    | some h => exact he.data_eq h (hh h (by simp))
  simp only [Subscriber.handles, List.mem_append] at hlt
  refine ⟨?_, ?_, ?_⟩
  · rw [hread _ fun i hi => hlt i (Or.inl hi)]
    exact hn.name
  · rw [hread _ fun i hi => hlt i (Or.inr (Or.inl hi))]
    exact hn.region
  · rw [hread _ fun i hi => hlt i (Or.inr (Or.inr hi))]
    exact hn.plan

theorem Snapshot.of_extends {p p' : SStrPool} (he : p.Extends p') {s : Subscriber}
    (hlt : ∀ h ∈ s.handles, h < p.next) : Snapshot.of p' s = Snapshot.of p s := by
  have hintact := (Snapshot.of_intact p s).keep he hlt
  simp only [Snapshot.of, Snapshot.mk.injEq, true_and]
  exact ⟨hintact.name, hintact.region, hintact.plan⟩

/-- The references, those of database `d` first. -/
theorem Store.at_db (s : Store) {d : ℕ} {x : StoredDb} (hd : s.dbs[d]? = some (some x)) :
    ∃ rest, s.refs.Perm (x.db.handles ++ rest) ∧
      ∀ p o, ({ s with strs := p, dbs := s.dbs.set d o } : Store).refs.Perm
        ((o.elim [] fun x => x.db.handles) ++ rest) := by
  obtain ⟨hlt, hx⟩ := List.getElem?_eq_some_iff.mp hd
  refine ⟨(s.dbs.eraseIdx d).flatMap (fun o => o.elim [] fun x => x.db.handles) ++
    s.snaps.flatMap fun n => n.sub.handles, ?_, fun p o => ?_⟩
  · have h := (List.getElem_cons_eraseIdx_perm hlt).symm.flatMap_right
      (fun o : Option StoredDb => o.elim [] fun x => x.db.handles)
    rw [hx, List.flatMap_cons] at h
    simpa only [Store.refs, Store.dbRefs, Option.elim_some, List.append_assoc]
      using h.append_right _
  · have h := (List.set_perm_cons_eraseIdx hlt o).flatMap_right
      (fun o : Option StoredDb => o.elim [] fun x => x.db.handles)
    rw [List.flatMap_cons] at h
    simpa only [Store.refs, Store.dbRefs, List.append_assoc] using h.append_right _

/-! ### Searches -/

theorem Query.keeps (p : SStrPool) (db : SubscriberDb) (a : Alloc) (q : Query) :
    p.Keeps (q.run p db a).2 := by
  cases q with
  | byId id => exact SStrPool.keeps_tracks.searchResult _ _ _ a
  | byImsi imsi =>
    cases imsi with
    | none => exact SStrPool.Keeps.refl p
    | some imsi => exact SStrPool.keeps_tracks.searchResult _ _ _ a
  | byMsisdn msisdn =>
    cases msisdn with
    | none => exact SStrPool.Keeps.refl p
    | some msisdn => exact SStrPool.keeps_tracks.searchResult _ _ _ a
  | byRegion region =>
    cases region with
    | none => exact SStrPool.Keeps.refl p
    | some region => exact SStrPool.keeps_tracks.filteredSearch _ _ _ a
  | byPlan plan =>
    cases plan with
    | none => exact SStrPool.Keeps.refl p
    | some plan => exact SStrPool.keeps_tracks.filteredSearch _ _ _ a
  | byStatus status => exact SStrPool.keeps_tracks.filteredSearch _ _ _ a
  | all => exact SStrPool.keeps_tracks.filteredSearch _ _ _ a

/-- A search takes a reference for each text of each snapshot, or gives all of them back. -/
theorem Query.run_refs {p : SStrPool} {db : SubscriberDb} {base bound : ℕ}
    {listed live : List Block} {held : List Handle} (hinv : DbInv db base listed live bound)
    (hr : p.Refs held) (hsub : ∀ h ∈ db.handles, h ∈ held) (q : Query)
    (hroom : Room held (q.takes db)) (a : Alloc) : Taken held (q.run p db a) := by
  have hheld : ∀ b ∈ live, ∀ h ∈ (db.mem b).handles, h ∈ held := fun b hb h hh =>
    hsub h (hinv.indexed.handles_perm.mem_iff.mpr (List.mem_flatMap.mpr ⟨b, hb, hh⟩))
  have hlisted : ∀ n ∈ db.byId.nodes, ∀ h ∈ (db.mem n.value).handles, h ∈ held :=
    fun n hn => hheld _ (hinv.indexed.sub _ (hinv.indexed.byId.mem_iff.mpr ⟨n, hn, rfl⟩))
  have hcount : subdbCount db = db.byId.nodes.length := hinv.indexed.byId.wf.counted
  have many : Room held (3 * subdbCount db) → ∀ matching,
      Taken held (filteredSearch p db matching a) := fun hm matching =>
    filteredSearch_refs hr matching hlisted (by rwa [← hcount]) a
  cases q with
  | byId id =>
    refine searchResult_refs hr hroom _ (fun b hb => ?_) a
    exact hheld b (hinv.indexed.sub b (hinv.indexed.byId.get_ok_iff.mp hb).1)
  | byImsi imsi =>
    cases imsi with
    | none => exact hr
    | some imsi =>
      refine searchResult_refs hr hroom _ (fun b hb => ?_) a
      exact hheld b (hinv.indexed.byImsi.get_ok_iff.mp hb).1
  | byMsisdn msisdn =>
    cases msisdn with
    | none => exact hr
    | some msisdn =>
      refine searchResult_refs hr hroom _ (fun b hb => ?_) a
      exact hheld b (hinv.indexed.byMsisdn.get_ok_iff.mp hb).1
  | byRegion region =>
    cases region with
    | none => exact hr
    | some region => exact many hroom _
  | byPlan plan =>
    cases plan with
    | none => exact hr
    | some plan => exact many hroom _
  | byStatus status => exact many hroom _
  | all => exact many hroom _

namespace Store.Inv

variable {s : Store}

theorem init (hint : ℕ) (a : Alloc) : (Store.init hint a).Inv :=
  ⟨(Sharing.init_inv hint a : (Sharing.init hint a : Sharing ℕ).Inv).refs,
    fun x hx => (by cases hx), fun n hn => (by cases hn)⟩

/-- Snapshots that are held stay intact in every later pool. -/
theorem keep (hs : s.Inv) {p : SStrPool} (he : s.strs.Extends p) {n : Snapshot}
    (hn : n ∈ s.snaps) : n.Intact p := by
  refine (hs.snaps n hn).keep he fun h hh => hs.refs.lt_next ?_
  exact List.mem_append_right _ (List.mem_flatMap.mpr ⟨n, hn, hh⟩)

theorem set_dbs (hs : s.Inv) {d : ℕ} {o : Option StoredDb} (ho : ∀ x, o = some x → x.Inv) :
    ∀ x, some x ∈ s.dbs.set d o → x.Inv := fun x hx =>
  (List.mem_or_eq_of_mem_set hx).elim (hs.dbs x) fun he => ho x he.symm

/-- A call on one database that settles it. -/
theorem change (hs : s.Inv) {d : ℕ} {f : SStrPool → StoredDb → SStrPool × StoredDb}
    (hkeep : ∀ x, s.strs.Keeps (f s.strs x).1)
    (hf : ∀ x listed live bound rest, s.dbs[d]? = some (some x) → DbInv x.db 1 listed live bound →
      s.refs.Perm (x.db.handles ++ rest) → s.strs.Refs (x.db.handles ++ rest) →
      ∃ k, Settled 1 bound k rest (f s.strs x).1 (f s.strs x).2.db ∧
        x.adds + k ≤ (f s.strs x).2.adds) : (s.change d f).Inv := by
  unfold Store.change
  split
  case h_1 x hd =>
    obtain ⟨rest, hold, hnew⟩ := s.at_db hd
    obtain ⟨listed, live, bound, hinv, hbound⟩ := hs.dbs x (List.mem_of_getElem? hd)
    obtain ⟨k, ⟨l', v', b', hinv', hb', hr'⟩, hk⟩ :=
      hf x listed live bound rest hd hinv hold (hs.refs.perm hold)
    refine ⟨hr'.perm (hnew _ (some (f s.strs x).2)).symm, hs.set_dbs fun y hy => ?_, fun n hn => ?_⟩
    · cases hy
      exact ⟨l', v', b', hinv', by omega⟩
    · exact hs.keep (hkeep x hs.refs.wf).2.1 hn
  case h_2 => exact hs

theorem search (hs : s.Inv) {d : ℕ} {x : StoredDb} (hd : s.dbs[d]? = some (some x)) (q : Query)
    (hroom : Room s.refs (q.takes x.db)) (a : Alloc) :
    Taken s.refs (q.run s.strs x.db a) := by
  obtain ⟨rest, hold, -⟩ := s.at_db hd
  obtain ⟨listed, live, bound, hinv, -⟩ := hs.dbs x (List.mem_of_getElem? hd)
  exact q.run_refs hinv hs.refs (fun h hh => hold.mem_iff.mpr (List.mem_append_left _ hh)) hroom a

/-- Snapshots that are freed give their references back. -/
theorem freed (hs : s.Inv) {gone rest : List Snapshot} (hsnaps : s.snaps.Perm (gone ++ rest))
    {p : SStrPool}
    (hp : ∀ held, s.refs.Perm (gone.flatMap (fun n => n.sub.handles) ++ held) → p.Refs held)
    (he : s.strs.Extends p) : ({ s with strs := p, snaps := rest } : Store).Inv := by
  have hall := hsnaps.flatMap_right fun n => n.sub.handles
  rw [List.flatMap_append] at hall
  refine ⟨hp _ (List.perm_iff_count.mpr fun h => ?_), hs.dbs, fun n hn => ?_⟩
  · have hc := hall.count_eq h
    simp only [Store.refs, Store.dbRefs, List.count_append] at hc ⊢
    omega
  · exact hs.keep he (hsnaps.mem_iff.mpr (List.mem_append_right _ hn))

theorem created (hs : s.Inv) {a : Alloc} {db : SubscriberDb} (hc : subdbCreate a = .ok db) :
    ({ s with dbs := s.dbs ++ [some ⟨db, 0⟩] } : Store).Inv := by
  have hinv := subdbCreate_inv hc
  have hnil : db.handles = [] := List.Perm.eq_nil hinv.indexed.handles_perm
  refine ⟨?_, fun x hx => ?_, hs.snaps⟩
  · have hrefs : ({ s with dbs := s.dbs ++ [some ⟨db, 0⟩] } : Store).refs = s.refs := by
      simp [Store.refs, Store.dbRefs, List.flatMap_append, hnil]
    exact hrefs ▸ hs.refs
  · rcases List.mem_append.mp hx with hx | hx
    · exact hs.dbs x hx
    · cases List.mem_singleton.mp hx
      exact ⟨[], [], 1, hinv, le_rfl⟩

/-- The results of a search are snapshots with references of their own. -/
theorem searched (hs : s.Inv) {p : SStrPool} (hkeep : s.strs.Keeps p) {array : List Subscriber}
    (htaken : Taken s.refs (.ok array, p)) :
    ({ s with strs := p, snaps := array.map (Snapshot.of p) ++ s.snaps } : Store).Inv := by
  refine ⟨?_, hs.dbs, fun n hn => ?_⟩
  · refine SStrPool.Refs.perm htaken (List.perm_iff_count.mpr fun h => ?_)
    have hmap : (array.map (Snapshot.of p)).flatMap (fun n => n.sub.handles) =
        array.flatMap Subscriber.handles := by
      rw [List.flatMap_map]
      rfl
    simp only [Store.refs, Store.dbRefs, List.flatMap_append, hmap, List.count_append]
    omega
  · rcases List.mem_append.mp hn with hn | hn
    · obtain ⟨sub, -, rfl⟩ := List.mem_map.mp hn
      exact Snapshot.of_intact p sub
    · exact hs.keep (hkeep hs.refs.wf).2.1 hn

theorem destroyed (hs : s.Inv) {d : ℕ} {x : StoredDb} (hd : s.dbs[d]? = some (some x))
    (hfew : x.adds ≤ 2 ^ 64) {a : Alloc} (hholds : s.Holds (.destroy d a)) :
    ({ s with strs := subdbDestroy s.strs x.db a, dbs := s.dbs.set d none } : Store).Inv := by
  obtain ⟨rest, hold, hnew⟩ := s.at_db hd
  obtain ⟨listed, live, bound, hinv, hbound⟩ := hs.dbs x (List.mem_of_getElem? hd)
  have hr := subdbDestroy_refs hinv (hinv.young (by omega)).1 (hs.refs.perm hold) hholds
  refine ⟨hr.perm (hnew _ none).symm, hs.set_dbs fun y hy => (by cases hy), fun n hn => ?_⟩
  exact hs.keep (subdbDestroy_keeps s.strs x.db a hs.refs.wf).2.1 hn

theorem step (hs : s.Inv) {op : StoreOp} (hop : s.May op) : (s.step op).Inv := by
  obtain ⟨hholds, hyoung, hroom⟩ := hop
  cases op with
  | create a =>
    simp only [Store.step]
    split
    case h_1 db hc => exact hs.created hc
    case h_2 => exact hs
  | add d imsi msisdn name region plan status outId now a =>
    simp only [Store.step]
    refine hs.change (fun x => SStrPool.Keeps.subdbAdd _ _ _ _ _ _ _ _ _ _ _)
      fun x listed live bound rest hd hinv hold hr => ⟨1, ?_, le_rfl⟩
    exact (subdbAdd_refs hinv hr (hroom.perm hold) imsi msisdn name region plan status outId now
      a).1
  | delete d id =>
    simp only [Store.step]
    exact hs.change (fun x => SStrPool.Keeps.subdbDelete _ _ _)
      fun x listed live bound rest hd hinv hold hr => ⟨0, subdbDelete_refs hinv hr id, le_rfl⟩
  | update d id name region plan status now a =>
    simp only [Store.step]
    refine hs.change (fun x => SStrPool.Keeps.subdbUpdate _ _ _ _ _ _ _ _ _)
      fun x listed live bound rest hd hinv hold hr => ⟨0, ?_, le_rfl⟩
    exact subdbUpdate_refs hinv hr (hroom.perm hold) id name region plan status now a
  | loadCsv d path files clock a =>
    simp only [Store.step]
    refine hs.change (fun x => SStrPool.Keeps.subdbLoadCsv _ _ _ _ _ _)
      fun x listed live bound rest hd hinv hold hr => ⟨loadCount path files, ?_, le_rfl⟩
    exact subdbLoadCsv_refs hinv hr path files clock a (hroom.perm hold)
  | search d q a =>
    simp only [Store.step]
    split
    case h_2 => exact hs
    case h_1 x hd =>
      simp only [Store.takes, hd, Option.join_some, Option.elim_some] at hroom
      have htaken := hs.search hd q hroom a
      have hkeep := Query.keeps s.strs x.db a q
      rcases hq : q.run s.strs x.db a with ⟨st | array, p⟩
      · rw [hq] at htaken hkeep
        exact ⟨htaken, hs.dbs, fun n hn => hs.keep (hkeep hs.refs.wf).2.1 hn⟩
      · rw [hq] at htaken hkeep
        exact hs.searched hkeep htaken
  | freeOne n =>
    have hn : n ∈ s.snaps := hholds
    have hperm : s.snaps.Perm ([n] ++ s.snaps.erase n) := List.perm_cons_erase hn
    refine hs.freed hperm (fun held h => ?_)
      (SStrPool.keeps_tracks.releaseTexts _ _ hs.refs.wf).2.1
    exact hs.refs.releaseTexts (by simpa using h)
  | freeResults ns =>
    have hns : ns.Subperm s.snaps := hholds
    have hperm : s.snaps.Perm (ns ++ s.snaps.diff ns) :=
      (List.subperm_append_diff_self_of_count_le (List.subperm_ext_iff.mp hns)).symm
    refine hs.freed hperm (fun held h => ?_)
      (SStrPool.keeps_tracks.freeResults _ _ hs.refs.wf).2.1
    apply hs.refs.freeResults
    rwa [List.flatMap_map]
  | destroy d a =>
    simp only [Store.step]
    split
    case h_2 => exact hs
    case h_1 x hd => exact hs.destroyed hd (hyoung x hd) hholds

end Store.Inv

/-! ### The statement for every run -/

/-- Whatever runs: the pool holds the texts of live records and of snapshots
not freed, each with its references counted, and snapshots read as they did
when they were taken. -/
theorem store_references_exact (hint : ℕ) (a : Alloc) (s : Store)
    (hs : Machine.Reach Store.step Store.May (Store.init hint a) s) :
    (∀ h, (s.strs.cells h).refcount.toNat = s.refs.count h) ∧
      (∀ n ∈ s.strs.table.nodes, n.value ∈ s.refs) ∧
      (∀ h ∈ s.refs, (s.strs.cells h).live = true) ∧
      (∀ n ∈ s.snaps, n.Intact s.strs) ∧
      ((∀ o ∈ s.dbs, o = none) → s.snaps = [] → s.strs.table.nodes = []) := by
  have hinv : s.Inv := hs.invariant (Store.Inv.init hint a) fun _ _ h ha => h.step ha
  have hentry : ∀ n ∈ s.strs.table.nodes, n.value ∈ s.refs := fun n hn =>
    (hinv.refs.entry n.value).mpr ⟨n, hn, rfl⟩
  refine ⟨hinv.refs.count, hentry, fun h hh => (hinv.refs.live h).mpr hh, hinv.snaps,
    fun hdbs hsnaps => List.eq_nil_iff_forall_not_mem.mpr fun n hn => ?_⟩
  have hnone : s.refs = [] := by
    simp only [Store.refs, hsnaps, List.flatMap_nil, List.append_nil, Store.dbRefs]
    apply List.flatMap_eq_nil_iff.mpr
    intro o ho
    rw [hdbs o ho]
    rfl
  have hmem := hentry n hn
  rw [hnone] at hmem
  cases hmem

def addA (imsi msisdn : Str) (a : Alloc) : StoreOp :=
  .add 0 (some imsi) (some msisdn) (some (lit "A")) (some (lit "A")) (some (lit "A")) .active true
    0 a

/-- A record that is searched for and then deleted: its texts stay until the
snapshot is freed. -/
theorem store_references_exact_small :
    let s := ((((Store.init 16 Alloc.all).step (.create Alloc.all)).step
      (addA (lit "100000") (lit "1000000") Alloc.all)).step (.search 0 (.byId 1) Alloc.all)).step
        (.delete 0 1)
    let t := (s.step (.freeResults s.snaps)).step (.destroy 0 Alloc.all)
    s.snaps.length = 1 ∧ (∀ n ∈ s.snaps, n.Intact s.strs) ∧
      (∀ h, (s.strs.cells h).refcount.toNat = s.refs.count h) ∧ t.strs.table.nodes = [] := by
  intro s t
  have hs : Machine.Reach Store.step Store.May (Store.init 16 Alloc.all) s := by
    refine .step (.step (.step (.step .start ?_) ?_) ?_) ?_
    · exact ⟨trivial, trivial, Room.of_length (by decide +kernel)⟩
    · exact ⟨trivial, trivial, Room.of_length (by decide +kernel)⟩
    · exact ⟨trivial, trivial, Room.of_length (by decide +kernel)⟩
    · exact ⟨trivial, trivial, Room.of_length (by decide +kernel)⟩
  have ht : Machine.Reach Store.step Store.May (Store.init 16 Alloc.all) t := by
    refine .step (.step hs ?_) ?_
    · exact ⟨List.Subperm.refl _, trivial, Room.of_length (by decide +kernel)⟩
    · refine ⟨rfl, fun x hx => ?_, Room.of_length (by decide +kernel)⟩
      have hadds : ((s.step (.freeResults s.snaps)).dbs.all fun o => o.all fun x =>
          decide (x.adds ≤ 2 ^ 64)) = true := by decide +kernel
      have hm := List.all_eq_true.mp hadds _ (List.mem_of_getElem? hx)
      simpa using hm
  have hdbs : t.dbs.all Option.isNone = true := by decide +kernel
  have hsnaps : t.snaps = [] := List.eq_nil_iff_length_eq_zero.mpr (by decide +kernel)
  have hends := (store_references_exact 16 Alloc.all t ht).2.2.2.2
  obtain ⟨hcount, -, -, hintact, -⟩ := store_references_exact 16 Alloc.all s hs
  refine ⟨by decide +kernel, hintact, hcount, hends (fun o ho => ?_) hsnaps⟩
  exact Option.isNone_iff_eq_none.mp (List.all_eq_true.mp hdbs o ho)

/-! ### Where counts and ids end -/

/-- One database with one record, which got the id 1 in a run that fits. -/
structure OneRecordStore (p : SStrPool) (db : SubscriberDb) (b : Block) (n : ℕ) : Prop where
  reach : Machine.Reach Store.step Store.May (Store.init 16 Alloc.all) ⟨p, [some ⟨db, n + 1⟩], []⟩
  one : OneRecord (p, db) b (2 + n)
  id : (db.mem b).subscriberId = 1
  held : ∃ h, (db.mem b).name = some h

theorem OneRecordStore.room {p : SStrPool} {db : SubscriberDb} {b : Block} {n : ℕ}
    (h : OneRecordStore p db b n) : Room (⟨p, [some ⟨db, n + 1⟩], []⟩ : Store).refs 3 := by
  obtain ⟨listed, hinv⟩ := h.one.inv
  have hp := hinv.indexed.handles_perm
  rw [List.flatMap_singleton] at hp
  have hlen : db.handles.length ≤ 3 := hp.length_eq ▸ Subscriber.handles_length _
  intro i
  have hc := List.count_le_length (a := i) (l := db.handles)
  simp only [Store.refs, Store.dbRefs, List.flatMap_singleton, List.flatMap_nil, List.append_nil,
    Option.elim_some]
  omega

theorem oneRecord_first_eq : ∃ p db b, OneRecordStore p db b 0 ∧
    (⟨p, [some ⟨db, 1⟩], []⟩ : Store) = ((Store.init 16 Alloc.all).step (.create Alloc.all)).step
      (addA (lit "100000") (lit "1000000") Alloc.all) := by
  have hcreate : ∃ db, subdbCreate Alloc.all = .ok db := ⟨_, rfl⟩
  obtain ⟨db, hdb⟩ := hcreate
  obtain ⟨-, b, hone, hid, hheld⟩ := firstAdd_one hdb
  have hroom : ∀ k < 2 ^ 32, Room [] k := fun k hk h => by simpa using hk
  have hnil : db.handles = [] := List.Perm.eq_nil (subdbCreate_inv hdb).indexed.handles_perm
  have h1 : (Store.init 16 Alloc.all).step (.create Alloc.all) =
      ⟨(sstrPoolInit SStrPool.start 16 Alloc.all).2, [some ⟨db, 0⟩], []⟩ := by
    simp only [Store.step, hdb]
    rfl
  have hfirst : Machine.Reach Store.step Store.May (Store.init 16 Alloc.all)
      ⟨(sstrPoolInit SStrPool.start 16 Alloc.all).2, [some ⟨db, 0⟩], []⟩ := by
    rw [← h1]
    exact .step .start ⟨trivial, trivial, hroom 0 (by decide)⟩
  refine ⟨_, _, b, ⟨.step (a := addA (lit "100000") (lit "1000000") Alloc.all) hfirst
    ⟨trivial, trivial, ?_⟩, hone, hid, hheld⟩, by rw [h1]; rfl⟩
  simp only [Store.refs, Store.dbRefs, List.flatMap_singleton, List.flatMap_nil, List.append_nil,
    Option.elim_some, hnil]
  exact hroom 3 (by decide)

theorem oneRecord_first : ∃ p db b, OneRecordStore p db b 0 := by
  obtain ⟨p, db, b, h, -⟩ := oneRecord_first_eq
  exact ⟨p, db, b, h⟩

theorem oneRecord_adds (n : ℕ) : ∃ p db b, OneRecordStore p db b n := by
  induction n with
  | zero => exact oneRecord_first
  | succ n ih =>
    obtain ⟨p, db, b, h⟩ := ih
    obtain ⟨hone, -, hmem⟩ := failedAdd_step h.one
    have hreach : Machine.Reach Store.step Store.May (Store.init 16 Alloc.all)
        ⟨(dbStep (p, db) failedAdd).1.1, [some ⟨(dbStep (p, db) failedAdd).1.2, n + 1 + 1⟩], []⟩ :=
      .step (a := addA (lit "200000") (lit "2000000") fun i => i != 14) h.reach
        ⟨trivial, trivial, h.room⟩
    exact ⟨_, _, b, hreach, hone, hmem ▸ h.id, hmem ▸ h.held⟩

theorem oneRecord_searches (n : ℕ) : ∃ p x snaps h,
    Machine.Reach Store.step Store.Holds (Store.init 16 Alloc.all) ⟨p, [some x], snaps⟩ ∧
      snaps.length = n ∧ ∀ s ∈ snaps, s.sub.name = some h := by
  obtain ⟨p, db, b, h⟩ := oneRecord_first
  obtain ⟨i, hi⟩ := h.held
  obtain ⟨listed, hinv⟩ := h.one.inv
  have hlisted := (hinv.young (by omega)).1
  have hget : htGet (idOps db.mem) db.byId (.value 1) = .ok b :=
    hinv.indexed.byId.get_ok_iff.mpr ⟨hlisted.mem_iff.mpr (List.mem_singleton.mpr rfl), h.id⟩
  suffices hrun : ∃ p snaps, Machine.Reach Store.step Store.Holds (Store.init 16 Alloc.all)
      ⟨p, [some ⟨db, 1⟩], snaps⟩ ∧ snaps.length = n ∧ ∀ s ∈ snaps, s.sub.name = some i by
    obtain ⟨p, snaps, hreach, hsnaps⟩ := hrun
    exact ⟨p, _, snaps, i, hreach, hsnaps⟩
  induction n with
  | zero => exact ⟨p, [], h.reach.mono fun _ _ hm => hm.1, rfl, fun s hs => by cases hs⟩
  | succ n ih =>
    obtain ⟨p, snaps, hreach, hlen, hsnaps⟩ := ih
    have hstep := Machine.Reach.step (a := StoreOp.search 0 (.byId 1) Alloc.all) hreach trivial
    simp only [Store.step, List.getElem?_cons_zero, Query.run, subdbSearchById, hget, searchResult,
      makeSnapshot, Alloc.all, Bool.not_true, Bool.false_eq_true, if_false, Except.map,
      List.map_cons, List.map_nil, List.singleton_append] at hstep
    refine ⟨_, _, hstep, by rw [List.length_cons, hlen], fun s hs => ?_⟩
    rcases List.mem_cons.mp hs with rfl | hs
    · exact hi
    · exact hsnaps s hs

/-- Two runs that do not fit. In the first there are more snapshots of a record
than `refcount` can count. In the second the id counter comes round, an add
that fails takes the older record out of `by_id`, and `subdb_destroy`, which
walks that table, leaves its texts in the pool. -/
theorem store_references_limits :
    (∃ s, Machine.Reach Store.step Store.Holds (Store.init 16 Alloc.all) s ∧
      ∃ h, (s.strs.cells h).refcount.toNat ≠ s.refs.count h) ∧
    ∃ s, Machine.Reach Store.step Store.Holds (Store.init 16 Alloc.all) s ∧
      s.dbs = [none] ∧ s.snaps = [] ∧ s.strs.table.nodes ≠ [] := by
  constructor
  · obtain ⟨p, x, snaps, h, hreach, hlen, hsnaps⟩ := oneRecord_searches (2 ^ 32)
    refine ⟨_, hreach, h, fun he => ?_⟩
    have hlt := (p.cells h).refcount.toNat_lt
    have hle : snaps.length ≤ (snaps.flatMap fun n => n.sub.handles).count h := by
      clear hreach hlen he
      induction snaps with
      | nil => exact Nat.zero_le _
      | cons s snaps ih =>
        have hrest := ih fun s hs => hsnaps s (List.mem_cons_of_mem _ hs)
        have hhead := hsnaps s (List.mem_cons_self ..)
        simp only [List.length_cons, List.flatMap_cons, List.count_append, Subscriber.handles,
          hhead, Option.toList_some, List.count_singleton_self] at hrest ⊢
        omega
    simp only [Store.refs, List.count_append] at he
    omega
  · have hrun : ∀ n, 2 + n = 1 + 2 ^ 64 → ∃ s,
        Machine.Reach Store.step Store.Holds (Store.init 16 Alloc.all) s ∧
          s.dbs = [none] ∧ s.snaps = [] ∧ s.strs.table.nodes ≠ [] := by
      intro n hn
      obtain ⟨p, db, b, h⟩ := oneRecord_adds n
      obtain ⟨bound, hinv⟩ := failedAdd_unlists (hn ▸ h.one) h.id
      obtain ⟨i, hi⟩ := h.held
      have hmem := (failedAdd_step h.one).2.2
      have hreach : Machine.Reach Store.step Store.May (Store.init 16 Alloc.all)
          ⟨(dbStep (p, db) failedAdd).1.1, [some ⟨(dbStep (p, db) failedAdd).1.2, n + 1 + 1⟩], []⟩ :=
        .step (a := addA (lit "200000") (lit "2000000") fun i => i != 14) h.reach
          ⟨trivial, trivial, h.room⟩
      generalize (dbStep (p, db) failedAdd).1 = t at hreach hinv hmem
      have hrefs := (hreach.invariant (Store.Inv.init 16 Alloc.all) fun _ _ h ha => h.step ha).refs
      have hheld : i ∈ t.2.handles := by
        refine hinv.indexed.handles_perm.mem_iff.mpr (List.mem_flatMap.mpr ⟨b, by simp, ?_⟩)
        rw [hmem]
        simp [Subscriber.handles, hi]
      have hempty : subdbDestroy t.1 t.2 Alloc.all = t.1 := by
        have hsize : htSize t.2.byId = 0 := hinv.indexed.byId.count
        have hnil : t.2.byId.entries = [] :=
          List.map_eq_nil_iff.mpr (List.map_eq_nil_iff.mp hinv.indexed.byId.values.eq_nil)
        simp [subdbDestroy, htIterate_eq, hnil, hsize, KeyMap.walk]
      have hend := Machine.Reach.step (a := StoreOp.destroy 0 Alloc.all)
        (hreach.mono fun _ _ hm => hm.1) rfl
      refine ⟨_, hend, rfl, rfl, fun hnodes => ?_⟩
      simp only [Store.step, List.getElem?_cons_zero, hempty] at hnodes
      obtain ⟨m, hm, -⟩ := (hrefs.entry i).mp (by
        simp only [Store.refs, Store.dbRefs, List.flatMap_singleton, List.flatMap_nil,
          List.append_nil, Option.elim_some]
        exact hheld)
      simp only at hm
      rw [hnodes] at hm
      cases hm
    exact hrun (2 ^ 64 - 1) (by omega)

end SubscriberMgmt
