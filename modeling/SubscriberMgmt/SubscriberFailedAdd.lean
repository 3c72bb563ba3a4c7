import SubscriberMgmt.SubscriberStore
import SubscriberMgmt.SubscriberSearch

/-!
# An add that fails leaves no trace (`subscriber.c:270-349`)

After a failure the lists of live blocks and of references are the same as
before, and everything that callers see follows from these lists.
-/

namespace SubscriberMgmt

/-! ### What callers see of a database -/

/-- The interned strings with their texts and counts. -/
def SStrPool.entries (p : SStrPool) : List (Handle × Str × UInt32) :=
  p.table.nodes.map fun n => (n.value, (p.cells n.value).data, (p.cells n.value).refcount)

/-- The live records with the texts of their fields. -/
def contents (p : SStrPool) (db : SubscriberDb) : List Snapshot :=
  db.records.map (Snapshot.of p)

structure SameToCallers (p : SStrPool) (db : SubscriberDb) (p' : SStrPool) (db' : SubscriberDb) :
    Prop where
  records : (contents p' db').Perm (contents p db)
  byId : ∀ id a, (subdbSearchById p' db' id a).1 = (subdbSearchById p db id a).1
  byImsi : ∀ imsi a, (subdbSearchByImsi p' db' imsi a).1 = (subdbSearchByImsi p db imsi a).1
  byMsisdn : ∀ msisdn a,
    (subdbSearchByMsisdn p' db' msisdn a).1 = (subdbSearchByMsisdn p db msisdn a).1
  strings : p'.entries.Perm p.entries
  used : db'.pool.usedBlocks = db.pool.usedBlocks

theorem Indexes.get_eq {P A : Type*} [DecidableEq A] {hash : A → UInt64} {read read' : P → A}
    {t t' : HashTable (KeyRef P A) P} {live live' : List P} (h : Indexes hash read t live)
    (h' : Indexes hash read' t' live') (hp : live'.Perm live)
    (hread : ∀ p ∈ live, read' p = read p) (k : A) :
    htGet (KeyRef.ops hash read') t' (.value k) = htGet (KeyRef.ops hash read) t (.value k) := by
  cases hg : htGet (KeyRef.ops hash read) t (.value k) with
  | ok p =>
    obtain ⟨hm, hk⟩ := h.get_ok_iff.mp hg
    exact h'.get_ok_iff.mpr ⟨hp.mem_iff.mpr hm, (hread p hm).trans hk⟩
  | error e =>
    obtain ⟨he, habs⟩ := h.get_error_iff.mp hg
    refine h'.get_error_iff.mpr ⟨he, fun p hm hk => ?_⟩
    have hlive := hp.mem_iff.mp hm
    exact habs p hlive ((hread p hlive).symm.trans hk)

theorem searchResult_eq {p p' : SStrPool} {mem mem' : Block → Subscriber}
    {found : Except SmStatus Block} (hmem : ∀ b, found = .ok b → mem' b = mem b) (a : Alloc) :
    (searchResult p' mem' found a).1 = (searchResult p mem found a).1 := by
  cases found with
  | error st => rfl
  | ok b =>
    simp only [searchResult, makeSnapshot, hmem b rfl]
    cases a 0 <;> rfl

theorem SStrPool.Refs.entries_perm {p p' : SStrPool} {held held' : List Handle} (h : p.Refs held)
    (h' : p'.Refs held') (hp : held'.Perm held) (he : p.Extends p') :
    p'.entries.Perm p.entries := by
  have hvalues : (p'.table.nodes.map HtNode.value).Perm (p.table.nodes.map HtNode.value) := by
    have hnodup : ∀ {q : SStrPool}, q.WF → (q.table.nodes.map HtNode.value).Nodup := fun hq =>
      hq.index.distinct.imp fun hne heq => hne (by rw [heq])
    apply (List.perm_ext_iff_of_nodup (hnodup h'.wf) (hnodup h.wf)).mpr
    intro i
    rw [List.mem_map, List.mem_map, ← h'.entry i, ← h.entry i, hp.mem_iff]
  have hcells : (p.table.nodes.map HtNode.value).map
      (fun i => (i, (p'.cells i).data, (p'.cells i).refcount)) =
        (p.table.nodes.map HtNode.value).map fun i =>
          (i, (p.cells i).data, (p.cells i).refcount) := by
    apply List.map_congr_left
    intro i hi
    have hheld : i ∈ held := (h.entry i).mpr (List.mem_map.mp hi)
    have hcount : (p'.cells i).refcount = (p.cells i).refcount := by
      apply UInt32.toNat_inj.mp
      rw [h'.count, h.count, hp.count_eq]
    rw [he.data_eq i (h.lt_next hheld), hcount]
  have hmap := hvalues.map fun i => (i, (p'.cells i).data, (p'.cells i).refcount)
  rw [hcells, List.map_map, List.map_map] at hmap
  exact hmap

/-- The same live blocks with the same contents, and the same references. -/
theorem sameToCallers {p p' : SStrPool} {db db' : SubscriberDb} {base bound bound' : ℕ}
    {listed listed' live : List Block} {rest : List Handle} (h : DbInv db base listed live bound)
    (h' : DbInv db' base listed' live bound') (hbound : bound ≤ base + 2 ^ 64)
    (hbound' : bound' ≤ base + 2 ^ 64) (hmem : ∀ q ∈ live, db'.mem q = db.mem q)
    (hr : p.Refs (db.handles ++ rest)) (hr' : p'.Refs (db'.handles ++ rest))
    (he : p.Extends p') : SameToCallers p db p' db' := by
  have hlisted := (h.young hbound).1
  have hall : listed'.Perm listed := (h'.young hbound').1.trans hlisted.symm
  have hid := h.indexed.byId.get_eq h'.indexed.byId hall fun q hq => by
    rw [hmem q (h.indexed.sub q hq)]
  have himsi := h.indexed.byImsi.get_eq h'.indexed.byImsi (List.Perm.refl _) fun q hq => by
    rw [hmem q hq]
  have hmsisdn := h.indexed.byMsisdn.get_eq h'.indexed.byMsisdn (List.Perm.refl _) fun q hq => by
    rw [hmem q hq]
  refine ⟨?_, ?_, ?_, ?_, ?_, ?_⟩
  · have hsnap : (live.map db'.mem).map (Snapshot.of p') =
        (live.map db.mem).map (Snapshot.of p) := by
      rw [List.map_map, List.map_map]
      apply List.map_congr_left
      intro b hb
      simp only [Function.comp_apply, hmem b hb]
      exact Snapshot.of_extends he fun i hi => hr.lt_next (h.indexed.handles_mem hb hi)
    have hold := h.indexed.records_perm.map (Snapshot.of p)
    have hnew := h'.indexed.records_perm.map (Snapshot.of p')
    rw [hsnap] at hnew
    exact hnew.trans hold.symm
  · intro id a
    simp only [subdbSearchById, idOps, hid id]
    refine searchResult_eq (fun b hb => ?_) a
    exact hmem b (h.indexed.sub b (h.indexed.byId.get_ok_iff.mp hb).1)
  · intro imsi a
    cases imsi with
    | none => rfl
    | some imsi =>
      simp only [subdbSearchByImsi, imsiOps, himsi imsi]
      exact searchResult_eq (fun b hb => hmem b (h.indexed.byImsi.get_ok_iff.mp hb).1) a
  · intro msisdn a
    cases msisdn with
    | none => rfl
    | some msisdn =>
      simp only [subdbSearchByMsisdn, msisdnOps, hmsisdn msisdn]
      exact searchResult_eq (fun b hb => hmem b (h.indexed.byMsisdn.get_ok_iff.mp hb).1) a
  · have hperm := (handles_kept h.indexed h'.indexed hmem).append_right rest
    exact hr.entries_perm hr' hperm.symm he
  · rw [h'.owned.used, h.owned.used]

/-! ### The statement for every run -/

/-- In runs in which counts and ids have not come round, an add that fails changes nothing
that callers see and writes no id. -/
theorem failed_add_no_trace (hint : ℕ) (a₀ : Alloc) (s : Store)
    (hs : Machine.Reach Store.step Store.May (Store.init hint a₀) s) (d : ℕ) (x : StoredDb)
    (hd : s.dbs[d]? = some (some x)) (imsi msisdn name region plan : Option Str)
    (status : SubStatus) (outId : Bool) (now : Int64) (a : Alloc)
    (hmay : s.May (.add d imsi msisdn name region plan status outId now a))
    (hfew : x.adds < 2 ^ 64)
    (hst : (subdbAdd s.strs x.db imsi msisdn name region plan status outId now a).status ≠ .ok) :
    let r := subdbAdd s.strs x.db imsi msisdn name region plan status outId now a
    r.id = none ∧ SameToCallers s.strs x.db r.strs r.db := by
  intro r
  have hinv : s.Inv := hs.invariant (Store.Inv.init hint a₀) fun _ _ h ha => h.step ha
  obtain ⟨rest, hold, -⟩ := s.at_db hd
  obtain ⟨listed, live, bound, hdb, hbound⟩ := hinv.dbs x (List.mem_of_getElem? hd)
  have hrefs := hinv.refs.perm hold
  have hroom : Room (x.db.handles ++ rest) 3 := Room.perm hmay.2.2 hold
  have hkeep := SStrPool.Keeps.subdbAdd s.strs x.db imsi msisdn name region plan status outId now a
    hinv.refs.wf
  have hfailed := subdbAdd_failed hdb hrefs hroom imsi msisdn name region plan status outId now a
    hst
  rcases subdbAdd_cases s.strs hdb imsi msisdn name region plan status outId now a with
    ⟨-, hid, hlo, hhi, hinv', hmem⟩ | ⟨i, m, n, g, q, -, -, -, -, -, hdone⟩
  · have hperm := (handles_kept hdb.indexed hinv'.indexed hmem).append_right rest
    refine ⟨hid, sameToCallers hdb hinv' (by omega) (by omega) hmem hrefs (hfailed.perm hperm) ?_⟩
    exact hkeep.2.1
  · cases hdone with
    | intro hnew hb hok => exact absurd hok hst

/-- A second add that runs out of memory when its region is interned. -/
theorem failed_add_no_trace_second :
    let s := ((Store.init 16 Alloc.all).step (.create Alloc.all)).step
      (addA (lit "100000") (lit "1000000") Alloc.all)
    ∃ x, s.dbs[0]? = some (some x) ∧
      let r := subdbAdd s.strs x.db (some (lit "200000")) (some (lit "2000000")) (some (lit "A"))
        (some (lit "B")) (some (lit "A")) .active true 0 (fun i => i != 6)
      r.status = .errAllocFailed ∧ r.id = none ∧ SameToCallers s.strs x.db r.strs r.db := by
  intro s
  have hs : Machine.Reach Store.step Store.May (Store.init 16 Alloc.all) s := by
    refine .step (.step .start ?_) ?_
    · exact ⟨trivial, trivial, Room.of_length (by decide +kernel)⟩
    · exact ⟨trivial, trivial, Room.of_length (by decide +kernel)⟩
  have hlast : Room s.refs 3 := Room.of_length (by decide +kernel)
  have hx : ∃ x, s.dbs[0]? = some (some x) ∧ x.adds = 1 ∧
      (subdbAdd s.strs x.db (some (lit "200000")) (some (lit "2000000")) (some (lit "A"))
        (some (lit "B")) (some (lit "A")) .active true 0 (fun i => i != 6)).status =
          .errAllocFailed := ⟨_, rfl, rfl, by decide +kernel⟩
  obtain ⟨x, hd, hadds, hst⟩ := hx
  refine ⟨x, hd, hst, ?_⟩
  exact failed_add_no_trace 16 Alloc.all s hs 0 x hd _ _ _ _ _ .active true 0 (fun i => i != 6)
    ⟨trivial, trivial, hlast⟩ (by rw [hadds]; decide) (by rw [hst]; decide)

/-! ### Where counts and ids end -/

theorem sstrIntern_found {p : SStrPool} (hi : p.initialized = true) {text : Str}
    (hpos : 0 < text.length) (hlen : text.length ≤ 255) {h : Handle}
    (hg : htGet p.ops p.table (.value text) = .ok h) (a : Alloc) :
    sstrIntern p text a =
      (.ok h, sstrRetain p (some h)) := by
  have hl : ¬ (text.length = 0 ∨ 255 < text.length) := by omega
  simp only [sstrIntern, sstrRetain, hi, hl, hg, Bool.not_true, Bool.false_eq_true, if_false]

/-- One record and `n` snapshots of it, all of whose fields hold the string `h`. -/
structure OneString (p : SStrPool) (db : SubscriberDb) (snaps : List Snapshot) (n : ℕ)
    (h : Handle) : Prop where
  reach : Machine.Reach Store.step Store.May (Store.init 16 Alloc.all) ⟨p, [some ⟨db, 1⟩], snaps⟩
  one : ∃ b, OneRecord (p, db) b 2 ∧ (db.mem b).subscriberId = 1
  data : (p.cells h).data = lit "A"
  fields : db.handles.Perm (List.replicate 3 h)
  refs : (⟨p, [some ⟨db, 1⟩], snaps⟩ : Store).refs = List.replicate (3 * (n + 1)) h

theorem oneString_first : ∃ p db h, OneString p db [] 0 h := by
  obtain ⟨p, db, b, hone, hfirst⟩ := oneRecord_first_eq
  have hrefs : (((Store.init 16 Alloc.all).step (.create Alloc.all)).step
      (addA (lit "100000") (lit "1000000") Alloc.all)).refs = List.replicate 3 0 := by
    decide +kernel
  have hdata : ((((Store.init 16 Alloc.all).step (.create Alloc.all)).step
      (addA (lit "100000") (lit "1000000") Alloc.all)).strs.cells 0).data = lit "A" := by
    decide +kernel
  rw [← hfirst] at hrefs hdata
  refine ⟨p, db, 0, hone.reach, ⟨b, hone.one, hone.id⟩, hdata, ?_, hrefs⟩
  simpa [Store.refs, Store.dbRefs] using List.Perm.of_eq hrefs

theorem OneString.snapshot {p : SStrPool} {db : SubscriberDb} {snaps : List Snapshot} {n : ℕ}
    {h : Handle} (hs : OneString p db snaps n h) (hn : 3 * (n + 2) < 2 ^ 32) :
    ∃ p' snaps', OneString p' db snaps' (n + 1) h := by
  obtain ⟨b, hone, hid⟩ := hs.one
  obtain ⟨listed, hinv⟩ := hone.inv
  have hlisted := (hinv.young (by omega)).1
  have hget : htGet (idOps db.mem) db.byId (.value 1) = .ok b :=
    hinv.indexed.byId.get_ok_iff.mpr ⟨hlisted.mem_iff.mpr (List.mem_singleton.mpr rfl), hid⟩
  have hhandles : (db.mem b).handles = List.replicate 3 h := by
    have hperm := hinv.indexed.handles_perm.symm.trans hs.fields
    rw [List.flatMap_singleton] at hperm
    exact List.perm_replicate.mp hperm
  have hroom : Room (⟨p, [some ⟨db, 1⟩], snaps⟩ : Store).refs 3 := by
    intro i
    have hc : (⟨p, [some ⟨db, 1⟩], snaps⟩ : Store).refs.count i ≤ 3 * (n + 1) :=
      List.count_le_length.trans_eq (by rw [hs.refs, List.length_replicate])
    omega
  have hstep := Machine.Reach.step (a := StoreOp.search 0 (.byId 1) Alloc.all) hs.reach
    ⟨trivial, trivial, hroom⟩
  have hsame := SStrPool.sameTexts_tracks.searchResult p db.mem (.ok b) Alloc.all
  have hkeep := (SStrPool.keeps_tracks.searchResult p db.mem (.ok b) Alloc.all hone.strs).2.2
  simp only [Store.step, List.getElem?_cons_zero, Query.run, subdbSearchById, hget, searchResult,
    makeSnapshot, Alloc.all, Bool.not_true, Bool.false_eq_true, if_false, Except.map,
    List.map_cons, List.map_nil, List.singleton_append] at hstep hsame hkeep
  have hwf := (hstep.invariant (Store.Inv.init 16 Alloc.all) fun _ _ h ha => h.step ha).refs.wf
  refine ⟨_, _, hstep, ⟨b, ⟨hwf, ?_, ⟨listed, hinv⟩, hone.imsi, hone.msisdn⟩, hid⟩, ?_, hs.fields,
    ?_⟩
  · exact hkeep.trans hone.init
  · exact (hsame h).trans hs.data
  · have hrefs := hs.refs
    simp only [Store.refs, Store.dbRefs, List.flatMap_cons, Snapshot.of, hhandles] at hrefs ⊢
    refine List.perm_replicate.mp (List.perm_iff_count.mpr fun i => ?_)
    have hcount := congrArg (List.count i) hrefs
    simp only [List.count_append, List.count_replicate] at hcount ⊢
    cases hi : h == i with
    | true =>
      simp only [hi, if_true] at hcount ⊢
      omega
    | false =>
      simp only [hi, Bool.false_eq_true, if_false] at hcount ⊢
      omega

theorem oneString_snapshots (n : ℕ) (hn : 3 * (n + 1) < 2 ^ 32) :
    ∃ p db snaps h, OneString p db snaps n h := by
  induction n with
  | zero =>
    obtain ⟨p, db, h, hs⟩ := oneString_first
    exact ⟨p, db, [], h, hs⟩
  | succ n ih =>
    obtain ⟨p, db, snaps, h, hs⟩ := ih (by omega)
    obtain ⟨p', snaps', hs'⟩ := hs.snapshot (by omega)
    exact ⟨p', db, snaps', h, hs'⟩

/-- "A" is in the pool and nothing else. -/
theorem OneString.gets {p : SStrPool} {db : SubscriberDb} {snaps : List Snapshot} {n : ℕ}
    {h : Handle} (hs : OneString p db snaps n h) :
    p.Refs (List.replicate (3 * (n + 1)) h) ∧
      htGet p.ops p.table (.value (lit "A")) = .ok h ∧
      htGet p.ops p.table (.value (lit "B")) = .error .errNotFound := by
  have hrefs := (hs.reach.invariant (Store.Inv.init 16 Alloc.all) fun _ _ h ha => h.step ha).refs
  rw [hs.refs] at hrefs
  have hheld : h ∈ List.replicate (3 * (n + 1)) h := List.mem_replicate.mpr ⟨by omega, rfl⟩
  refine ⟨hrefs, ?_, ?_⟩
  · exact hrefs.wf.index.get_ok_iff.mpr ⟨List.mem_map.mpr ((hrefs.entry h).mp hheld), hs.data⟩
  · refine hrefs.wf.index.get_error_iff.mpr ⟨rfl, fun i hi hdata => ?_⟩
    have hih := List.eq_of_mem_replicate ((hrefs.entry i).mpr (List.mem_map.mp hi))
    rw [hih, hs.data] at hdata
    exact absurd hdata (by decide)

section Wrap

variable {p : SStrPool} {h : Handle}

/-- "A" is found and counted, and there is no memory for "B". -/
theorem internTexts_short (hi : p.initialized = true)
    (hA : htGet p.ops p.table (.value (lit "A")) = .ok h)
    (hB : htGet p.ops p.table (.value (lit "B")) = .error .errNotFound) :
    internTexts p (lit "A") (lit "B") (lit "A") (Alloc.skip (fun i => i != 6) 2) =
      (.errAllocFailed, sstrRetain p (some h), some h, none, none) := by
  have hops := SStrPool.setCell_ops p h { p.cells h with refcount := (p.cells h).refcount + 1 } rfl
  have hfound := sstrIntern_found hi (by decide) (by decide) hA
  have hshort : sstrIntern (sstrRetain p (some h)) (lit "B")
      (Alloc.skip (Alloc.skip (fun i => i != 6) 2) 4) =
        (.error .errAllocFailed, sstrRetain p (some h)) := by
    have hl : ¬ ((lit "B").length = 0 ∨ 255 < (lit "B").length) := by decide
    have hinit : (sstrRetain p (some h)).initialized = true := hi
    have htable : (sstrRetain p (some h)).table = p.table := rfl
    have hops' : (sstrRetain p (some h)).ops = p.ops := hops
    simp only [sstrIntern, hinit, hl, hops', htable, hB, Bool.not_true, Bool.false_eq_true,
      if_false]
    rfl
  simp only [internTexts, hfound, hshort]

/-- A count that has come round to 0 is not counted down again. -/
theorem release_wrapped (hzero : (p.cells h).refcount + 1 = 0) :
    sstrRelease (sstrRetain p (some h)) (some h) = sstrRetain p (some h) := by
  have hcell : ((sstrRetain p (some h)).cells h).refcount = 0 := by
    simp only [sstrRetain, SStrPool.setCell, Function.update_self, hzero]
  simp only [sstrRelease, hcell, if_true]

end Wrap

/-- With `2 ^ 32 - 1` references to "A", an add that interns "A" and then runs out of memory
leaves the count at 0. -/
theorem OneString.wraps {p : SStrPool} {db : SubscriberDb} {snaps : List Snapshot} {n : ℕ}
    {h : Handle} (hs : OneString p db snaps n h) (hn : 3 * (n + 1) = 2 ^ 32 - 1) :
    let r := subdbAdd p db (some (lit "200000")) (some (lit "2000000")) (some (lit "A"))
      (some (lit "B")) (some (lit "A")) .active true 0 (fun i => i != 6)
    r.status ≠ .ok ∧ ¬ r.strs.entries.Perm p.entries := by
  intro r
  obtain ⟨b, hone, -⟩ := hs.one
  obtain ⟨listed, hinv⟩ := hone.inv
  obtain ⟨hrefs, hA, hB⟩ := hs.gets
  have hheld : h ∈ List.replicate (3 * (n + 1)) h := List.mem_replicate.mpr ⟨by omega, rfl⟩
  have hcount : (p.cells h).refcount.toNat = 2 ^ 32 - 1 := by
    rw [hrefs.count, List.count_replicate_self, hn]
  have hzero : (p.cells h).refcount + 1 = 0 := by
    have h1 : (1 : UInt32).toNat = 1 := rfl
    apply UInt32.toNat_inj.mp
    rw [UInt32.toNat_add, hcount, h1]
    rfl
  have hnew : Addable db [b] (lit "200000") (lit "2000000") (lit "A") (lit "B") (lit "A") := by
    refine ⟨by decide, by decide, by decide, by decide, by decide, fun q hq => ?_, fun q hq => ?_⟩
    · rw [List.mem_singleton.mp hq, hone.imsi]
      decide
    · rw [List.mem_singleton.mp hq, hone.msisdn]
      decide
  have hr : r.status = .errAllocFailed ∧ r.strs = sstrRetain p (some h) := by
    have heq : r = _ := subdbAdd_eq p hinv.indexed hnew .active 0 (fun i => i != 6)
    obtain ⟨c, hc⟩ := mempoolAlloc_all hinv.owned.nonempty (a := fun i => i != 6) fun i hi => by
      have hne : i ≠ 6 := by omega
      simpa using hne
    rcases hm : mempoolAlloc db.pool (fun i => i != 6) with ⟨ob, pool⟩
    rw [hm] at hc
    simp only at hc
    subst hc
    rw [heq]
    simp only [addRecord, hm, internTexts_short hone.init hA hB, release_wrapped hzero]
    exact ⟨trivial, rfl⟩
  refine ⟨by rw [hr.1]; decide, fun hperm => ?_⟩
  -- the entry of "A" has its old count in the one pool and 0 in the other
  obtain ⟨m, hm, hv⟩ := (hrefs.entry h).mp hheld
  have hmem : (h, lit "A", (p.cells h).refcount) ∈ p.entries :=
    List.mem_map.mpr ⟨m, hm, by rw [hv, hs.data]⟩
  obtain ⟨m', -, he⟩ := List.mem_map.mp (hperm.mem_iff.mpr hmem)
  simp only [hr.2, Prod.mk.injEq] at he
  rw [he.1] at he
  simp only [sstrRetain, SStrPool.setCell, Function.update_self, hzero, true_and] at he
  rw [← he.2] at hcount
  exact absurd hcount (by decide)

/-- When the counter has come round to the id of a record, an add that fails takes the record
out of `by_id`. -/
theorem OneRecord.search_unlists {s : DbState} {b : Block} (h : OneRecord s b (1 + 2 ^ 64))
    (hid : (s.2.mem b).subscriberId = 1) (status : SubStatus) (now : Int64) {a : Alloc}
    (ha : ∀ i < 14, a i = true) :
    let r := subdbAdd s.1 s.2 (some (lit "200000")) (some (lit "2000000")) (some (lit "A"))
      (some (lit "A")) (some (lit "A")) status true now a
    r.status ≠ .ok ∧ (subdbSearchById s.1 s.2 1 Alloc.all).1 = .ok (s.2.mem b) ∧
      (subdbSearchById r.strs r.db 1 Alloc.all).1 = .error .errNotFound := by
  intro r
  obtain ⟨listed, hinv⟩ := h.inv
  obtain ⟨hst, bound, hlast⟩ := h.add_unlists hid status now ha
  have hlisted := (hinv.young le_rfl).1
  have hbefore : htGet (idOps s.2.mem) s.2.byId (.value 1) = .ok b :=
    hinv.indexed.byId.get_ok_iff.mpr ⟨hlisted.mem_iff.mpr (List.mem_singleton.mpr rfl), hid⟩
  have hafter : htGet (idOps r.db.mem) r.db.byId (.value 1) = .error .errNotFound :=
    hlast.indexed.byId.get_error_iff.mpr ⟨rfl, fun q hq => by cases hq⟩
  refine ⟨hst, ?_, ?_⟩
  · simp only [subdbSearchById, hbefore, searchResult, makeSnapshot]
    rfl
  · simp only [subdbSearchById, hafter, searchResult]

/-- Two failed adds that leave a trace: one at the last value of a count, one at the end of the
id counter. -/
theorem failed_add_limits :
    (∃ s, Machine.Reach Store.step Store.May (Store.init 16 Alloc.all) s ∧
      ∃ x, s.dbs[0]? = some (some x) ∧
        let r := subdbAdd s.strs x.db (some (lit "200000")) (some (lit "2000000")) (some (lit "A"))
          (some (lit "B")) (some (lit "A")) .active true 0 (fun i => i != 6)
        r.status ≠ .ok ∧ ¬ r.strs.entries.Perm s.strs.entries) ∧
    ∃ s, Machine.Reach Store.step Store.May (Store.init 16 Alloc.all) s ∧
      ∃ x, s.dbs[0]? = some (some x) ∧
        let r := subdbAdd s.strs x.db (some (lit "200000")) (some (lit "2000000")) (some (lit "A"))
          (some (lit "A")) (some (lit "A")) .active true 0 (fun i => i != 14)
        r.status ≠ .ok ∧ (subdbSearchById r.strs r.db 1 Alloc.all).1 ≠
          (subdbSearchById s.strs x.db 1 Alloc.all).1 := by
  constructor
  · obtain ⟨p, db, snaps, h, hs⟩ := oneString_snapshots 1431655764 (by decide)
    exact ⟨_, hs.reach, _, rfl, hs.wraps (by decide)⟩
  · have hrun : ∀ n, 2 + n = 1 + 2 ^ 64 → ∃ s,
        Machine.Reach Store.step Store.May (Store.init 16 Alloc.all) s ∧
          ∃ x, s.dbs[0]? = some (some x) ∧
            let r := subdbAdd s.strs x.db (some (lit "200000")) (some (lit "2000000"))
              (some (lit "A")) (some (lit "A")) (some (lit "A")) .active true 0 (fun i => i != 14)
            r.status ≠ .ok ∧ (subdbSearchById r.strs r.db 1 Alloc.all).1 ≠
              (subdbSearchById s.strs x.db 1 Alloc.all).1 := by
      intro n hn
      obtain ⟨p, db, b, h⟩ := oneRecord_adds n
      obtain ⟨hst, hbefore, hafter⟩ := (hn ▸ h.one).search_unlists h.id .active 0 failedAdd_memory
      refine ⟨_, h.reach, _, rfl, hst, ?_⟩
      rw [hbefore, hafter]
      exact fun he => by cases he
    exact hrun (2 ^ 64 - 1) (by omega)

end SubscriberMgmt
