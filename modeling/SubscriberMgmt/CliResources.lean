import SubscriberMgmt.CliSessions
import SubscriberMgmt.CliStore
import SubscriberMgmt.CsvRestart
import SubscriberMgmt.SubscriberSearch
import SubscriberMgmt.SubscriberUpdate

/-!
# References and blocks of the menu program (`main.c:480-526`)

The statistics of the menu count the blocks of the memory pool and the references
to shared strings. Each used block is a record with three references, and there
are no others when a menu is printed.
-/

namespace SubscriberMgmt
open StateHoare

/-! ### The blocks of the pool -/

/-- The peak is above what is used, and neither it nor the count of allocations goes back. -/
structure MemPool.Later (pool pool' : MemPool) : Prop where
  peak : pool.peakBlocks ≤ pool'.peakBlocks
  below : pool.usedBlocks ≤ pool.peakBlocks → pool'.usedBlocks ≤ pool'.peakBlocks
  allocs : pool.allocCount ≤ pool'.allocCount

theorem MemPool.Later.refl (pool : MemPool) : pool.Later pool := ⟨le_rfl, id, le_rfl⟩

theorem MemPool.Later.trans {p q r : MemPool} (h : p.Later q) (h' : q.Later r) : p.Later r :=
  ⟨h.peak.trans h'.peak, fun hb => h'.below (h.below hb), h.allocs.trans h'.allocs⟩

theorem takeBlock_later (pool : MemPool) : pool.Later (takeBlock pool).2 := by
  unfold takeBlock
  split
  · exact .refl pool
  · exact ⟨le_max_left _ _, fun _ => le_max_right _ _, Nat.le_succ _⟩

theorem growPool_later (pool : MemPool) (a : Alloc) : pool.Later (growPool pool a).2 := by
  unfold growPool
  split
  · exact .refl pool
  · split
    · exact .refl pool
    · exact ⟨le_rfl, id, le_rfl⟩

theorem mempoolAlloc_later (pool : MemPool) (a : Alloc) : pool.Later (mempoolAlloc pool a).2 := by
  have hgrow := growPool_later pool a
  unfold mempoolAlloc
  split
  · generalize growPool pool a = r at hgrow ⊢
    obtain ⟨st, pool'⟩ := r
    cases st with
    | ok => exact hgrow.trans (takeBlock_later pool')
    | _ => exact hgrow.trans ⟨le_rfl, id, le_rfl⟩
  · exact takeBlock_later pool

theorem takeBlock_count {pool : MemPool} {b : Block} (h : (takeBlock pool).1 = some b) :
    (takeBlock pool).2.allocCount = pool.allocCount + 1 := by
  unfold takeBlock at h ⊢
  split at h
  · cases h
  · rfl

theorem growPool_count (pool : MemPool) (a : Alloc) :
    (growPool pool a).2.allocCount = pool.allocCount := by
  unfold growPool
  split
  · rfl
  · split <;> rfl

theorem mempoolAlloc_count {pool : MemPool} {a : Alloc} {b : Block}
    (h : (mempoolAlloc pool a).1 = some b) :
    (mempoolAlloc pool a).2.allocCount = pool.allocCount + 1 := by
  have hgrow := growPool_count pool a
  unfold mempoolAlloc at h ⊢
  split at h
  next hempty =>
    rw [if_pos hempty]
    generalize growPool pool a = r at hgrow h ⊢
    obtain ⟨st, pool'⟩ := r
    cases st with
    | ok => rw [takeBlock_count h, hgrow]
    | _ => cases h
  next hempty =>
    rw [if_neg hempty]
    exact takeBlock_count h

theorem mempoolFree_later (pool : MemPool) (b : Block) : pool.Later (mempoolFree pool b) := by
  refine ⟨le_rfl, fun hb => ?_, le_rfl⟩
  have hle : (mempoolFree pool b).usedBlocks ≤ pool.usedBlocks := by
    simp only [mempoolFree]
    split <;> omega
  exact hle.trans hb

/-! ### What the calls do to the pool -/

section Calls

variable {p : SStrPool} {db : SubscriberDb} {base bound : ℕ} {listed live : List Block}

theorem insertRecord_pool (p : SStrPool) (db : SubscriberDb) (b : Block) (a : Alloc) :
    db.pool.Later (insertRecord p db b a).db.pool ∧
      (insertRecord p db b a).db.pool.allocCount = db.pool.allocCount := by
  obtain ⟨t1, t2, t3, hdb⟩ := indexRecord_frame db b a
  simp only [insertRecord]
  generalize indexRecord db b a = r at hdb ⊢
  obtain ⟨st, db'⟩ := r
  dsimp only at hdb
  subst hdb
  cases st with
  | ok => exact ⟨.refl _, rfl⟩
  | _ => exact ⟨mempoolFree_later db.pool b, rfl⟩

/-- An add without a block leaves all but the pool as it is. -/
theorem addRecord_pool (p : SStrPool) (db : SubscriberDb) (imsi msisdn name region plan : Str)
    (status : SubStatus) (now : Int64) (a : Alloc) :
    let r := addRecord p db imsi msisdn name region plan status now a
    db.pool.Later r.db.pool ∧ (r.db.pool.allocCount = db.pool.allocCount + 1 ∨
      (mempoolAlloc db.pool a).1 = none ∧
        r.db = { db with pool := (mempoolAlloc db.pool a).2 }) := by
  intro r
  have hlater := mempoolAlloc_later db.pool a
  have hcount := @mempoolAlloc_count db.pool a
  simp only [r, addRecord]
  generalize mempoolAlloc db.pool a = x at hlater hcount ⊢
  obtain ⟨_ | b, pool⟩ := x
  · exact ⟨hlater, Or.inr ⟨rfl, rfl⟩⟩
  · have hone := hcount rfl
    dsimp only at hlater hone ⊢
    generalize internTexts p name region plan (a.skip 2) = y
    obtain ⟨st, p', n, g, q⟩ := y
    cases st with
    | ok =>
      obtain ⟨hinsert, hsame⟩ := insertRecord_pool p'
        (db.place pool b (newRecord db.nextId imsi msisdn n g q status now)) b (a.skip 14)
      exact ⟨hlater.trans hinsert, Or.inl (hsame.trans hone)⟩
    | _ => exact ⟨hlater.trans (mempoolFree_later pool b), Or.inl hone⟩

/-- The records are counted by the ids that were used up, at most one for each block. -/
def BlocksCounted (db : SubscriberDb) : Prop :=
  ∃ listed live bound, DbInv db 1 listed live bound ∧ bound ≤ 1 + db.pool.allocCount

theorem subdbAdd_later (h : Indexed db listed live) (imsi msisdn name region plan : Option Str)
    (status : SubStatus) (outId : Bool) (now : Int64) (a : Alloc) :
    db.pool.Later (subdbAdd p db imsi msisdn name region plan status outId now a).db.pool := by
  rcases subdbAdd_refused_or p h imsi msisdn name region plan status outId now a with
    ⟨st, -, he⟩ | ⟨i, m, n, g, q, -, -, -, -, -, -, he⟩
  · rw [he]
    exact .refl _
  · rw [he]
    exact (addRecord_pool p db i m n g q status now a).1

theorem subdbAdd_blocks (h : DbInv db 1 listed live bound) (hb : bound ≤ 1 + db.pool.allocCount)
    (imsi msisdn name region plan : Option Str) (status : SubStatus) (outId : Bool) (now : Int64)
    (a : Alloc) :
    BlocksCounted (subdbAdd p db imsi msisdn name region plan status outId now a).db := by
  have hbound : ∃ listed' live' bound',
      DbInv (subdbAdd p db imsi msisdn name region plan status outId now a).db 1 listed' live'
        bound' ∧ bound' ≤ bound + 1 := by
    rcases subdbAdd_cases p h imsi msisdn name region plan status outId now a with
      ⟨-, -, -, hle, hinv, -⟩ | ⟨i, m, n, g, q, -, -, -, -, -, hd⟩
    · exact ⟨_, _, _, hinv, hle⟩
    · cases hd with
      | intro _ _ _ _ _ hinv _ => exact ⟨_, _, _, hinv, le_rfl⟩
  rcases subdbAdd_refused_or p h.indexed imsi msisdn name region plan status outId now a with
    ⟨st, -, he⟩ | ⟨i, m, n, g, q, -, -, -, -, -, -, he⟩
  · rw [he]
    exact ⟨listed, live, bound, h, hb⟩
  · rw [he] at hbound ⊢
    rcases (addRecord_pool p db i m n g q status now a).2 with hone | ⟨hnone, hsame⟩
    · obtain ⟨l, v, b, hinv, hle⟩ := hbound
      exact ⟨l, v, b, hinv, by omega⟩
    · have hown := (mempoolAlloc_spec h.owned a).resolve_right fun ⟨b, hsome, _⟩ => by
        rw [hnone] at hsome
        cases hsome
      have hallocs := (mempoolAlloc_later db.pool a).allocs
      rw [hsame]
      exact ⟨listed, live, bound, ⟨⟨h.indexed.byId, h.indexed.byImsi, h.indexed.byMsisdn,
        h.indexed.sub⟩, hown.2, h.next, h.base_le, h.young⟩, by dsimp only; omega⟩

theorem subdbDelete_pool (p : SStrPool) (db : SubscriberDb) (id : UInt64) :
    db.pool.Later (subdbDelete p db id).2.2.pool ∧
      (subdbDelete p db id).2.2.pool.allocCount = db.pool.allocCount := by
  unfold subdbDelete
  split
  · exact ⟨.refl _, rfl⟩
  · exact ⟨mempoolFree_later db.pool _, rfl⟩

theorem subdbUpdate_pool (p : SStrPool) (db : SubscriberDb) (id : UInt64)
    (name region plan : Option Str) (status : Option SubStatus) (now : Int64) (a : Alloc) :
    (subdbUpdate p db id name region plan status now a).2.2.pool = db.pool := by
  unfold subdbUpdate
  split
  · rfl
  · split <;> rfl

end Calls

/-! ### Records and their references -/

/-- As many blocks as the 32 bits of a count allow for, with every record listed at once. -/
def refLimit : ℕ := 2 ^ 29

section Counts

variable {db : SubscriberDb} {base bound : ℕ} {listed live : List Block}

theorem DbInv.used_eq (h : DbInv db base listed live bound) :
    db.records.length = db.pool.usedBlocks := by
  rw [h.indexed.records_perm.length_eq, List.length_map, h.owned.used]

theorem DbInv.handles_le (h : DbInv db base listed live bound) :
    db.handles.length ≤ 3 * db.pool.usedBlocks := by
  have hlen : ∀ l : List Subscriber, (l.flatMap Subscriber.handles).length ≤ 3 * l.length := by
    intro l
    induction l with
    | nil => exact Nat.zero_le _
    | cons s l ih =>
      have hs := s.handles_length
      rw [List.flatMap_cons, List.length_append, List.length_cons]
      omega
  rw [← h.used_eq]
  exact hlen db.records

theorem DbInv.count_le (h : DbInv db base listed live bound) :
    subdbCount db ≤ db.pool.usedBlocks := by
  have hcount : subdbCount db = listed.length := by
    rw [subdbCount, htSize, h.indexed.byId.count]
  have hnodup : listed.Nodup := h.indexed.byId.distinct.imp fun hne he => hne (by rw [he])
  rw [hcount, h.owned.used]
  exact (hnodup.subperm fun b hb => h.indexed.sub b hb).length_le

/-- There is room for one more search or call. -/
theorem DbInv.room (h : DbInv db base listed live bound) (hle : db.pool.usedBlocks ≤ refLimit) :
    Room db.handles (3 * refLimit) := by
  intro i
  have hcount := List.count_le_length (a := i) (l := db.handles)
  have hhandles := h.handles_le
  simp only [refLimit] at hle ⊢
  omega

theorem DbInv.takes_le (h : DbInv db base listed live bound)
    (hle : db.pool.usedBlocks ≤ refLimit) (q : Query) : q.takes db ≤ 3 * refLimit := by
  have hcount := h.count_le
  cases q with
  | byId id => exact Nat.le_mul_of_pos_right 3 (by decide)
  | byImsi imsi => exact Nat.le_mul_of_pos_right 3 (by decide)
  | byMsisdn msisdn => exact Nat.le_mul_of_pos_right 3 (by decide)
  | _ => exact Nat.mul_le_mul_left 3 (hcount.trans hle)

end Counts

/-- The law of the menu program. The pool of strings has the references of the records and of
the snapshots held, up to the limit. -/
structure Accounted (array : List Subscriber) (p : SStrPool) (db : SubscriberDb) : Prop where
  good : GoodState (p, db)
  below : db.pool.usedBlocks ≤ db.pool.peakBlocks
  blocks : BlocksCounted db
  refs : db.pool.peakBlocks ≤ refLimit → p.Refs (array.flatMap Subscriber.handles ++ db.handles)

section Accounted

variable {p : SStrPool} {db : SubscriberDb}

theorem Accounted.used_le {array : List Subscriber} (h : Accounted array p db)
    (hle : db.pool.peakBlocks ≤ refLimit) : db.pool.usedBlocks ≤ refLimit := h.below.trans hle

theorem Accounted.nil_refs (h : Accounted [] p db) (hle : db.pool.peakBlocks ≤ refLimit) :
    p.Refs (db.handles ++ []) := by
  rw [List.append_nil]
  exact h.refs hle

theorem Accounted.room (h : Accounted [] p db) (hle : db.pool.peakBlocks ≤ refLimit) :
    Room (db.handles ++ []) (3 * refLimit) := by
  obtain ⟨listed, live, bound, hinv, -⟩ := h.blocks
  rw [List.append_nil]
  exact hinv.room (h.used_le hle)

theorem Settled.refs {bound k : ℕ} (h : Settled 1 bound k [] p db) : p.Refs db.handles := by
  obtain ⟨listed, live, bound', -, -, hrefs⟩ := h
  rwa [List.append_nil] at hrefs

/-- A call that leads to a later pool, and keeps the references below the limit. -/
theorem Accounted.call {p' : SStrPool} {db' : SubscriberDb} (h : Accounted [] p db)
    (hgood : GoodState (p', db')) (hlater : db.pool.Later db'.pool) (hblocks : BlocksCounted db')
    (hcall : db.pool.peakBlocks ≤ refLimit → p'.Refs db'.handles) : Accounted [] p' db' :=
  ⟨hgood, hlater.below h.below, hblocks, fun hle => hcall (hlater.peak.trans hle)⟩

theorem three_le_limit : 3 ≤ 3 * refLimit := by decide

theorem Accounted.add (h : Accounted [] p db) (imsi msisdn name region plan : Option Str)
    (status : SubStatus) (outId : Bool) (now : Int64) (a : Alloc) :
    let r := subdbAdd p db imsi msisdn name region plan status outId now a
    Accounted [] r.strs r.db := by
  intro r
  obtain ⟨listed, live, bound, hinv, hb⟩ := h.blocks
  apply h.call (h.good.add ..) (subdbAdd_later hinv.indexed ..) (subdbAdd_blocks hinv hb ..)
  intro hle
  exact (subdbAdd_refs hinv (h.nil_refs hle) ((h.room hle).mono three_le_limit) ..).1.refs

theorem Accounted.delete (h : Accounted [] p db) (id : UInt64) :
    Accounted [] (subdbDelete p db id).2.1 (subdbDelete p db id).2.2 := by
  obtain ⟨hlater, hallocs⟩ := subdbDelete_pool p db id
  obtain ⟨listed, live, bound, hinv, hb⟩ := h.blocks
  have hblocks : BlocksCounted (subdbDelete p db id).2.2 := by
    rcases subdbDelete_cases p hinv id with he | ⟨b, listed', live', -, -, -, hinv', -⟩
    · rw [he]
      exact h.blocks
    · exact ⟨listed', live', bound, hinv', by omega⟩
  apply h.call (h.good.delete id) hlater hblocks
  intro hle
  exact (subdbDelete_refs hinv (h.nil_refs hle) id).refs

theorem Accounted.update (h : Accounted [] p db) (id : UInt64) (name region plan : Option Str)
    (status : Option SubStatus) (now : Int64) (a : Alloc) :
    let r := subdbUpdate p db id name region plan status now a
    Accounted [] r.2.1 r.2.2 := by
  intro r
  have hpool := subdbUpdate_pool p db id name region plan status now a
  obtain ⟨listed, live, bound, hinv, hb⟩ := h.blocks
  have hblocks : BlocksCounted r.2.2 := by
    rcases subdbUpdate_cases p hinv id name region plan status now a with
      ⟨st, -, he⟩ | ⟨b, -, x, -, -, -, -, he, hinv'⟩
    · rw [show r.2.2 = db from congrArg (·.2.2) he]
      exact h.blocks
    · rw [show r.2.2 = { db with mem := Function.update db.mem b x } from congrArg (·.2.2) he]
      exact ⟨listed, live, bound, hinv', hb⟩
  apply h.call (h.good.update ..) (hpool ▸ .refl _) hblocks
  intro hle
  exact (subdbUpdate_refs hinv (h.nil_refs hle) ((h.room hle).mono three_le_limit) id
    name region plan status now a).refs

theorem Accounted.loadLine (h : Accounted [] p db) (piece : Str) (now : Int64) (a : Alloc) :
    Accounted [] (loadLine p db piece now a).2.1 (loadLine p db piece now a).2.2 := by
  simp only [SubscriberMgmt.loadLine]
  split
  · exact h
  · split
    · exact h
    · split
      · exact h
      · exact h.add ..

theorem Accounted.loadLines (h : Accounted [] p db) (clock : ℕ → Int64) (a : Alloc) (i : ℕ)
    (pieces : List Str) :
    Accounted [] (loadLines p db clock a i pieces).2.1 (loadLines p db clock a i pieces).2.2 := by
  induction pieces generalizing p db i with
  | nil => exact h
  | cons piece pieces ih => exact ih (h.loadLine piece (clock i) (a.skip (20 * i))) (i + 1)

theorem Accounted.load (h : Accounted [] p db) (path : Option Str) (files : Str → Option Str)
    (clock : ℕ → Int64) (a : Alloc) :
    let r := subdbLoadCsv p db path files clock a
    Accounted [] r.strs r.db := by
  intro r
  simp only [r, subdbLoadCsv]
  cases path with
  | none => exact h
  | some path =>
    dsimp only
    split
    · exact h
    · split
      · exact h
      · split
        · exact h
        · exact h.loadLines clock a 0 _

/-- What happens to the pool of strings alone. -/
theorem Accounted.strings {array array' : List Subscriber} {p' : SStrPool}
    (h : Accounted array p db) (hk : p.Keeps p')
    (hrefs : db.pool.peakBlocks ≤ refLimit →
      p'.Refs (array'.flatMap Subscriber.handles ++ db.handles)) : Accounted array' p' db :=
  ⟨h.good.keeps hk, h.below, h.blocks, hrefs⟩

theorem Accounted.search (h : Accounted [] p db) (q : Query) (a : Alloc) :
    Accounted ((q.run p db a).1.toOption.getD []) (q.run p db a).2 db := by
  apply h.strings (Query.keeps p db a q)
  intro hle
  obtain ⟨listed, live, bound, hinv, -⟩ := h.blocks
  have hroom := (hinv.room (h.used_le hle)).mono (hinv.takes_le (h.used_le hle) q)
  have htaken := q.run_refs hinv (h.refs hle) (fun _ hh => hh) hroom a
  generalize q.run p db a = r at htaken ⊢
  obtain ⟨st | array, p'⟩ := r
  · exact htaken
  · exact htaken

theorem Accounted.free {array : List Subscriber} (h : Accounted array p db) :
    Accounted [] (subdbFreeResults p array) db := by
  apply h.strings (SStrPool.keeps_tracks.freeResults p array)
  intro hle
  exact (h.refs hle).freeResults (List.Perm.refl _)

theorem accounted_law : StoreLaw Accounted where
  add h _ _ _ _ _ _ _ := h.add ..
  delete h id := h.delete id
  update h _ _ _ _ _ _ _ := h.update ..
  load h path files clock a := h.load path files clock a
  search h q a := h.search q a
  free h := h.free

end Accounted

/-! ### What the statistics show -/

/-- The counts in the pool are those of the references there are. -/
theorem SStrPool.Refs.entries_perm_dedup {p : SStrPool} {held : List Handle} (h : p.Refs held) :
    (p.table.nodes.map HtNode.value).Perm held.dedup := by
  have hnodup : (p.table.nodes.map HtNode.value).Nodup :=
    h.wf.index.distinct.imp fun hne he => hne (by rw [he])
  refine (List.perm_ext_iff_of_nodup hnodup (List.nodup_dedup held)).mpr fun i => ?_
  rw [List.mem_dedup, h.entry i, List.mem_map]

theorem SStrPool.Refs.stats {p : SStrPool} {held : List Handle} (h : p.Refs held)
    {distinct refs bytes without : ℕ}
    (hstats : sstrPoolGetStats p = some (distinct, refs, bytes, without)) :
    distinct = held.dedup.length ∧ refs = held.length % sizeRange := by
  unfold sstrPoolGetStats at hstats
  split at hstats
  · cases hstats
  · simp only [Option.some.injEq, Prod.mk.injEq, List.length_map, List.map_map] at hstats
    obtain ⟨rfl, rfl, -, -⟩ := hstats
    have hperm := h.entries_perm_dedup
    refine ⟨by rw [← hperm.length_eq, List.length_map], ?_⟩
    have hcounts : (p.table.nodes.map ((fun s => s.refcount.toNat) ∘ fun n => p.cells n.value)) =
        (p.table.nodes.map HtNode.value).map fun i => held.count i := by
      rw [List.map_map]
      exact List.map_congr_left fun n _ => h.count n.value
    rw [hcounts, (hperm.map _).sum_eq, List.sum_map_count_dedup_eq_length]

/-- A good record has its three texts. -/
theorem GoodRecord.handles_length {p : SStrPool} {x : Subscriber} (h : GoodRecord p x) :
    x.handles.length = 3 := by
  obtain ⟨-, -, ⟨t, -, i, hi, -⟩, ⟨u, -, j, hj, -⟩, ⟨v, -, k, hk, -⟩⟩ := h
  rw [Subscriber.handles, hi, hj, hk]
  rfl

theorem GoodState.handles_length {p : SStrPool} {db : SubscriberDb} (h : GoodState (p, db)) :
    db.handles.length = 3 * db.pool.usedBlocks := by
  obtain ⟨-, _, listed, live, _, hinv, hgood⟩ := h
  have hthree : ∀ l : List Subscriber, (∀ x ∈ l, GoodRecord p x) →
      (l.flatMap Subscriber.handles).length = 3 * l.length := by
    intro l
    induction l with
    | nil => exact fun _ => rfl
    | cons x l ih =>
      intro hl
      have hx := (hl x (List.mem_cons_self ..)).handles_length
      have hrest := ih fun y hy => hl y (List.mem_cons_of_mem _ hy)
      rw [List.flatMap_cons, List.length_append, List.length_cons]
      omega
  rw [← hinv.used_eq]
  refine hthree db.records fun x hx => ?_
  obtain ⟨b, hb, rfl⟩ := List.mem_map.mp (hinv.indexed.records_perm.mem_iff.mp hx)
  exact hgood b hb

theorem startUp_accounted {prog : Program} {path : Str} {opened : Str → Option Str}
    {i : StartInput} {s : DbState} (h : startUp prog path opened i = some s) :
    Accounted [] s.1 s.2 := by
  obtain ⟨db, hdb, hp, rfl⟩ := startUp_cases h
  have hinv := subdbCreate_inv hdb
  have hused : db.pool.usedBlocks = 0 := hinv.owned.used
  have hrefs := (Store.Inv.init 1024 i.pool).refs
  have hnone : db.handles = [] := List.length_eq_zero_iff.mp
    (Nat.le_zero.mp (hinv.handles_le.trans_eq (by rw [hused])))
  have hnew : Accounted [] (sstrPoolInit SStrPool.start 1024 i.pool).2 db := by
    refine ⟨(GoodAfter.create hp hdb).good, hused ▸ Nat.zero_le _,
      ⟨[], [], 1, hinv, Nat.le_add_right _ _⟩, fun _ => ?_⟩
    rw [hnone]
    exact hrefs
  exact hnew.load ..

/-- In every run of the program, up to the limit of blocks, each text is referenced by the records
and nothing else when a menu is printed, and the statistics show three references for each used
block. -/
theorem menu_references_exact {path : Str} {opened : Str → Option Str} {i : StartInput}
    {s : DbState} (h : startUp .cli path opened i = some s) (auth : AuthState) (disk : Disk Str)
    (stdin : Str) (outside : ℕ → Outside) (n : ℕ) :
    let t := (menuRounds n (.start auth s.1 s.2 disk stdin outside)).2
    t.db.pool.peakBlocks ≤ refLimit →
      (∀ i, (t.strs.cells i).refcount.toNat = t.db.handles.count i) ∧
      (∀ m ∈ t.strs.table.nodes, m.value ∈ t.db.handles) ∧
      ∀ distinct refs bytes without,
        sstrPoolGetStats t.strs = some (distinct, refs, bytes, without) →
          distinct = t.db.handles.dedup.length ∧ refs = 3 * t.db.pool.usedBlocks := by
  intro t hpeak
  have hlaw : Accounted [] t.strs t.db :=
    menuRounds_held accounted_law n (.start auth s.1 s.2 disk stdin outside) (startUp_accounted h)
  have hrefs : t.strs.Refs t.db.handles := hlaw.refs hpeak
  refine ⟨hrefs.count, fun m hm => (hrefs.entry _).mpr ⟨m, hm, rfl⟩,
    fun distinct refs bytes without hstats => ?_⟩
  obtain ⟨hdistinct, htotal⟩ := hrefs.stats hstats
  have hlen := hlaw.good.handles_length
  have hused := hlaw.below.trans hpeak
  simp only [refLimit] at hused
  refine ⟨hdistinct, htotal.trans ?_⟩
  rw [hlen]
  exact Nat.mod_eq_of_lt (by simp only [sizeRange]; omega)

def typedNorth (s : DbState) : CliState :=
  (menuRounds 2 (.start loadedAdmin s.1 s.2 (Disk.start fun _ => none)
    (lit "1\nadmin\nx\n2\n310150000000002\n14155550102\nAnn\nNorth\nNorth\n")
    (calmOutside fun _ => 7))).2

/-- A region and a plan share one text. -/
theorem menu_references_exact_north : ∃ s,
    startUp .cli subscribersPath (fun _ => none) easyStart = some s ∧
      (typedNorth s).strs.table.nodes.length = 2 ∧
        ∀ distinct refs bytes without,
          sstrPoolGetStats (typedNorth s).strs = some (distinct, refs, bytes, without) →
            refs = 3 := by
  have hrun : ((startUp .cli subscribersPath (fun _ => none) easyStart).any fun s =>
      (typedNorth s).db.pool.peakBlocks ≤ refLimit ∧ (typedNorth s).db.pool.usedBlocks = 1 ∧
        (typedNorth s).strs.table.nodes.length = 2) = true := by decide +kernel
  obtain ⟨s, hs, hall⟩ := (Option.any_eq_true _ _).mp hrun
  obtain ⟨hpeak, hused, hnodes⟩ := of_decide_eq_true hall
  unfold typedNorth at hpeak
  have hstats := (menu_references_exact hs _ _ _ _ _ hpeak).2.2
  refine ⟨s, hs, hnodes, fun distinct refs bytes without h => ?_⟩
  rw [typedNorth] at hused h
  rw [(hstats distinct refs bytes without h).2, hused]

end SubscriberMgmt
