import SubscriberMgmt.SubscriberIndex
import SubscriberMgmt.Lib.Machine

/-!
# Runs of a database

Any sequence of calls on a database, with calls on the shared string pool by
other parts of the process in between.
-/

namespace SubscriberMgmt

inductive DbOp where
  | add (imsi msisdn name region plan : Option Str) (status : SubStatus) (outId : Bool)
      (now : Int64) (a : Alloc)
  | delete (id : UInt64)
  | update (id : UInt64) (name region plan : Option Str) (status : Option SubStatus)
      (now : Int64) (a : Alloc)
  | searchById (id : UInt64) (a : Alloc)
  | searchByImsi (imsi : Option Str) (a : Alloc)
  | searchByMsisdn (msisdn : Option Str) (a : Alloc)
  | searchByRegion (region : Option Str) (a : Alloc)
  | searchByPlan (plan : Option Str) (a : Alloc)
  | searchByStatus (status : SubStatus) (a : Alloc)
  | listAll (a : Alloc)
  | loadCsv (path : Option Str) (files : Str → Option Str) (clock : ℕ → Int64) (a : Alloc)
  | strings (op : StrOp)

structure DbOut where
  adds : ℕ
  ids : List UInt64

def LineOutcome.out : LineOutcome → DbOut
  | .refused _ => ⟨1, []⟩
  | .added id => ⟨1, [id]⟩
  | _ => ⟨0, []⟩

def DbOut.zero : DbOut := ⟨0, []⟩

def DbOut.plus (x y : DbOut) : DbOut := ⟨x.adds + y.adds, x.ids ++ y.ids⟩

def DbOut.total (l : List DbOut) : DbOut := l.foldr DbOut.plus DbOut.zero

abbrev DbState := SStrPool × SubscriberDb

def dbStep (s : DbState) : DbOp → DbState × DbOut
  | .add imsi msisdn name region plan status outId now a =>
    let r := subdbAdd s.1 s.2 imsi msisdn name region plan status outId now a
    ((r.strs, r.db), ⟨1, r.id.toList⟩)
  | .delete id => ((subdbDelete s.1 s.2 id).2, .zero)
  | .update id name region plan status now a =>
    ((subdbUpdate s.1 s.2 id name region plan status now a).2, .zero)
  | .searchById id a => (((subdbSearchById s.1 s.2 id a).2, s.2), .zero)
  | .searchByImsi imsi a => (((subdbSearchByImsi s.1 s.2 imsi a).2, s.2), .zero)
  | .searchByMsisdn msisdn a => (((subdbSearchByMsisdn s.1 s.2 msisdn a).2, s.2), .zero)
  | .searchByRegion region a => (((subdbSearchByRegion s.1 s.2 region a).2, s.2), .zero)
  | .searchByPlan plan a => (((subdbSearchByPlan s.1 s.2 plan a).2, s.2), .zero)
  | .searchByStatus status a => (((subdbSearchByStatus s.1 s.2 status a).2, s.2), .zero)
  | .listAll a => (((subdbListAll s.1 s.2 a).2, s.2), .zero)
  | .loadCsv path files clock a =>
    let r := subdbLoadCsv s.1 s.2 path files clock a
    ((r.strs, r.db), DbOut.total (r.lines.map LineOutcome.out))
  | .strings op => ((strStep s.1 op, s.2), .zero)

def dbFinal (s : DbState) (calls : List DbOp) : DbState := Machine.final dbStep s calls

def dbAdds (s : DbState) (calls : List DbOp) : DbOut :=
  DbOut.total (Machine.outputs dbStep s calls)

@[simp] theorem dbAdds_cons (s : DbState) (op : DbOp) (calls : List DbOp) :
    dbAdds s (op :: calls) = (dbStep s op).2.plus (dbAdds (dbStep s op).1 calls) := rfl

/-! ### Ids -/

def IdsFrom (lo hi : ℕ) (ids : List UInt64) : Prop :=
  ∃ js : List ℕ, js.Nodup ∧ (∀ j ∈ js, lo ≤ j ∧ j < hi) ∧ ids = js.map UInt64.ofNat

theorem IdsFrom.nil (lo hi : ℕ) : IdsFrom lo hi [] := ⟨[], List.nodup_nil, by simp, rfl⟩

theorem IdsFrom.single (lo : ℕ) : IdsFrom lo (lo + 1) [UInt64.ofNat lo] :=
  ⟨[lo], List.nodup_singleton _, by simp, rfl⟩

theorem IdsFrom.append {lo mid hi : ℕ} {xs ys : List UInt64} (hx : IdsFrom lo mid xs)
    (hy : IdsFrom mid hi ys) (hlo : lo ≤ mid) (hhi : mid ≤ hi) : IdsFrom lo hi (xs ++ ys) := by
  obtain ⟨is, hin, hi', rfl⟩ := hx
  obtain ⟨js, hjn, hj, rfl⟩ := hy
  refine ⟨is ++ js, List.nodup_append.mpr ⟨hin, hjn, fun i him j hjm => ?_⟩, fun j hjm => ?_,
    (List.map_append ..).symm⟩
  · have h1 := hi' i him
    have h2 := hj j hjm
    omega
  · rcases List.mem_append.mp hjm with h | h
    · have h1 := hi' j h
      omega
    · have h2 := hj j h
      omega

theorem IdsFrom.of_lt {lo hi : ℕ} {ids : List UInt64} (h : IdsFrom lo hi ids)
    (hhi : hi ≤ 2 ^ 64) : ids.Nodup ∧ ∀ id ∈ ids, id.toNat < hi := by
  obtain ⟨js, hn, hj, rfl⟩ := h
  have hnat : ∀ j ∈ js, (UInt64.ofNat j).toNat = j := fun j hjm => by
    have hlt := (hj j hjm).2
    rw [UInt64.toNat_ofNat', Nat.mod_eq_of_lt (by omega)]
  refine ⟨List.Nodup.map_on (fun i him j hjm hij => ?_) hn, fun id hid => ?_⟩
  · rw [← hnat i him, hij, hnat j hjm]
  · obtain ⟨j, hjm, rfl⟩ := List.mem_map.mp hid
    rw [hnat j hjm]
    exact (hj j hjm).2

/-! ### Steps -/

/-- A step from counter `bound` with output `out` to the database `db`. -/
def StepInv (base bound : ℕ) (out : DbOut) (db : SubscriberDb) : Prop :=
  ∃ listed live bound', DbInv db base listed live bound' ∧ bound ≤ bound' ∧
    bound' ≤ bound + out.adds ∧ IdsFrom bound bound' out.ids

theorem StepInv.still {db : SubscriberDb} {base bound : ℕ} {listed live : List Block}
    (h : DbInv db base listed live bound) : StepInv base bound .zero db :=
  ⟨listed, live, bound, h, le_rfl, Nat.le_add_right _ _, .nil _ _⟩

theorem StepInv.plus {base bound : ℕ} {x y : DbOut} {db db' : SubscriberDb}
    (hx : StepInv base bound x db)
    (hy : ∀ listed live bound', DbInv db base listed live bound' → StepInv base bound' y db') :
    StepInv base bound (x.plus y) db' := by
  obtain ⟨listed, live, b1, hinv, hlo, hhi, hids⟩ := hx
  obtain ⟨listed', live', b2, hinv', hlo', hhi', hids'⟩ := hy listed live b1 hinv
  refine ⟨listed', live', b2, hinv', hlo.trans hlo', ?_, hids.append hids' hlo hlo'⟩
  simp only [DbOut.plus]
  omega

section Step

variable {db : SubscriberDb} {base : ℕ} {listed live : List Block} {bound : ℕ}

theorem subdbAdd_step (strs : SStrPool) (h : DbInv db base listed live bound)
    (imsi msisdn name region plan : Option Str) (status : SubStatus) (outId : Bool)
    (now : Int64) (a : Alloc) :
    let r := subdbAdd strs db imsi msisdn name region plan status outId now a
    StepInv base bound ⟨1, r.id.toList⟩ r.db ∧ r.outcome.out = ⟨1, r.id.toList⟩ := by
  intro r
  rcases subdbAdd_cases strs h imsi msisdn name region plan status outId now a with
    ⟨hst, hid, hlo, hhi, hinv, -⟩ | ⟨i, m, n, g, p, -, -, -, -, -, hd⟩
  · have hout : r.outcome.out = ⟨1, []⟩ := by
      unfold AddResult.outcome
      split
      · rename_i hok
        exact absurd hok hst
      · rfl
    simp only [r, hid, Option.toList_none] at hout ⊢
    exact ⟨⟨_, live, _, hinv, hlo, hhi, .nil _ _⟩, hout⟩
  · obtain ⟨hnew, hb, hst, hid, htexts, hinv, hmem⟩ := hd
    have hout : r.outcome.out = ⟨1, [db.nextId]⟩ := by
      simp only [AddResult.outcome, r, hst, hid, Option.getD_some, LineOutcome.out]
    simp only [r, hid, Option.toList_some] at hout ⊢
    refine ⟨⟨_, _, _, hinv, Nat.le_succ _, le_rfl, ?_⟩, hout⟩
    rw [h.next]
    exact .single bound

theorem loadLine_step (strs : SStrPool) (h : DbInv db base listed live bound) (piece : Str)
    (now : Int64) (a : Alloc) :
    StepInv base bound (loadLine strs db piece now a).1.out
      (loadLine strs db piece now a).2.2 := by
  simp only [loadLine]
  split
  · exact .still h
  · split
    · exact .still h
    · split
      · exact .still h
      · obtain ⟨hinv, hout⟩ := subdbAdd_step strs h _ _ _ _ _ _ _ _ _
        rw [hout]
        exact hinv

theorem loadLines_step (strs : SStrPool) (h : DbInv db base listed live bound)
    (clock : ℕ → Int64) (a : Alloc) (i : ℕ) (pieces : List Str) :
    let r := loadLines strs db clock a i pieces
    StepInv base bound (DbOut.total (r.1.map LineOutcome.out)) r.2.2 := by
  induction pieces generalizing strs db listed live bound i with
  | nil => exact .still h
  | cons piece pieces ih =>
    have hline := loadLine_step strs h piece (clock i) (a.skip (20 * i))
    simp only [loadLines]
    generalize loadLine strs db piece (clock i) (a.skip (20 * i)) = x at hline ⊢
    exact hline.plus fun listed' live' b1 hinv => ih x.2.1 hinv (i + 1)

theorem subdbLoadCsv_step (strs : SStrPool) (h : DbInv db base listed live bound)
    (path : Option Str) (files : Str → Option Str) (clock : ℕ → Int64) (a : Alloc) :
    let r := subdbLoadCsv strs db path files clock a
    StepInv base bound (DbOut.total (r.lines.map LineOutcome.out)) r.db := by
  simp only
  unfold subdbLoadCsv
  split
  · exact .still h
  · split
    · exact .still h
    · split
      · exact .still h
      · split
        · exact .still h
        · exact loadLines_step strs h clock a 0 _

end Step

theorem dbStep_inv {s : DbState} {base bound : ℕ} {listed live : List Block}
    (h : DbInv s.2 base listed live bound) (op : DbOp) :
    StepInv base bound (dbStep s op).2 (dbStep s op).1.2 := by
  cases op with
  | add imsi msisdn name region plan status outId now a =>
    exact (subdbAdd_step s.1 h imsi msisdn name region plan status outId now a).1
  | delete id =>
    rcases subdbDelete_cases s.1 h id with he | ⟨b, listed', live', -, -, -, hinv, -⟩
    · simp only [dbStep, he]
      exact .still h
    · exact .still hinv
  | update id name region plan status now a =>
    rcases subdbUpdate_cases s.1 h id name region plan status now a with
      ⟨st, -, he⟩ | ⟨b, -, x, -, -, -, -, he, hinv⟩
    · simp only [dbStep, he]
      exact .still h
    · simp only [dbStep, he]
      exact .still hinv
  | loadCsv path files clock a => exact subdbLoadCsv_step s.1 h path files clock a
  | _ => exact .still h

theorem dbFinal_inv {s : DbState} {base bound : ℕ} {listed live : List Block}
    (h : DbInv s.2 base listed live bound) (calls : List DbOp) :
    StepInv base bound (dbAdds s calls) (dbFinal s calls).2 := by
  induction calls generalizing s listed live bound with
  | nil => exact .still h
  | cons op calls ih =>
    rw [dbAdds_cons]
    exact (dbStep_inv h op).plus fun listed' live' b1 hinv => ih hinv

theorem subdbCreate_inv {a : Alloc} {db : SubscriberDb} (h : subdbCreate a = .ok db) :
    DbInv db 1 [] [] 1 := by
  unfold subdbCreate at h
  split at h
  · cases h
  · simp only [bind, Except.bind, pure, Except.pure] at h
    split at h <;> try cases h
    rename_i t1 h1
    split at h <;> try cases h
    rename_i t2 h2
    split at h <;> try cases h
    rename_i t3 h3
    split at h <;> try cases h
    rename_i pool hpool
    rw [htCreate_ok h1, htCreate_ok h2, htCreate_ok h3]
    have hp := nextPrime_pos 1024
    exact ⟨⟨.empty _ _ hp _ _, .empty _ _ hp _ _, .empty _ _ hp _ _, by simp⟩,
      mempoolCreate_owned hpool, rfl, le_rfl, fun _ => ⟨List.Perm.refl _, by simp [Counted]⟩⟩

/-! ### The statement for every run -/

/-- The three indexes, the pool and the counts say the same about the live
records. -/
structure InStep (db : SubscriberDb) (live : List Block) : Prop where
  idEntries : db.byId.entries.Perm (live.map fun b => (.field b, b))
  imsiEntries : db.byImsi.entries.Perm (live.map fun b => (.field b, b))
  msisdnEntries : db.byMsisdn.entries.Perm (live.map fun b => (.field b, b))
  foundById : ∀ id b, htGet (idOps db.mem) db.byId (.value id) = .ok b ↔
    b ∈ live ∧ (db.mem b).subscriberId = id
  foundByImsi : ∀ imsi b, htGet (imsiOps db.mem) db.byImsi (.value imsi) = .ok b ↔
    b ∈ live ∧ (db.mem b).imsi.chars = imsi
  foundByMsisdn : ∀ msisdn b, htGet (msisdnOps db.mem) db.byMsisdn (.value msisdn) = .ok b ↔
    b ∈ live ∧ (db.mem b).msisdn.chars = msisdn
  distinct : live.Pairwise fun b c => (db.mem b).subscriberId ≠ (db.mem c).subscriberId ∧
    (db.mem b).imsi.chars ≠ (db.mem c).imsi.chars ∧
    (db.mem b).msisdn.chars ≠ (db.mem c).msisdn.chars
  notFree : ∀ b ∈ live, b ∉ db.pool.freeList
  count : subdbCount db = live.length
  listed : ∀ strs strs' a arr, subdbListAll strs db a = (.ok arr, strs') →
    arr.length = live.length
  used : db.pool.usedBlocks = live.length

theorem Indexes.entries {P A : Type*} [DecidableEq A] {hash : A → UInt64} {read : P → A}
    {t : HashTable (KeyRef P A) P} {live : List P} (h : Indexes hash read t live) :
    t.entries.Perm (live.map fun p => (.field p, p)) := by
  have he : t.entries = (t.nodes.map HtNode.value).map fun p => (KeyRef.field p, p) := by
    rw [List.map_map]
    apply List.map_congr_left
    intro n hn
    simp only [Function.comp, h.own n hn]
  rw [he]
  exact h.values.map _

theorem DbInv.inStep {db : SubscriberDb} {base bound : ℕ} {listed live : List Block}
    (h : DbInv db base listed live bound) (hbound : bound ≤ base + 2 ^ 64) : InStep db live :=
  have hid := h.indexed.byId.perm (h.young hbound).1
  { idEntries := hid.entries
    imsiEntries := h.indexed.byImsi.entries
    msisdnEntries := h.indexed.byMsisdn.entries
    foundById := fun _ _ => hid.get_ok_iff
    foundByImsi := fun _ _ => h.indexed.byImsi.get_ok_iff
    foundByMsisdn := fun _ _ => h.indexed.byMsisdn.get_ok_iff
    distinct := hid.distinct.and (h.indexed.byImsi.distinct.and h.indexed.byMsisdn.distinct)
    notFree := fun _ hb => h.owned.not_free hb
    count := hid.count
    listed := fun strs strs' a arr he => by
      rw [subdbListAll_ok he, List.length_map, ← hid.wf.counted]
      exact hid.count
    used := h.owned.used }

/-- After every run of a created database everything is in step and the ids
given out differ; they are below `next_id` until the counter wraps around. -/
theorem subdb_runs_in_step (strs : SStrPool) (a : Alloc) (db : SubscriberDb)
    (hcreate : subdbCreate a = .ok db) (calls : List DbOp)
    (hadds : (dbAdds (strs, db) calls).adds < 2 ^ 64) :
    (∃ live, InStep (dbFinal (strs, db) calls).2 live) ∧
      (dbAdds (strs, db) calls).ids.Nodup ∧
      ((dbAdds (strs, db) calls).adds < 2 ^ 64 - 1 →
        ∀ id ∈ (dbAdds (strs, db) calls).ids, id < (dbFinal (strs, db) calls).2.nextId) := by
  have h0 : DbInv (strs, db).2 1 [] [] 1 := subdbCreate_inv hcreate
  obtain ⟨listed, live, bound, hinv, hlo, hhi, hids⟩ := dbFinal_inv h0 calls
  have hids' := hids.of_lt (by omega)
  refine ⟨⟨live, hinv.inStep (by omega)⟩, hids'.1, fun hfew id hid => ?_⟩
  have hlt := hids'.2 id hid
  rw [UInt64.lt_iff_toNat_lt, hinv.next, UInt64.toNat_ofNat', Nat.mod_eq_of_lt (by omega)]
  exact hlt

/-- A successful add, one that is refused as a duplicate, one whose first put
fails, and a delete. -/
theorem subdb_runs_in_step_rollback :
    let text := some (lit "A")
    let calls : List DbOp :=
      [.strings (.init 16 Alloc.all),
        .add (some (lit "100000")) (some (lit "1000000")) text text text .active true 0 Alloc.all,
        .add (some (lit "100000")) (some (lit "2000000")) text text text .active true 0 Alloc.all,
        .add (some (lit "200000")) (some (lit "2000000")) text text text .active true 0
          (fun i => i != 14),
        .delete 1]
    ∃ db, subdbCreate Alloc.all = .ok db ∧
      (dbAdds (SStrPool.start, db) calls).adds < 2 ^ 64 ∧
      (∃ live, InStep (dbFinal (SStrPool.start, db) calls).2 live) ∧
      (dbAdds (SStrPool.start, db) calls).ids.Nodup ∧
      ((dbAdds (SStrPool.start, db) calls).adds < 2 ^ 64 - 1 →
        ∀ id ∈ (dbAdds (SStrPool.start, db) calls).ids,
          id < (dbFinal (SStrPool.start, db) calls).2.nextId) := by
  intro text calls
  have hcreate : ∃ db, subdbCreate Alloc.all = .ok db := ⟨_, rfl⟩
  obtain ⟨db, hdb⟩ := hcreate
  have hadds : (dbAdds (SStrPool.start, db) calls).adds = 3 := rfl
  have hlt : (dbAdds (SStrPool.start, db) calls).adds < 2 ^ 64 := by
    rw [hadds]
    decide
  exact ⟨db, hdb, hlt, subdb_runs_in_step _ _ db hdb calls hlt⟩

/-! ### The counter at its end -/

def failedAdd : DbOp :=
  .add (some (lit "200000")) (some (lit "2000000")) (some (lit "A")) (some (lit "A"))
    (some (lit "A")) .active true 0 (fun i => i != 14)

def wrapCalls (n : ℕ) : List DbOp :=
  .strings (.init 16 Alloc.all) ::
    .add (some (lit "100000")) (some (lit "1000000")) (some (lit "A")) (some (lit "A"))
      (some (lit "A")) .active true 0 Alloc.all ::
    List.replicate n failedAdd

structure OneRecord (s : DbState) (b : Block) (bound : ℕ) : Prop where
  strs : s.1.WF
  init : s.1.initialized = true
  inv : ∃ listed, DbInv s.2 1 listed [b] bound
  imsi : (s.2.mem b).imsi.chars = lit "100000"
  msisdn : (s.2.mem b).msisdn.chars = lit "1000000"

theorem OneRecord.addable {s : DbState} {b : Block} {bound : ℕ} (h : OneRecord s b bound) :
    Addable s.2 [b] (lit "200000") (lit "2000000") (lit "A") (lit "A") (lit "A") := by
  refine ⟨by decide, by decide, by decide, by decide, by decide, fun q hq => ?_, fun q hq => ?_⟩
  · rw [List.mem_singleton.mp hq, h.imsi]
    decide
  · rw [List.mem_singleton.mp hq, h.msisdn]
    decide

/-- The memory for all but the first put. -/
theorem failedAdd_memory : ∀ i < 14, (fun i => i != 14 : Alloc) i = true := by
  intro i hi
  have hne : i ≠ 14 := by omega
  simpa using hne

theorem failedAdd_reaches {s : DbState} {b : Block} {bound : ℕ} (h : OneRecord s b bound)
    {listed : List Block} (hinv : DbInv s.2 1 listed [b] bound) :
    let r := dbStep s failedAdd
    r.2 = ⟨1, []⟩ ∧ r.1.1.WF ∧ r.1.1.initialized = true ∧ r.1.2.mem b = s.2.mem b ∧
      ∃ listed', DbInv r.1.2 1 listed' [b] (bound + 1) := by
  have hkeep := SStrPool.Keeps.subdbAdd s.1 s.2 (some (lit "200000")) (some (lit "2000000"))
    (some (lit "A")) (some (lit "A")) (some (lit "A")) .active true 0 (fun i => i != 14) h.strs
  have heq := subdbAdd_eq s.1 hinv.indexed h.addable .active 0 (fun i => i != 14)
  rcases addRecord_reaches hinv h.addable h.strs h.init .active 0 failedAdd_memory with
    ⟨⟨h14, -⟩, -⟩ | ⟨-, hst, hid, ⟨listed', hinv', -⟩, hmem⟩
  · exact absurd h14 (by decide)
  · rw [← heq] at hid hinv' hmem
    refine ⟨?_, hkeep.1, hkeep.2.2.trans h.init, hmem b (List.mem_singleton.mpr rfl), listed',
      hinv'⟩
    simp only [dbStep, failedAdd, hid, Option.toList_none]

theorem failedAdd_step {s : DbState} {b : Block} {bound : ℕ} (h : OneRecord s b bound) :
    OneRecord (dbStep s failedAdd).1 b (bound + 1) ∧ (dbStep s failedAdd).2 = ⟨1, []⟩ ∧
      (dbStep s failedAdd).1.2.mem b = s.2.mem b := by
  obtain ⟨listed, hinv⟩ := h.inv
  obtain ⟨hout, hwf, hinit, hmem, listed', hinv'⟩ := failedAdd_reaches h hinv
  refine ⟨⟨hwf, hinit, ⟨listed', hinv'⟩, ?_, ?_⟩, hout, hmem⟩
  · rw [hmem, h.imsi]
  · rw [hmem, h.msisdn]

/-- An add when the counter has come round to the id of the only record fails and takes
that record out of `by_id`. -/
theorem OneRecord.add_unlists {s : DbState} {b : Block} (h : OneRecord s b (1 + 2 ^ 64))
    (hid : (s.2.mem b).subscriberId = 1) (status : SubStatus) (now : Int64) {a : Alloc}
    (ha : ∀ i < 14, a i = true) :
    let r := subdbAdd s.1 s.2 (some (lit "200000")) (some (lit "2000000")) (some (lit "A"))
      (some (lit "A")) (some (lit "A")) status true now a
    r.status ≠ .ok ∧ ∃ bound, DbInv r.db 1 [] [b] bound := by
  intro r
  obtain ⟨listed, hinv⟩ := h.inv
  have hlisted := (hinv.young le_rfl).1
  have hmem : b ∈ listed := hlisted.mem_iff.mpr (List.mem_singleton.mpr rfl)
  have hnext : s.2.nextId = 1 := hinv.next
  have hnew := h.addable
  have heq := subdbAdd_eq s.1 hinv.indexed hnew status now a
  rcases addRecord_reaches hinv hnew h.strs h.init status now ha with ⟨-, hd⟩ | ⟨-, hu⟩
  · -- the new record would have the id of the other
    cases hd with
    | @intro b' n g q _ hb _ _ _ hinv' hm =>
      have hne := (List.pairwise_cons.mp hinv'.indexed.byId.distinct).1 b hmem
      have hb' : b ≠ b' := ne_of_mem_of_not_mem (List.mem_singleton.mpr rfl) hb
      simp only [hm, Function.update_self, Function.update_of_ne hb', hid, newRecord, hnext] at hne
      exact absurd rfl hne
  · rw [← heq] at hu
    obtain ⟨hst, -, ⟨listed', hinv', hfewer⟩, -⟩ := hu
    have hlt := hfewer ⟨b, hmem, hid.trans hnext.symm⟩
    rw [hlisted.length_eq, List.length_singleton] at hlt
    obtain rfl := List.length_eq_zero_iff.mp (Nat.lt_one_iff.mp hlt)
    exact ⟨hst, _, hinv'⟩

theorem failedAdd_unlists {s : DbState} {b : Block} (h : OneRecord s b (1 + 2 ^ 64))
    (hid : (s.2.mem b).subscriberId = 1) :
    ∃ bound, DbInv (dbStep s failedAdd).1.2 1 [] [b] bound :=
  (h.add_unlists hid .active 0 failedAdd_memory).2

theorem failedAdds_run {s : DbState} {b : Block} {bound : ℕ} (h : OneRecord s b bound) (n : ℕ) :
    OneRecord (dbFinal s (List.replicate n failedAdd)) b (bound + n) ∧
      dbAdds s (List.replicate n failedAdd) = ⟨n, []⟩ ∧
      (dbFinal s (List.replicate n failedAdd)).2.mem b = s.2.mem b := by
  induction n generalizing s bound with
  | zero => exact ⟨h, rfl, rfl⟩
  | succ n ih =>
    obtain ⟨h1, hout, hmem⟩ := failedAdd_step h
    obtain ⟨h2, hrest, hmem'⟩ := ih h1
    rw [List.replicate_succ, dbAdds_cons, hout, hrest]
    refine ⟨?_, by simp only [DbOut.plus, List.append_nil, Nat.add_comm], hmem'.trans hmem⟩
    rw [Nat.add_assoc, Nat.add_comm 1 n] at h2
    exact h2

/-- The first add of `wrapCalls`. -/
theorem firstAdd_one {db : SubscriberDb} (hdb : subdbCreate Alloc.all = .ok db) :
    let r := subdbAdd (sstrPoolInit SStrPool.start 16 Alloc.all).2 db (some (lit "100000"))
      (some (lit "1000000")) (some (lit "A")) (some (lit "A")) (some (lit "A")) .active true 0
      Alloc.all
    r.id = some 1 ∧ ∃ b, OneRecord (r.strs, r.db) b 2 ∧ (r.db.mem b).subscriberId = 1 ∧
      ∃ h, (r.db.mem b).name = some h := by
  have h0 := subdbCreate_inv hdb
  have hs : (sstrPoolInit SStrPool.start 16 Alloc.all).2.WF :=
    SStrPool.init_wf SStrPool.start_wf 16 Alloc.all
  have hi : (sstrPoolInit SStrPool.start 16 Alloc.all).2.initialized = true := rfl
  generalize (sstrPoolInit SStrPool.start 16 Alloc.all).2 = p at hs hi
  intro r
  have hnew : Addable db [] (lit "100000") (lit "1000000") (lit "A") (lit "A") (lit "A") :=
    ⟨by decide, by decide, by decide, by decide, by decide, by simp, by simp⟩
  have heq := subdbAdd_eq p h0.indexed hnew .active 0 Alloc.all
  have hkeep := SStrPool.Keeps.subdbAdd p db (some (lit "100000")) (some (lit "1000000"))
    (some (lit "A")) (some (lit "A")) (some (lit "A")) .active true 0 Alloc.all hs
  rcases addRecord_reaches h0 hnew hs hi .active 0 (a := Alloc.all) fun _ _ => rfl with
    ⟨-, hd⟩ | ⟨hno, -⟩
  · rw [← heq] at hd
    cases hd with
    | @intro b n g q _ _ _ hid htexts hinv hmem =>
      obtain ⟨⟨i, hn, -, -⟩, -, -⟩ := internTexts_ok hs htexts
      have hrec : r.db.mem b =
          newRecord db.nextId (lit "100000") (lit "1000000") n g q .active 0 := by
        rw [hmem, Function.update_self]
      refine ⟨hid.trans (by rw [h0.next]; rfl), b, ⟨hkeep.1, hkeep.2.2.trans hi, ⟨_, hinv⟩, ?_, ?_⟩,
        ?_, i, ?_⟩
      · simp only [hrec]
        rfl
      · simp only [hrec]
        rfl
      · simp only [hrec, newRecord, h0.next]
        rfl
      · simp only [hrec, newRecord, hn]
  · rcases hno with hno | hno
    · exact absurd ⟨rfl, rfl, rfl⟩ hno
    · omega

/-- The record of the first add is there, with its id, after the others. -/
theorem wrapCalls_one {db : SubscriberDb} (hdb : subdbCreate Alloc.all = .ok db) (n : ℕ) :
    ∃ b, OneRecord (dbFinal (SStrPool.start, db) (wrapCalls n)) b (2 + n) ∧
      ((dbFinal (SStrPool.start, db) (wrapCalls n)).2.mem b).subscriberId = 1 := by
  obtain ⟨-, b, hone, hid, -⟩ := firstAdd_one hdb
  obtain ⟨hrun, -, hmem⟩ := failedAdds_run hone n
  exact ⟨b, hrun, (congrArg Subscriber.subscriberId hmem).trans hid⟩

theorem wrapCalls_run {db : SubscriberDb} (hdb : subdbCreate Alloc.all = .ok db) (n : ℕ) :
    dbAdds (SStrPool.start, db) (wrapCalls n) = ⟨n + 1, [1]⟩ ∧
      (dbFinal (SStrPool.start, db) (wrapCalls n)).2.nextId = UInt64.ofNat (2 + n) := by
  obtain ⟨hid, b, hone, -⟩ := firstAdd_one hdb
  obtain ⟨hrun, hout, -⟩ := failedAdds_run hone n
  obtain ⟨listed, hlast⟩ := hrun.inv
  constructor
  · simp only [wrapCalls, dbAdds_cons, dbStep, strStep, hout, hid]
    simp [DbOut.plus, DbOut.zero, Nat.add_comm]
  · exact hlast.next

/-- With `2 ^ 64 - 1` adds the counter is zero again, below an id given out. -/
theorem next_id_wraps :
    ∃ db, subdbCreate Alloc.all = .ok db ∧
      ∃ calls, (dbAdds (SStrPool.start, db) calls).adds < 2 ^ 64 ∧
        ¬ ∀ id ∈ (dbAdds (SStrPool.start, db) calls).ids,
          id < (dbFinal (SStrPool.start, db) calls).2.nextId := by
  have hcreate : ∃ db, subdbCreate Alloc.all = .ok db := ⟨_, rfl⟩
  obtain ⟨db, hdb⟩ := hcreate
  have hrun : ∀ n, 2 + n = 2 ^ 64 → (dbAdds (SStrPool.start, db) (wrapCalls n)).adds < 2 ^ 64 ∧
      ¬ ∀ id ∈ (dbAdds (SStrPool.start, db) (wrapCalls n)).ids,
        id < (dbFinal (SStrPool.start, db) (wrapCalls n)).2.nextId := by
    intro n hn
    obtain ⟨hadds, hnext⟩ := wrapCalls_run hdb n
    have hzero : UInt64.ofNat (2 + n) = 0 := by
      rw [hn]
      rfl
    rw [hadds, hnext, hzero]
    refine ⟨by simp only; omega, fun hall => ?_⟩
    exact absurd (hall 1 (List.mem_singleton.mpr rfl)) (by decide)
  exact ⟨db, hdb, _, hrun (2 ^ 64 - 2) (by decide)⟩

end SubscriberMgmt
