import SubscriberMgmt.CsvRoundTrip

/-!
# The contents of a database

Each subscriber's fields under its id, and what the functions of `subscriber.c`
do to them while the id counter has not come round.
-/

namespace SubscriberMgmt
open CText

def dbContents (s : DbState) : List (UInt64 × SubscriberFields) :=
  (dbRecords s.2).map fun x => (x.subscriberId, x.fields s.1)

/-- The invariant of a database on which at most `n` adds were made. -/
def GoodAfter (n : ℕ) (s : DbState) : Prop :=
  s.1.WF ∧ ∃ listed live bound, DbInv s.2 1 listed live bound ∧ bound ≤ n + 1 ∧
    ∀ b ∈ live, GoodRecord s.1 (s.2.mem b)

namespace GoodAfter

variable {n : ℕ} {p p' : SStrPool} {db : SubscriberDb}

theorem parts (h : GoodAfter n (p, db)) : p.WF ∧ ∃ listed live bound,
    DbInv db 1 listed live bound ∧ bound ≤ n + 1 ∧ ∀ b ∈ live, GoodRecord p (db.mem b) := h

theorem good {s : DbState} (h : GoodAfter n s) : GoodState s := by
  obtain ⟨hp, listed, live, bound, hinv, -, hgood⟩ := h
  exact ⟨hp, 1, listed, live, bound, hinv, hgood⟩

theorem mono {m : ℕ} {s : DbState} (h : GoodAfter n s) (hle : n ≤ m) : GoodAfter m s := by
  obtain ⟨hp, listed, live, bound, hinv, hb, hgood⟩ := h
  exact ⟨hp, listed, live, bound, hinv, by omega, hgood⟩

/-- The live blocks are those of the index by IMSI, whichever list names them. -/
theorem of_good {s : DbState} (hs : GoodState s) {listed live : List Block} {bound : ℕ}
    (hinv : DbInv s.2 1 listed live bound) (hb : bound ≤ n + 1) : GoodAfter n s := by
  obtain ⟨hp, base, listed', live', bound', hinv', hgood⟩ := hs
  have hperm : live.Perm live' := hinv.indexed.byImsi.values.symm.trans hinv'.indexed.byImsi.values
  exact ⟨hp, listed, live, bound, hinv, hb, fun b hm => hgood b (hperm.mem_iff.mp hm)⟩

theorem create {a : Alloc} (hp : p.WF) (hdb : subdbCreate a = .ok db) : GoodAfter 0 (p, db) :=
  ⟨hp, [], [], 1, subdbCreate_inv hdb, le_rfl, fun _ hb => absurd hb List.not_mem_nil⟩

/-- A counter that has not come round to 0 leaves room for one more add. -/
theorem tighten {s : DbState} (h : GoodAfter n s) (hn : n < 2 ^ 64) (hid : s.2.nextId ≠ 0) :
    ∃ m, m + 1 < 2 ^ 64 ∧ GoodAfter m s := by
  obtain ⟨hp, listed, live, bound, hinv, hb, hgood⟩ := h
  have hne : bound ≠ 2 ^ 64 := by
    intro he
    subst he
    exact hid hinv.next
  have hbase := hinv.base_le
  exact ⟨bound - 1, by omega, hp, listed, live, bound, hinv, by omega, hgood⟩

/-- The counter still stands at the first id. -/
theorem of_first {s : DbState} (h : GoodAfter n s) (hn : n < 2 ^ 64) (hid : s.2.nextId = 1) :
    GoodAfter 0 s := by
  obtain ⟨hp, listed, live, bound, hinv, hb, hgood⟩ := h
  have hnext := congrArg UInt64.toNat (hinv.next.symm.trans hid)
  have hbase := hinv.base_le
  have hone : (1 : UInt64).toNat = 1 := rfl
  rw [UInt64.toNat_ofNat', hone] at hnext
  exact ⟨hp, listed, live, bound, hinv, by omega, hgood⟩

theorem records (h : GoodAfter n (p, db)) : ∀ x ∈ dbRecords db, GoodRecord p x := by
  obtain ⟨-, listed, live, bound, hinv, -, hgood⟩ := h
  intro x hx
  obtain ⟨b, hb, rfl⟩ := List.mem_map.mp (hinv.records.mem_iff.mp hx)
  exact hgood b (hinv.indexed.sub b hb)

theorem pool (h : GoodAfter n (p, db)) (hp : p'.WF) (he : p.Extends p') :
    GoodAfter n (p', db) := by
  obtain ⟨-, listed, live, bound, hinv, hb, hgood⟩ := h
  exact ⟨hp, listed, live, bound, hinv, hb, fun b hm => (hgood b hm).mono he⟩

end GoodAfter

theorem GoodText.cstr_mono {p p' : SStrPool} {h : Option Handle} (hg : GoodText p h)
    (he : p.Extends p') : sstrCstr p' h = sstrCstr p h := by
  obtain ⟨t, -, ht⟩ := hg
  rw [ht.cstr, (ht.mono he).cstr]

theorem GoodRecord.fields_mono {p p' : SStrPool} {x : Subscriber} (hg : GoodRecord p x)
    (he : p.Extends p') : x.fields p' = x.fields p := by
  simp only [Subscriber.fields, hg.name.cstr_mono he, hg.region.cstr_mono he, hg.plan.cstr_mono he]

theorem dbContents_pool {n : ℕ} {p p' : SStrPool} {db : SubscriberDb} (h : GoodAfter n (p, db))
    (he : p.Extends p') : dbContents (p', db) = dbContents (p, db) :=
  List.map_congr_left fun x hx => by rw [(h.records x hx).fields_mono he]

/-- While the counter has not come round every live record is listed. -/
theorem dbRecords_live {db : SubscriberDb} {listed live : List Block} {bound : ℕ}
    (h : DbInv db 1 listed live bound) (hb : bound ≤ 1 + 2 ^ 64) :
    (dbRecords db).Perm (live.map db.mem) :=
  h.records.trans ((h.young hb).1.map _)

theorem dbContents_live {p : SStrPool} {db : SubscriberDb} {listed live : List Block} {bound : ℕ}
    (h : DbInv db 1 listed live bound) (hb : bound ≤ 1 + 2 ^ 64) :
    (dbContents (p, db)).Perm
      (live.map fun b => ((db.mem b).subscriberId, (db.mem b).fields p)) := by
  have hp := (dbRecords_live h hb).map fun x => (x.subscriberId, x.fields p)
  rwa [List.map_map] at hp

/-- What an accepted record adds: its keys are new. -/
def KeysNew (imsi msisdn : Str) (es : List (UInt64 × SubscriberFields)) : Prop :=
  ∀ e ∈ es, e.2.imsi ≠ imsi ∧ e.2.msisdn ≠ msisdn

theorem KeysNew.perm {imsi msisdn : Str} {es es' : List (UInt64 × SubscriberFields)}
    (h : KeysNew imsi msisdn es) (hp : es.Perm es') : KeysNew imsi msisdn es' :=
  fun e he => h e (hp.mem_iff.mpr he)

/-! ### Calls -/

section Calls

variable {n : ℕ} {p : SStrPool} {db : SubscriberDb}

/-- An add either fails and leaves the contents, or puts the new record under
the id that it returns. -/
inductive ContentsAdd (p : SStrPool) (db : SubscriberDb) (imsi msisdn name region plan : Option Str)
    (status : SubStatus) (r : AddResult) : Prop
  | kept (hst : r.status ≠ .ok) (hsame : (dbContents (r.strs, r.db)).Perm (dbContents (p, db)))
  | added {id : UInt64} {i m t g q : Str} (hst : r.status = .ok) (hid : r.id = some id)
      (hargs : imsi = some i ∧ msisdn = some m ∧ name = some t ∧ region = some g ∧ plan = some q)
      (hnew : KeysNew i m (dbContents (p, db)))
      (hmore : (dbContents (r.strs, r.db)).Perm
        ((id, ⟨i, m, t, g, q, status⟩) :: dbContents (p, db)))

theorem GoodAfter.add (h : GoodAfter n (p, db)) (hn : n < 2 ^ 64)
    (imsi msisdn name region plan : Option Str) (status : SubStatus) (outId : Bool)
    (now : Int64) (a : Alloc) :
    let r := subdbAdd p db imsi msisdn name region plan status outId now a
    GoodAfter (n + 1) (r.strs, r.db) ∧ ContentsAdd p db imsi msisdn name region plan status r := by
  intro r
  have hstate := h.good.add imsi msisdn name region plan status outId now a
  have hpool := SStrPool.Keeps.subdbAdd p db imsi msisdn name region plan status outId now a h.1
  obtain ⟨hp, listed, live, bound, hinv, hb, hgood⟩ := h.parts
  have hold := dbContents_live (p := p) hinv (by omega)
  -- live records that stay where they are read the same in the new pool
  have hread : ∀ {db' : SubscriberDb}, (∀ b ∈ live, db'.mem b = db.mem b) →
      (live.map fun b => ((db'.mem b).subscriberId, (db'.mem b).fields r.strs)) =
        live.map fun b => ((db.mem b).subscriberId, (db.mem b).fields p) := fun hmem =>
    List.map_congr_left fun b hm => by
      rw [hmem b hm, (hgood b hm).fields_mono hpool.2.1]
  rcases subdbAdd_cases p hinv imsi msisdn name region plan status outId now a with
    hk | ⟨i, m, t, g, q, h1, h2, h3, h4, h5, hd⟩
  · obtain ⟨hst, -, -, hhi, hinv', hmem⟩ := hk
    refine ⟨.of_good hstate hinv' (by omega), .kept hst ?_⟩
    have hnew := dbContents_live (p := r.strs) hinv' (by omega)
    rw [hread hmem] at hnew
    exact hnew.trans hold.symm
  · obtain ⟨hadd, hfree, hst, hid, htexts, hinv', hmem⟩ := hd
    have hm : r.db.mem = Function.update db.mem _ _ := hmem
    refine ⟨.of_good hstate hinv' (by omega), .added hst hid ⟨h1, h2, h3, h4, h5⟩ ?_ ?_⟩
    · refine KeysNew.perm (fun e he => ?_) hold.symm
      obtain ⟨b, hb, rfl⟩ := List.mem_map.mp he
      exact ⟨hadd.newImsi b hb, hadd.newMsisdn b hb⟩
    · have ht : internTexts p t g q (a.skip 2) = (.ok, r.strs, _, _, _) := htexts
      obtain ⟨t1, t2, t3⟩ := internTexts_ok hp ht
      have hnew := dbContents_live (p := r.strs) hinv' (by omega)
      rw [List.map_cons, hread fun b hb => by
        rw [hm, Function.update_of_ne (ne_of_mem_of_not_mem hb hfree)]] at hnew
      rw [hm, Function.update_self] at hnew
      simp only [newRecord, Subscriber.fields,
        CharField.copy_chars (validDigits_length hadd.validImsi),
        CharField.copy_chars (validDigits_length hadd.validMsisdn), t1.cstr, t2.cstr,
        t3.cstr] at hnew
      exact hnew.trans (hold.symm.cons _)

/-- With memory for it, an add of valid fields under new keys succeeds. -/
theorem GoodAfter.add_ok (h : GoodAfter n (p, db)) (hn : n < 2 ^ 64) (hi : p.initialized = true)
    {imsi msisdn name region plan : Str} (h1 : subValidateImsi imsi = true)
    (h2 : subValidateMsisdn msisdn = true) (h3 : subValidateName name = true)
    (h4 : subValidateName region = true) (h5 : subValidateName plan = true)
    (hnew : KeysNew imsi msisdn (dbContents (p, db))) (status : SubStatus) (now : Int64) :
    (subdbAdd p db (some imsi) (some msisdn) (some name) (some region) (some plan) status true now
      Alloc.all).status = .ok := by
  obtain ⟨hp, listed, live, bound, hinv, hb, -⟩ := h.parts
  have hlive := hnew.perm (dbContents_live hinv (by omega))
  have hadd : Addable db live imsi msisdn name region plan :=
    ⟨h1, h2, h3, h4, h5, fun b hm => (hlive _ (List.mem_map_of_mem hm)).1,
      fun b hm => (hlive _ (List.mem_map_of_mem hm)).2⟩
  rw [subdbAdd_eq p hinv.indexed hadd]
  rcases addRecord_reaches hinv hadd hp hi status now (a := Alloc.all) fun _ _ => rfl with
    ⟨-, hd⟩ | ⟨hno | hno, -⟩
  · cases hd with
    | intro _ _ hst => exact hst
  · exact absurd ⟨rfl, rfl, rfl⟩ hno
  · omega

/-- A delete leaves the contents, or takes out the record with the id. -/
theorem GoodAfter.delete (h : GoodAfter n (p, db)) (hn : n ≤ 2 ^ 64) (id : UInt64) :
    GoodAfter n (subdbDelete p db id).2 ∧
      (((subdbDelete p db id).1 ≠ .ok ∧ (subdbDelete p db id).2 = (p, db)) ∨
        ((subdbDelete p db id).1 = .ok ∧ ∃ r, (dbContents (p, db)).Perm
          ((id, r) :: dbContents (subdbDelete p db id).2))) := by
  obtain ⟨hp, listed, live, bound, hinv, hb, hgood⟩ := h.parts
  obtain ⟨hp', he, -⟩ := SStrPool.Keeps.subdbDelete p db id hp
  have hstate := h.good.delete id
  rcases subdbDelete_cases p hinv id with heq | ⟨b, listed', live', hperm, hid, hst, hinv', hmem, -⟩
  · rw [heq]
    exact ⟨h, Or.inl ⟨fun he => (by cases he), rfl⟩⟩
  · refine ⟨.of_good hstate hinv' hb, Or.inr ⟨hst, (db.mem b).fields p, ?_⟩⟩
    have hold := (dbContents_live (p := p) hinv (by omega)).trans (hperm.map _)
    have hnew := dbContents_live (p := (subdbDelete p db id).2.1) hinv' (by omega)
    have hread : (live'.map fun c => (((subdbDelete p db id).2.2.mem c).subscriberId,
        ((subdbDelete p db id).2.2.mem c).fields (subdbDelete p db id).2.1)) =
        live'.map fun c => ((db.mem c).subscriberId, (db.mem c).fields p) :=
      List.map_congr_left fun c hc => by
        rw [hmem c hc,
          (hgood c (hperm.mem_iff.mpr (List.mem_cons_of_mem _ hc))).fields_mono he]
    rw [hread] at hnew
    rw [List.map_cons, hid] at hold
    exact hold.trans (hnew.symm.cons _)

theorem total_adds_le (lines : List LineOutcome) :
    (DbOut.total (lines.map LineOutcome.out)).adds ≤ lines.length := by
  induction lines with
  | nil => exact le_rfl
  | cons o lines ih =>
    have hone : o.out.adds ≤ 1 := by cases o <;> simp [LineOutcome.out]
    simp only [DbOut.total, List.map_cons, List.foldr_cons, DbOut.plus, List.length_cons] at ih ⊢
    omega

theorem GoodAfter.load (h : GoodAfter n (p, db)) (path : Option Str) (opened : Str → Option Str)
    (clock : ℕ → Int64) (a : Alloc) :
    let r := subdbLoadCsv p db path opened clock a
    GoodAfter (n + r.lines.length) (r.strs, r.db) := by
  intro r
  obtain ⟨-, listed, live, bound, hinv, hb, -⟩ := h.parts
  obtain ⟨listed', live', bound', hinv', -, hle, -⟩ :=
    subdbLoadCsv_step p hinv path opened clock a
  have hadds := total_adds_le (subdbLoadCsv p db path opened clock a).lines
  have hlines : r.lines.length = (subdbLoadCsv p db path opened clock a).lines.length := rfl
  exact .of_good (h.good.load path opened clock a) hinv' (by omega)

end Calls

/-! ### Without texts -/

section Unread

variable {p : SStrPool} {a : Alloc}
  (hp : ∀ text, ∃ st, st ≠ .ok ∧ sstrIntern p text (a.skip 2) = (.error st, p))

include hp

theorem addRecord_unread (db : SubscriberDb) (imsi msisdn name region plan : Str)
    (status : SubStatus) (now : Int64) :
    let r := addRecord p db imsi msisdn name region plan status now a
    r.status ≠ .ok ∧ r.strs = p ∧ r.db.nextId = db.nextId := by
  intro r
  obtain ⟨st, hst, hintern⟩ := hp name
  have htexts : internTexts p name region plan (a.skip 2) = (st, p, none, none, none) := by
    simp only [internTexts, hintern]
  simp only [r, addRecord, htexts]
  cases mempoolAlloc db.pool a with
  | mk b pool =>
    cases b with
    | none => exact ⟨fun h => (by cases h), rfl, rfl⟩
    | some b => cases st <;> first | exact absurd rfl hst | exact ⟨hst, rfl, rfl⟩

/-- An add for which no text can be interned leaves the pool and the counter. -/
theorem subdbAdd_unread (db : SubscriberDb) (imsi msisdn name region plan : Option Str)
    (status : SubStatus) (outId : Bool) (now : Int64) :
    let r := subdbAdd p db imsi msisdn name region plan status outId now a
    r.status ≠ .ok ∧ r.strs = p ∧ r.db.nextId = db.nextId := by
  intro r
  simp only [r, subdbAdd]
  split
  · split
    · exact ⟨fun h => (by cases h), rfl, rfl⟩
    · split
      · exact ⟨fun h => (by cases h), rfl, rfl⟩
      · split
        · exact ⟨fun h => (by cases h), rfl, rfl⟩
        · exact addRecord_unread hp db _ _ _ _ _ status now
  · exact ⟨fun h => (by cases h), rfl, rfl⟩

end Unread

end SubscriberMgmt
