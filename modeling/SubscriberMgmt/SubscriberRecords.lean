import SubscriberMgmt.SubscriberRuns

/-!
# What the records of a reachable database hold

Every record has passed the validation functions, and its handles read as
valid texts.
-/

namespace SubscriberMgmt

def GoodText (p : SStrPool) (h : Option Handle) : Prop :=
  ∃ t, subValidateName t = true ∧ p.TextIs h t

structure GoodRecord (p : SStrPool) (s : Subscriber) : Prop where
  imsi : subValidateImsi s.imsi.chars = true
  msisdn : subValidateMsisdn s.msisdn.chars = true
  name : GoodText p s.name
  region : GoodText p s.region
  plan : GoodText p s.plan

theorem GoodText.mono {p p' : SStrPool} {h : Option Handle} (hg : GoodText p h)
    (he : p.Extends p') : GoodText p' h := by
  obtain ⟨t, hv, ht⟩ := hg
  exact ⟨t, hv, ht.mono he⟩

theorem GoodRecord.mono {p p' : SStrPool} {s : Subscriber} (hg : GoodRecord p s)
    (he : p.Extends p') : GoodRecord p' s :=
  ⟨hg.imsi, hg.msisdn, hg.name.mono he, hg.region.mono he, hg.plan.mono he⟩

/-- The invariant of a database together with the pool of its texts. -/
def GoodState (s : DbState) : Prop :=
  s.1.WF ∧ ∃ base listed live bound, DbInv s.2 base listed live bound ∧
    ∀ b ∈ live, GoodRecord s.1 (s.2.mem b)

theorem GoodState.pool {p p' : SStrPool} {db : SubscriberDb} (h : GoodState (p, db))
    (hk : p.WF → p'.WF ∧ p.Extends p') : GoodState (p', db) := by
  obtain ⟨hp, base, listed, live, bound, hinv, hgood⟩ := h
  obtain ⟨hp', he⟩ := hk hp
  exact ⟨hp', base, listed, live, bound, hinv, fun b hb => (hgood b hb).mono he⟩

theorem GoodState.keeps {p p' : SStrPool} {db : SubscriberDb} (h : GoodState (p, db))
    (hk : p.Keeps p') : GoodState (p', db) :=
  h.pool fun hp => ⟨(hk hp).1, (hk hp).2.1⟩

theorem GoodState.add {p : SStrPool} {db : SubscriberDb} (h : GoodState (p, db))
    (imsi msisdn name region plan : Option Str) (status : SubStatus) (outId : Bool)
    (now : Int64) (a : Alloc) :
    let r := subdbAdd p db imsi msisdn name region plan status outId now a
    GoodState (r.strs, r.db) := by
  intro r
  obtain ⟨hp, base, listed, live, bound, hinv, hgood⟩ := h
  obtain ⟨hp', he, -⟩ :=
    SStrPool.Keeps.subdbAdd p db imsi msisdn name region plan status outId now a hp
  rcases subdbAdd_cases p hinv imsi msisdn name region plan status outId now a with
    ⟨-, -, -, -, hinv', hmem⟩ | ⟨i, m, n, g, q, -, -, -, -, -, hd⟩
  · refine ⟨hp', base, _, live, _, hinv', fun b hb => ?_⟩
    have hold := (hgood b hb).mono he
    rwa [← hmem b hb] at hold
  · obtain ⟨hnew, hb, -, -, htexts, hinv', hmem⟩ := hd
    obtain ⟨t1, t2, t3⟩ := internTexts_ok hp htexts
    have hm : r.db.mem = Function.update db.mem _ _ := hmem
    refine ⟨hp', base, _, _, _, hinv', fun c hc => ?_⟩
    simp only [hm]
    rcases List.mem_cons.mp hc with rfl | hc
    · rw [Function.update_self]
      refine ⟨?_, ?_, ⟨n, hnew.validName, t1⟩, ⟨g, hnew.validRegion, t2⟩,
        ⟨q, hnew.validPlan, t3⟩⟩
      · simp only [newRecord, CharField.copy_chars (validDigits_length hnew.validImsi)]
        exact hnew.validImsi
      · simp only [newRecord, CharField.copy_chars (validDigits_length hnew.validMsisdn)]
        exact hnew.validMsisdn
    · rw [Function.update_of_ne (ne_of_mem_of_not_mem hc hb)]
      exact (hgood c hc).mono he

theorem GoodState.loadLine {p : SStrPool} {db : SubscriberDb} (h : GoodState (p, db))
    (piece : Str) (now : Int64) (a : Alloc) : GoodState (loadLine p db piece now a).2 := by
  simp only [SubscriberMgmt.loadLine]
  split
  · exact h
  · split
    · exact h
    · split
      · exact h
      · exact h.add _ _ _ _ _ _ _ _ _

theorem GoodState.loadLines {p : SStrPool} {db : SubscriberDb} (h : GoodState (p, db))
    (clock : ℕ → Int64) (a : Alloc) (i : ℕ) (pieces : List Str) :
    GoodState (loadLines p db clock a i pieces).2 := by
  induction pieces generalizing p db i with
  | nil => exact h
  | cons piece pieces ih => exact ih (h.loadLine piece (clock i) (a.skip (20 * i))) (i + 1)

theorem GoodState.load {p : SStrPool} {db : SubscriberDb} (h : GoodState (p, db))
    (path : Option Str) (files : Str → Option Str) (clock : ℕ → Int64) (a : Alloc) :
    let r := subdbLoadCsv p db path files clock a
    GoodState (r.strs, r.db) := by
  simp only
  unfold subdbLoadCsv
  split
  · exact h
  · split
    · exact h
    · split
      · exact h
      · split
        · exact h
        · exact h.loadLines clock a 0 _

theorem updateText_good {p : SStrPool} (hp : p.WF) {old : Option Handle} (hold : GoodText p old)
    {text : Option Str} (hv : text.all subValidateName = true) (a : Alloc) :
    GoodText (updateText p old text a).1 (updateText p old text a).2 := by
  cases text with
  | none => exact hold
  | some text =>
    simp only [updateText]
    rcases SStrPool.intern_spec hp text a with ⟨st, -, he⟩ | ⟨h, p', he, -, -, hlt, hdata, -⟩
    · rw [he]
      exact hold
    · rw [he]
      have ht : p'.TextIs (some h) text := ⟨h, rfl, hlt, hdata⟩
      exact ⟨text, hv, ht.mono (SStrPool.release_extends p' old)⟩

theorem updateTexts_good {p : SStrPool} (hp : p.WF) {s : Subscriber} (hs : GoodRecord p s)
    {name region plan : Option Str} (hn : name.all subValidateName = true)
    (hr : region.all subValidateName = true) (hq : plan.all subValidateName = true) (a : Alloc) :
    GoodRecord (updateTexts p s name region plan a).1
      (updateTexts p s name region plan a).2 := by
  obtain ⟨w1, x1, -⟩ := SStrPool.Keeps.updateText p s.name name a hp
  have g1 := updateText_good hp hs.name hn a
  simp only [updateTexts]
  generalize updateText p s.name name a = u1 at w1 x1 g1 ⊢
  obtain ⟨w2, x2, -⟩ := SStrPool.Keeps.updateText u1.1 s.region region (a.skip 4) w1
  have g2 := updateText_good w1 (hs.region.mono x1) hr (a.skip 4)
  generalize updateText u1.1 s.region region (a.skip 4) = u2 at w2 x2 g2 ⊢
  obtain ⟨-, x3, -⟩ := SStrPool.Keeps.updateText u2.1 s.plan plan (a.skip 8) w2
  have g3 := updateText_good w2 (hs.plan.mono (x1.trans x2)) hq (a.skip 8)
  exact ⟨hs.imsi, hs.msisdn, g1.mono (x2.trans x3), g2.mono x3, g3⟩

theorem GoodState.update {p : SStrPool} {db : SubscriberDb} (h : GoodState (p, db)) (id : UInt64)
    (name region plan : Option Str) (status : Option SubStatus) (now : Int64) (a : Alloc) :
    GoodState (subdbUpdate p db id name region plan status now a).2 := by
  obtain ⟨hp, base, listed, live, bound, hinv, hgood⟩ := h
  rcases subdbUpdate_cases p hinv id name region plan status now a with
    ⟨st, -, he⟩ | ⟨b, hb, s, hs, hn, hr, hq, he, hinv'⟩
  · rw [he]
    exact ⟨hp, base, listed, live, bound, hinv, hgood⟩
  · rw [he]
    obtain ⟨hp', hx, -⟩ := SStrPool.Keeps.updateTexts p (db.mem b) name region plan a hp
    have hg := updateTexts_good hp (hgood b hb) hn hr hq a
    refine ⟨hp', base, listed, live, bound, hinv', fun c hc => ?_⟩
    by_cases hcb : c = b
    · rw [hcb]
      simp only [Function.update_self, hs]
      exact ⟨hg.imsi, hg.msisdn, hg.name, hg.region, hg.plan⟩
    · simp only [Function.update_of_ne hcb]
      exact (hgood c hc).mono hx

theorem GoodState.delete {p : SStrPool} {db : SubscriberDb} (h : GoodState (p, db))
    (id : UInt64) : GoodState (subdbDelete p db id).2 := by
  obtain ⟨hp, base, listed, live, bound, hinv, hgood⟩ := h
  obtain ⟨hp', hx, -⟩ := SStrPool.Keeps.subdbDelete p db id hp
  rcases subdbDelete_cases p hinv id with he | ⟨b, listed', live', hperm, -, -, hinv', hmem, -⟩
  · rw [he]
    exact ⟨hp, base, listed, live, bound, hinv, hgood⟩
  · refine ⟨hp', base, listed', live', bound, hinv', fun c hc => ?_⟩
    rw [hmem c hc]
    exact (hgood c (hperm.mem_iff.mpr (List.mem_cons_of_mem _ hc))).mono hx

theorem dbStep_good {s : DbState} (h : GoodState s) (op : DbOp) : GoodState (dbStep s op).1 := by
  cases op with
  | add imsi msisdn name region plan status outId now a =>
    exact h.add imsi msisdn name region plan status outId now a
  | delete id => exact h.delete id
  | update id name region plan status now a => exact h.update id name region plan status now a
  | searchById id a => exact h.keeps (SStrPool.keeps_tracks.searchResult _ _ _ a)
  | searchByImsi imsi a =>
    cases imsi with
    | none => exact h
    | some imsi => exact h.keeps (SStrPool.keeps_tracks.searchResult _ _ _ a)
  | searchByMsisdn msisdn a =>
    cases msisdn with
    | none => exact h
    | some msisdn => exact h.keeps (SStrPool.keeps_tracks.searchResult _ _ _ a)
  | searchByRegion region a =>
    cases region with
    | none => exact h
    | some region => exact h.keeps (SStrPool.keeps_tracks.filteredSearch _ _ _ a)
  | searchByPlan plan a =>
    cases plan with
    | none => exact h
    | some plan => exact h.keeps (SStrPool.keeps_tracks.filteredSearch _ _ _ a)
  | searchByStatus status a => exact h.keeps (SStrPool.keeps_tracks.filteredSearch _ _ _ a)
  | listAll a => exact h.keeps (SStrPool.keeps_tracks.filteredSearch _ _ _ a)
  | loadCsv path files clock a => exact h.load path files clock a
  | strings op => exact h.pool fun hp => strStep_keeps hp op

/-- States of a process in which a database was created and then used. -/
def Reachable (s : DbState) : Prop :=
  ∃ (p : SStrPool) (a : Alloc) (db : SubscriberDb) (calls : List DbOp), p.WF ∧
    subdbCreate a = .ok db ∧ s = dbFinal (p, db) calls

theorem Reachable.created {p : SStrPool} (hp : p.WF) {a : Alloc} {db : SubscriberDb}
    (hdb : subdbCreate a = .ok db) : Reachable (p, db) := ⟨p, a, db, [], hp, hdb, rfl⟩

theorem Reachable.good {s : DbState} (h : Reachable s) : GoodState s := by
  obtain ⟨p, a, db, calls, hp, hdb, rfl⟩ := h
  have h0 : GoodState (p, db) := ⟨hp, 1, [], [], 1, subdbCreate_inv hdb, by simp⟩
  have hstep : ∀ s op, GoodState s → GoodState (dbStep s op).1 := fun s op hs => dbStep_good hs op
  exact Machine.final_invariant hstep h0 calls

end SubscriberMgmt
