import SubscriberMgmt.SubscriberRegistry

/-!
# The database refines the registry

As long as fewer than `2 ^ 64` adds are made, every run of calls is one of the
registry: it has the same answers.
-/

namespace SubscriberMgmt
open CText

theorem Alloc.Ample.skip {a : Alloc} (h : a.Ample) (k : ℕ) : (a.skip k).Ample := fun i => h (k + i)

/-! ### Why interning fails -/

/-- A text that a record may have is refused for lack of memory only. -/
theorem sstrIntern_short {p p' : SStrPool} (hp : p.WF) (hi : p.initialized = true) {text : Str}
    (hv : subValidateName text = true) {a : Alloc} {st : SmStatus}
    (h : sstrIntern p text a = (.error st, p')) : st = .errAllocFailed ∧ ¬ a.Ample := by
  obtain ⟨hpos, hlen⟩ := validName_length hv
  have hlen' : text.length ≤ 255 := hlen.trans (by decide)
  refine ⟨?_, fun hall => ?_⟩
  · have hl : ¬ (text.length = 0 ∨ 255 < text.length) := by omega
    simp only [sstrIntern, hi, Bool.not_true, Bool.false_eq_true, if_false, hl] at h
    cases hg : htGet p.ops p.table (.value text) with
    | ok n =>
      rw [hg] at h
      cases h
    | error e =>
      have habs := (htGet_error p.lawful hp.table hg).2
      have he := SStrPool.mallocString_extends p text
      have hcase := htPut_cases (p.mallocString text).lawful (SStrPool.table_extends hp he)
        (.field p.next) p.next false (a.skip 2)
      rw [hg] at h
      dsimp only at h
      generalize htPut (p.mallocString text).ops p.table (.field p.next) p.next false
        (a.skip 2) = r at hcase h
      obtain ⟨st', t⟩ := r
      split at h
      · exact (Except.error.inj (congrArg Prod.fst h)).symm
      split at h
      · exact (Except.error.inj (congrArg Prod.fst h)).symm
      cases hcase with
      | @duplicate n hmem heq =>
        have hl := KeyRef.ops_eq_iff.mp heq
        have hno := KeyRef.ops_eq_false.mp (habs n hmem)
        rw [hp.keys n hmem] at hl hno
        simp only [KeyRef.load] at hl hno
        rw [he.data_eq _ (hp.alloc n hmem)] at hl
        simp [SStrPool.mallocString, SStrPool.setCell] at hl
        exact absurd hl hno
      | allocFailed => exact (Except.error.inj (congrArg Prod.fst h)).symm
      | replaced _ _ _ hrep => cases hrep
      | inserted => cases h
  · obtain ⟨n, hn⟩ := SStrPool.intern_all hp hi hpos hlen' (a := a) fun i _ => hall i
    rw [h] at hn
    cases hn

theorem internTexts_unavailable {p p' : SStrPool} (hp : p.WF) (hi : p.initialized = true)
    {name region plan : Str} (hn : subValidateName name = true)
    (hr : subValidateName region = true) (hq : subValidateName plan = true) {a : Alloc}
    {st : SmStatus} {n r q : Option Handle}
    (h : internTexts p name region plan a = (st, p', n, r, q)) (hst : st ≠ .ok) :
    st = .errAllocFailed ∧ ¬ a.Ample := by
  have step : ∀ {p₁ p₂ : SStrPool}, p₁.WF → p₁.initialized = true → ∀ {text : Str} {k : ℕ}
      {o : Except SmStatus Handle}, sstrIntern p₁ text (a.skip k) = (o, p₂) →
      p₂.WF ∧ p₂.initialized = true := by
    intro p₁ p₂ h₁ i₁ text k o he
    obtain ⟨h₂, -, i₂⟩ := SStrPool.Keeps.intern p₁ text (a.skip k) h₁
    rw [he] at h₂ i₂
    exact ⟨h₂, i₂.trans i₁⟩
  have fails : ∀ {p₁ p₂ : SStrPool}, p₁.WF → p₁.initialized = true → ∀ {text : Str} {k : ℕ},
      subValidateName text = true → ∀ {st : SmStatus},
      sstrIntern p₁ text (a.skip k) = (.error st, p₂) → st = .errAllocFailed ∧ ¬ a.Ample := by
    intro p₁ p₂ h₁ i₁ text k hv st he
    obtain ⟨hst, hshort⟩ := sstrIntern_short h₁ i₁ hv he
    exact ⟨hst, fun hall => hshort (hall.skip k)⟩
  have h0 : a.skip 0 = a := by
    funext i
    simp [Alloc.skip]
  unfold internTexts at h
  rcases h1 : sstrIntern p name a with ⟨e | n', p1⟩ <;> rw [h1] at h <;> dsimp only at h
  · cases h
    exact fails hp hi hn (h0.symm ▸ h1)
  obtain ⟨w1, i1⟩ := step hp hi (h0.symm ▸ h1)
  rcases h2 : sstrIntern p1 region (a.skip 4) with ⟨e | r', p2⟩ <;> rw [h2] at h <;> dsimp only at h
  · cases h
    exact fails w1 i1 hr h2
  obtain ⟨w2, i2⟩ := step w1 i1 h2
  rcases h3 : sstrIntern p2 plan (a.skip 8) with ⟨e | q', p3⟩ <;> rw [h3] at h <;> dsimp only at h
  · cases h
    exact fails w2 i2 hq h3
  · cases h
    exact absurd rfl hst

/-- While ids are fresh, a record with new keys is refused for lack of memory only. -/
theorem addRecord_short {p : SStrPool} {db : SubscriberDb} {base bound : ℕ}
    {listed live : List Block} (h : DbInv db base listed live bound)
    (hbound : bound < base + 2 ^ 64) {imsi msisdn name region plan : Str}
    (hnew : Addable db live imsi msisdn name region plan) (hp : p.WF) (hi : p.initialized = true)
    (status : SubStatus) (now : Int64) (a : Alloc) :
    (addRecord p db imsi msisdn name region plan status now a).status = .ok ∨
      ((addRecord p db imsi msisdn name region plan status now a).status = .errAllocFailed ∧
        ¬ a.Ample) := by
  by_cases hall : a.Ample
  · rcases addRecord_reaches h hnew hp hi status now (a := a) fun i _ => hall i with
      ⟨-, hdone⟩ | ⟨hno | hno, -⟩
    · cases hdone with
      | intro _ _ hst => exact Or.inl hst
    · exact absurd ⟨hall 14, hall 16, hall 18⟩ hno
    · omega
  · rw [and_iff_left hall]
    rcases mempoolAlloc_spec h.owned a with ⟨hnone, hown⟩ | ⟨b, hsome, hown⟩
    · rcases hm : mempoolAlloc db.pool a with ⟨ob, pool⟩
      rw [hm] at hnone
      cases hnone
      simp only [addRecord, hm, or_true]
    · rcases hm : mempoolAlloc db.pool a with ⟨ob, pool⟩
      rw [hm] at hsome hown
      cases hsome
      rcases ht : internTexts p name region plan (a.skip 2) with ⟨st, p', n, r, q⟩
      by_cases hst : st = .ok
      · subst hst
        have hfree : b ∉ live := (List.nodup_cons.mp hown.held_nodup).1
        obtain ⟨hidx, hfresh, hself, hold⟩ := place_ready h.indexed hnew hfree pool
          (s := newRecord db.nextId imsi msisdn n r q status now)
          (CharField.copy_chars (validDigits_length hnew.validImsi))
          (CharField.copy_chars (validDigits_length hnew.validMsisdn))
        simp only [addRecord, hm, ht]
        have hid : ∀ q' ∈ listed, ((db.place pool b _).mem q').subscriberId ≠
            ((db.place pool b _).mem b).subscriberId := fun q' hq' => by
          rw [hold q' (h.indexed.sub q' hq'), hself]
          exact h.fresh_id hbound q' (h.indexed.sub q' hq')
        rcases indexRecord_spec hidx hfresh hid (a.skip 14) with
          ⟨-, hok, hi'⟩ | ⟨-, herr, hi'⟩
        · obtain ⟨db', he, -⟩ := insertRecord_ok p' hok hi'
          rw [he]
          exact Or.inl rfl
        · obtain ⟨db', he, -⟩ := insertRecord_undone p' (by rw [herr]; decide) hi' hfree
          rw [he]
          exact Or.inr herr
      · obtain ⟨rfl, -⟩ := internTexts_unavailable hp hi hnew.validName hnew.validRegion
          hnew.validPlan ht hst
        simp only [addRecord, hm, ht, or_true]

/-! ### The texts of an update -/

theorem updateText_given {p : SStrPool} (hp : p.WF) (hi : p.initialized = true)
    (old : Option Handle) {text : Option Str} (hv : text.all subValidateName = true) (a : Alloc) :
    Given a text (sstrCstr p old)
      (sstrCstr (updateText p old text a).1 (updateText p old text a).2) := by
  cases text with
  | none => exact Or.inl rfl
  | some text =>
    rcases SStrPool.intern_spec hp text a with ⟨st, -, he⟩ | ⟨n, p', he, -, -, hlt, hdata, -⟩
    · simp only [updateText, he]
      exact Or.inr ⟨(sstrIntern_short hp hi hv he).2, rfl⟩
    · simp only [updateText, he]
      have ht : p'.TextIs (some n) text := ⟨n, rfl, hlt, hdata⟩
      exact Or.inl (ht.mono (SStrPool.release_extends p' old)).cstr

theorem Given.skip {a : Alloc} {k : ℕ} {text : Option Str} {old new : Str}
    (h : Given (a.skip k) text old new) : Given a text old new :=
  h.imp_right fun ⟨hshort, hold⟩ => ⟨fun hall => hshort (hall.skip k), hold⟩

/-- Each of the three texts, read after the whole update. -/
theorem updateTexts_given {p : SStrPool} (hp : p.WF) (hi : p.initialized = true) {s : Subscriber}
    (hs : GoodRecord p s) {name region plan : Option Str}
    (hn : name.all subValidateName = true) (hr : region.all subValidateName = true)
    (hq : plan.all subValidateName = true) (a : Alloc) :
    let u := updateTexts p s name region plan a
    Given a name (sstrCstr p s.name) (sstrCstr u.1 u.2.name) ∧
      Given a region (sstrCstr p s.region) (sstrCstr u.1 u.2.region) ∧
      Given a plan (sstrCstr p s.plan) (sstrCstr u.1 u.2.plan) := by
  intro u
  obtain ⟨w1, x1, i1⟩ := SStrPool.Keeps.updateText p s.name name a hp
  have g1 := updateText_good hp hs.name hn a
  have t1 := updateText_given hp hi s.name hn a
  simp only [u, updateTexts]
  generalize updateText p s.name name a = u1 at w1 x1 i1 g1 t1 ⊢
  obtain ⟨w2, x2, i2⟩ := SStrPool.Keeps.updateText u1.1 s.region region (a.skip 4) w1
  have g2 := updateText_good w1 (hs.region.mono x1) hr (a.skip 4)
  have t2 := updateText_given w1 (i1.trans hi) s.region hr (a.skip 4)
  rw [hs.region.cstr_mono x1] at t2
  generalize updateText u1.1 s.region region (a.skip 4) = u2 at w2 x2 i2 g2 t2 ⊢
  obtain ⟨-, x3, -⟩ := SStrPool.Keeps.updateText u2.1 s.plan plan (a.skip 8) w2
  have t3 := updateText_given w2 (i2.trans (i1.trans hi)) s.plan hq (a.skip 8)
  rw [hs.plan.cstr_mono (x1.trans x2)] at t3
  rw [g1.cstr_mono (x2.trans x3), g2.cstr_mono x3]
  exact ⟨t1, t2.skip, t3.skip⟩

/-! ### What the registry is to a database -/

/-- The database holds the accounts of the registry, and its counter is past the ids used up. -/
structure Registry.HeldBy (r : Registry) (s : DbState) : Prop where
  wf : s.1.WF
  isOpen : s.1.initialized = true
  held : ∃ listed live, DbInv s.2 1 listed live (r.last + 1) ∧
    (∀ b ∈ live, GoodRecord s.1 (s.2.mem b)) ∧
    r.Lists (live.map fun b => (s.2.mem b).entry s.1)

theorem Subscriber.entry_mono {p p' : SStrPool} {x : Subscriber} (hg : GoodRecord p x)
    (he : p.Extends p') : x.entry p' = x.entry p := by
  simp only [entry, account, hg.fields_mono he]

theorem GoodRecord.account_valid {p : SStrPool} {x : Subscriber} (hg : GoodRecord p x) :
    (x.account p).valid = true := by
  obtain ⟨t, ht, htext⟩ := hg.name
  obtain ⟨g, hgv, hgtext⟩ := hg.region
  obtain ⟨q, hq, hqtext⟩ := hg.plan
  simp only [Account.valid, Subscriber.account, Subscriber.fields, htext.cstr, hgtext.cstr,
    hqtext.cstr, hg.imsi, hg.msisdn, ht, hgv, hq, Bool.and_self]

namespace Registry

variable {p : SStrPool} {db : SubscriberDb} {r : Registry} {live : List Block}
  {mem : Block → Subscriber}

theorem HeldBy.create {a : Alloc} (hp : p.WF) (hi : p.initialized = true)
    (hdb : subdbCreate a = .ok db) : empty.HeldBy (p, db) :=
  ⟨hp, hi, [], [], subdbCreate_inv hdb, fun _ hb => absurd hb List.not_mem_nil,
    UniqueMap.Lists.nil⟩

/-- Searches and freed snapshots leave the accounts as they are. -/
theorem HeldBy.pool {p' : SStrPool} (h : r.HeldBy (p, db)) (hk : p.Keeps p') :
    r.HeldBy (p', db) := by
  obtain ⟨hp', he, hi'⟩ := hk h.wf
  obtain ⟨listed, live, hinv, hgood, hlists⟩ := h.held
  refine ⟨hp', hi'.trans h.isOpen, listed, live, hinv, fun b hb => (hgood b hb).mono he, ?_⟩
  rwa [List.map_congr_left fun b hb => Subscriber.entry_mono (hgood b hb) he]

theorem get_of_live (h : r.Lists (live.map fun b => (mem b).entry p)) {b : Block}
    (hb : b ∈ live) : r.get (mem b).subscriberId = some ((mem b).account p) :=
  (h.mem _ _).mp (List.mem_map.mpr ⟨b, hb, rfl⟩)

theorem live_of_get (h : r.Lists (live.map fun b => (mem b).entry p)) {id : UInt64} {x : Account}
    (hx : r.get id = some x) :
    ∃ b ∈ live, (mem b).subscriberId = id ∧ (mem b).account p = x := by
  obtain ⟨b, hb, he⟩ := List.mem_map.mp ((h.mem id x).mpr hx)
  exact ⟨b, hb, congrArg Prod.fst he, congrArg Prod.snd he⟩

/-- The keys of an account are free if no live record has them. -/
theorem free_iff (h : r.Lists (live.map fun b => (mem b).entry p)) {x : Account} :
    r.Free x ↔ ∀ b ∈ live, (mem b).imsi.chars ≠ x.fields.imsi ∧
      (mem b).msisdn.chars ≠ x.fields.msisdn := by
  constructor
  · intro hfree b hb
    exact ⟨hfree .imsi _ _ (get_of_live h hb), hfree .msisdn _ _ (get_of_live h hb)⟩
  · intro hfree k id y hy
    obtain ⟨b, hb, -, rfl⟩ := live_of_get h hy
    cases k with
    | imsi => exact (hfree b hb).1
    | msisdn => exact (hfree b hb).2

/-! ### Adding -/

theorem account_null {x : AddArgs} (h : x.account = none) (a : Alloc) :
    subdbAdd p db x.imsi x.msisdn x.name x.region x.plan x.status x.outId x.now a =
      ⟨.errNullParam, p, db, none⟩ := by
  unfold subdbAdd
  split
  next himsi hmsisdn hname hregion hplan hout =>
    simp only [AddArgs.account, himsi, hmsisdn, hname, hregion, hplan, hout] at h
    cases h
  · rfl

theorem account_eq {x : AddArgs} {y : Account} (h : x.account = some y) :
    x.imsi = some y.fields.imsi ∧ x.msisdn = some y.fields.msisdn ∧ x.name = some y.fields.name ∧
      x.region = some y.fields.region ∧ x.plan = some y.fields.plan ∧ x.outId = true ∧
      y = ⟨⟨y.fields.imsi, y.fields.msisdn, y.fields.name, y.fields.region, y.fields.plan,
        x.status⟩,
        x.now, x.now⟩ := by
  unfold AddArgs.account at h
  split at h
  · cases h
    exact ⟨‹_›, ‹_›, ‹_›, ‹_›, ‹_›, ‹_›, rfl⟩
  · cases h

theorem newRecord_entry {y : Account} {status : SubStatus} {now : Int64} (hvalid : y.valid = true)
    (hy : y = ⟨⟨y.fields.imsi, y.fields.msisdn, y.fields.name, y.fields.region, y.fields.plan,
      status⟩, now, now⟩) {id : UInt64} {n g q : Option Handle} (hn : p.TextIs n y.fields.name)
    (hg : p.TextIs g y.fields.region) (hq : p.TextIs q y.fields.plan) :
    (newRecord id y.fields.imsi y.fields.msisdn n g q status now).entry p = (id, y) := by
  simp only [Account.valid, Bool.and_eq_true] at hvalid
  obtain ⟨⟨⟨⟨hi, hm⟩, -⟩, -⟩, -⟩ := hvalid
  simp only [newRecord, Subscriber.entry, Subscriber.account, Subscriber.fields,
    CharField.copy_chars (validDigits_length hi), CharField.copy_chars (validDigits_length hm),
    hn.cstr, hg.cstr, hq.cstr]
  exact congrArg (Prod.mk id) hy.symm

theorem newRecord_good {y : Account} (hvalid : y.valid = true) {id : UInt64} {status : SubStatus}
    {now : Int64} {n g q : Option Handle} (hn : p.TextIs n y.fields.name)
    (hg : p.TextIs g y.fields.region) (hq : p.TextIs q y.fields.plan) :
    GoodRecord p (newRecord id y.fields.imsi y.fields.msisdn n g q status now) := by
  simp only [Account.valid, Bool.and_eq_true] at hvalid
  obtain ⟨⟨⟨⟨hi, hm⟩, hname⟩, hregion⟩, hplan⟩ := hvalid
  refine ⟨?_, ?_, ⟨_, hname, hn⟩, ⟨_, hregion, hg⟩, ⟨_, hplan, hq⟩⟩
  · rwa [newRecord, CharField.copy_chars (validDigits_length hi)]
  · rwa [newRecord, CharField.copy_chars (validDigits_length hm)]

theorem nextId_new (r : Registry) (hlast : r.last + 1 < 2 ^ 64) : r.get r.nextId = none := by
  cases hg : r.get r.nextId with
  | none => rfl
  | some x =>
    have hle := (r.issued _ x hg).2
    rw [nextId_toNat hlast] at hle
    omega

/-- An account with a key in use is refused. -/
theorem account_taken {listed : List Block} (hidx : Indexed db listed live)
    (h : r.Lists (live.map fun b => (db.mem b).entry p)) {x : AddArgs} {y : Account}
    (hx : x.account = some y) (hvalid : y.valid = true) (htaken : ¬ r.Free y) (a : Alloc) :
    subdbAdd p db x.imsi x.msisdn x.name x.region x.plan x.status x.outId x.now a =
      ⟨.errDuplicate, p, db, none⟩ := by
  obtain ⟨e1, e2, e3, e4, e5, e6, -⟩ := account_eq hx
  simp only [Account.valid] at hvalid
  simp only [subdbAdd, e1, e2, e3, e4, e5, e6, hvalid, Bool.not_true, Bool.false_eq_true, if_false]
  cases himsi : htGet (imsiOps db.mem) db.byImsi (.value y.fields.imsi) with
  | ok b => rfl
  | error e =>
    cases hmsisdn : htGet (msisdnOps db.mem) db.byMsisdn (.value y.fields.msisdn) with
    | ok b => rfl
    | error e' =>
      refine absurd ((free_iff h).mpr fun b hb => ⟨?_, ?_⟩) htaken
      · exact (hidx.byImsi.get_error_iff.mp himsi).2 b hb
      · exact (hidx.byMsisdn.get_error_iff.mp hmsisdn).2 b hb

/-- A failed add may use up a number. -/
theorem HeldBy.kept (h : r.HeldBy (p, db)) {listed : List Block}
    (hgood : ∀ b ∈ live, GoodRecord p (db.mem b))
    (hlists : r.Lists (live.map fun b => (db.mem b).entry p)) {p' : SStrPool} {db' : SubscriberDb}
    {bound : ℕ} (hk : p.Keeps p') (hinv : DbInv db' 1 listed live bound)
    (hlo : r.last + 1 ≤ bound) (hhi : bound ≤ r.last + 2)
    (hmem : ∀ b ∈ live, db'.mem b = db.mem b) :
    ∃ r', (r' = r ∨ r' = r.lose) ∧ r'.HeldBy (p', db') := by
  obtain ⟨hp', he, hi'⟩ := hk h.wf
  have hgood' : ∀ b ∈ live, GoodRecord p' (db'.mem b) := fun b hb => by
    rw [hmem b hb]
    exact (hgood b hb).mono he
  have hlists' : r.Lists (live.map fun b => (db'.mem b).entry p') := by
    rwa [List.map_congr_left fun b hb => by
      rw [hmem b hb, Subscriber.entry_mono (hgood b hb) he]]
  have hcase : bound = r.last + 1 ∨ bound = r.last + 1 + 1 := by omega
  rcases hcase with rfl | rfl
  · exact ⟨r, Or.inl rfl, hp', hi'.trans h.isOpen, listed, live, hinv, hgood', hlists'⟩
  · exact ⟨r.lose, Or.inr rfl, hp', hi'.trans h.isOpen, listed, live, hinv, hgood', hlists'⟩

theorem HeldBy.add_new (h : r.HeldBy (p, db)) (hlast : r.last + 1 < 2 ^ 64) {x : AddArgs}
    {y : Account} (hx : x.account = some y) (hvalid : y.valid = true) (hfree : r.Free y)
    (a : Alloc) :
    ∃ r', r.Adds x a (RegistryCall.run (p, db) a (.add x)).2 r' ∧
      r'.HeldBy (RegistryCall.run (p, db) a (.add x)).1 ∧ r'.last ≤ r.last + 1 := by
  obtain ⟨listed, live, hinv, hgood, hlists⟩ := h.held
  obtain ⟨e1, e2, e3, e4, e5, e6, hy⟩ := account_eq hx
  have hlive := (free_iff hlists).mp hfree
  have hparts := hvalid
  simp only [Account.valid, Bool.and_eq_true] at hparts
  obtain ⟨⟨⟨⟨v1, v2⟩, v3⟩, v4⟩, v5⟩ := hparts
  have hnew : Addable db live y.fields.imsi y.fields.msisdn y.fields.name y.fields.region
      y.fields.plan :=
    ⟨v1, v2, v3, v4, v5, fun b hb => (hlive b hb).1, fun b hb => (hlive b hb).2⟩
  simp only [RegistryCall.run, e1, e2, e3, e4, e5, e6, subdbAdd_eq p hinv.indexed hnew]
  have hkeep := SStrPool.Keeps.addRecord p db y.fields.imsi y.fields.msisdn y.fields.name
    y.fields.region y.fields.plan x.status x.now a
  have hbound : r.last + 1 < 1 + 2 ^ 64 := by omega
  have hshort := addRecord_short hinv hbound hnew h.wf h.isOpen x.status x.now a
  have hcases := addRecord_cases p hinv hnew x.status x.now a
  generalize addRecord p db y.fields.imsi y.fields.msisdn y.fields.name y.fields.region
    y.fields.plan x.status x.now a = res at hkeep hshort hcases ⊢
  rcases hcases with hkept | hdone
  · cases hkept with
    | intro hst hid hlo hhi hinv' hmem =>
      obtain ⟨r', hlost, hheld⟩ := h.kept hgood hlists hkeep hinv' hlo hhi hmem
      obtain ⟨herr, hample⟩ := hshort.resolve_left hst
      refine ⟨r', ?_, hheld, ?_⟩
      · rw [herr]
        exact .short hx hvalid hfree hample hlost
      · rcases hlost with rfl | rfl
        · exact Nat.le_succ _
        · exact le_rfl
  · cases hdone with
    | @intro b n g q _ hb hst hid htexts hinv' hmem =>
      obtain ⟨hp', he, hi'⟩ := hkeep h.wf
      obtain ⟨t1, t2, t3⟩ := internTexts_ok h.wf htexts
      have hself : (res.db.mem b).entry res.strs = (r.nextId, y) := by
        rw [hmem, Function.update_self, newRecord_entry hvalid hy t1 t2 t3]
        exact congrArg (fun id => (id, y)) hinv.next
      have hold : ∀ c ∈ live, res.db.mem c = db.mem c := fun c hc => by
        rw [hmem, Function.update_of_ne (ne_of_mem_of_not_mem hc hb)]
      refine ⟨r.add y hvalid hfree hlast, ?_, ⟨hp', hi'.trans h.isOpen, b :: listed, b :: live,
        hinv', ?_, ?_⟩, le_rfl⟩
      · rw [hst, hid, if_pos rfl, Option.getD_some, hinv.next]
        exact .added hx hvalid hfree hlast
      · intro c hc
        rcases List.mem_cons.mp hc with rfl | hc
        · rw [hmem, Function.update_self]
          exact newRecord_good hvalid t1 t2 t3
        · rw [hold c hc]
          exact (hgood c hc).mono he
      · rw [List.map_cons, hself, List.map_congr_left fun c hc => by
          rw [hold c hc, Subscriber.entry_mono (hgood c hc) he]]
        exact hlists.insert (nextId_new r hlast) hfree

theorem HeldBy.add (h : r.HeldBy (p, db)) (hlast : r.last + 1 < 2 ^ 64) (x : AddArgs) (a : Alloc) :
    ∃ r', r.Adds x a (RegistryCall.run (p, db) a (.add x)).2 r' ∧
      r'.HeldBy (RegistryCall.run (p, db) a (.add x)).1 ∧ r'.last ≤ r.last + 1 := by
  obtain ⟨listed, live, hinv, hgood, hlists⟩ := h.held
  cases hx : x.account with
  | none =>
    simp only [RegistryCall.run, account_null hx]
    exact ⟨r, .null hx, h, Nat.le_succ _⟩
  | some y =>
    cases hvalid : y.valid with
    | false =>
      obtain ⟨e1, e2, e3, e4, e5, e6, -⟩ := account_eq hx
      have hbad := hvalid
      simp only [Account.valid] at hbad
      simp only [RegistryCall.run, subdbAdd, e1, e2, e3, e4, e5, e6, hbad, Bool.not_false, if_true]
      exact ⟨r, .invalid hx hvalid, h, Nat.le_succ _⟩
    | true =>
      by_cases hfree : r.Free y
      · exact h.add_new hlast hx hvalid hfree a
      · simp only [RegistryCall.run, account_taken hinv.indexed hlists hx hvalid hfree]
        exact ⟨r, .taken hx hvalid hfree, h, Nat.le_succ _⟩

/-! ### Deleting and updating -/

theorem HeldBy.delete (h : r.HeldBy (p, db)) (hlast : r.last ≤ 2 ^ 64) (id : UInt64) (a : Alloc) :
    ∃ r', r.Deletes id (RegistryCall.run (p, db) a (.delete id)).2 r' ∧
      r'.HeldBy (RegistryCall.run (p, db) a (.delete id)).1 ∧ r'.last ≤ r.last := by
  obtain ⟨listed, live, hinv, hgood, hlists⟩ := h.held
  have hlisted : listed.Perm live := (hinv.young (by omega)).1
  obtain ⟨hp', he, hi'⟩ := SStrPool.Keeps.subdbDelete p db id h.wf
  rcases subdbDelete_cases p hinv id with
    heq | ⟨b, listed', live', hperm, hid, hst, hinv', hmem, -, -⟩
  · refine ⟨r, ?_, ?_, le_rfl⟩
    · simp only [RegistryCall.run, heq, RegistryAnswer.ofStatus]
      refine .missing (hlists.get_none fun e hmem heid => ?_)
      obtain ⟨b, hb, rfl⟩ := List.mem_map.mp hmem
      -- a live record with the id would have been found
      have hget := hinv.indexed.byId.get_ok_iff.mpr ⟨hlisted.mem_iff.mpr hb, heid⟩
      simp only [subdbDelete, idOps, hget] at heq
      cases congrArg Prod.fst heq
    · simp only [RegistryCall.run, heq]
      exact h
  · have hentry : (db.mem b).entry p = (id, (db.mem b).account p) := by rw [← hid, Subscriber.entry]
    have hall := hlists.perm (hperm.map fun b => (db.mem b).entry p)
    rw [List.map_cons, hentry] at hall
    have hlive : ∀ c ∈ live', c ∈ live := fun c hc => hperm.mem_iff.mpr (List.mem_cons_of_mem _ hc)
    refine ⟨r.remove id, ?_, ⟨hp', hi'.trans h.isOpen, listed', live', hinv', fun c hc => ?_, ?_⟩,
      le_rfl⟩
    · simp only [RegistryCall.run, hst, RegistryAnswer.ofStatus]
      exact .removed ((hall.mem _ _).mp (List.mem_cons_self ..))
    · simp only [RegistryCall.run, hmem c hc]
      exact (hgood c (hlive c hc)).mono he
    · simp only [RegistryCall.run]
      rw [List.map_congr_left fun c hc => by
        rw [hmem c hc, Subscriber.entry_mono (hgood c (hlive c hc)) he]]
      exact hall.erase

theorem rewritten_key {b : Block} {s : Subscriber} (himsi : s.imsi = (db.mem b).imsi)
    (hmsisdn : s.msisdn = (db.mem b).msisdn) {p' : SStrPool} (k : AccountKey) :
    (s.account p').key k = ((db.mem b).account p).key k := by
  cases k with
  | imsi => exact congrArg CharField.chars himsi
  | msisdn => exact congrArg CharField.chars hmsisdn

/-- One live record is rewritten and keeps its keys. -/
theorem HeldBy.rewrite (h : r.HeldBy (p, db)) {listed : List Block}
    (hinv : DbInv db 1 listed live (r.last + 1)) (hgood : ∀ b ∈ live, GoodRecord p (db.mem b))
    (hlists : r.Lists (live.map fun b => (db.mem b).entry p)) {p' : SStrPool} (hk : p.Keeps p')
    {b : Block} (hb : b ∈ live) {s : Subscriber}
    (hid : s.subscriberId = (db.mem b).subscriberId) (himsi : s.imsi = (db.mem b).imsi)
    (hmsisdn : s.msisdn = (db.mem b).msisdn) (hs : GoodRecord p' s) :
    (r.revise (db.mem b).subscriberId (s.account p') (get_of_live hlists hb)
      (rewritten_key himsi hmsisdn) hs.account_valid).HeldBy
        (p', { db with mem := Function.update db.mem b s }) := by
  obtain ⟨hp', he, hi'⟩ := hk h.wf
  have hperm : live.Perm (b :: live.erase b) := List.perm_cons_erase hb
  have hother : ∀ c ∈ live.erase b, c ∈ live ∧ c ≠ b := fun c hc => by
    have hnodup := hperm.nodup_iff.mp hinv.owned.held_nodup
    exact ⟨List.mem_of_mem_erase hc, ne_of_mem_of_not_mem hc (List.nodup_cons.mp hnodup).1⟩
  refine ⟨hp', hi'.trans h.isOpen, listed, live, hinv.rewrite hid himsi hmsisdn, fun c hc => ?_, ?_⟩
  · by_cases hcb : c = b
    · simp only [hcb, Function.update_self]
      exact hs
    · simp only [Function.update_of_ne hcb]
      exact (hgood c hc).mono he
  · have hall := hlists.perm (hperm.map fun c => (db.mem c).entry p)
    rw [List.map_cons] at hall
    have hnew := hall.replace (get_of_live hlists hb) (r := s.account p')
      (rewritten_key himsi hmsisdn)
    have hrows : ((b :: live.erase b).map fun c => (Function.update db.mem b s c).entry p') =
        ((db.mem b).subscriberId, s.account p') ::
          (live.erase b).map fun c => (db.mem c).entry p := by
      rw [List.map_cons, Function.update_self, List.map_congr_left fun c hc => by
        rw [Function.update_of_ne (hother c hc).2,
          Subscriber.entry_mono (hgood c (hother c hc).1) he]]
      rw [Subscriber.entry, hid]
    exact UniqueMap.Lists.perm (hrows ▸ hnew) (hperm.map _).symm

theorem HeldBy.update (h : r.HeldBy (p, db)) (hlast : r.last ≤ 2 ^ 64) (id : UInt64) (c : Changes)
    (a : Alloc) :
    ∃ r', r.Updates id c a (RegistryCall.run (p, db) a (.update id c)).2 r' ∧
      r'.HeldBy (RegistryCall.run (p, db) a (.update id c)).1 ∧ r'.last ≤ r.last := by
  obtain ⟨listed, live, hinv, hgood, hlists⟩ := h.held
  have hlisted : listed.Perm live := (hinv.young (by omega)).1
  cases hvalid : c.valid with
  | false =>
    have hbad := hvalid
    simp only [Changes.valid] at hbad
    simp only [RegistryCall.run, subdbUpdate, hbad, Bool.not_false, if_true]
    exact ⟨r, .invalid hvalid, h, le_rfl⟩
  | true =>
    have hparts := hvalid
    simp only [Changes.valid] at hparts
    simp only [RegistryCall.run, subdbUpdate, hparts, Bool.not_true, Bool.false_eq_true, if_false]
    simp only [Bool.and_eq_true] at hparts
    obtain ⟨⟨hn, hg⟩, hq⟩ := hparts
    cases hget : htGet (idOps db.mem) db.byId (.value id) with
    | error e =>
      refine ⟨r, .missing hvalid (hlists.get_none fun e' hmem => ?_), h, le_rfl⟩
      obtain ⟨b, hb, rfl⟩ := List.mem_map.mp hmem
      exact (hinv.indexed.byId.get_error_iff.mp hget).2 b (hlisted.mem_iff.mpr hb)
    | ok b =>
      obtain ⟨hb, rfl⟩ := hinv.indexed.byId.get_ok_iff.mp hget
      have hlive : b ∈ live := hlisted.mem_iff.mp hb
      have hkeep := SStrPool.Keeps.updateTexts p (db.mem b) c.name c.region c.plan a
      obtain ⟨hname, hregion, hplan⟩ := updateTexts_given h.wf h.isOpen (hgood b hlive) hn hg hq a
      have hnew := updateTexts_good h.wf (hgood b hlive) hn hg hq a
      have hrest := h.rewrite hinv hgood hlists hkeep hlive (s := { (updateTexts p (db.mem b) c.name
        c.region c.plan a).2 with
          status := c.status.getD (db.mem b).status, updatedAt := c.now }) rfl rfl rfl
        ⟨hnew.imsi, hnew.msisdn, hnew.name, hnew.region, hnew.plan⟩
      refine ⟨_, .revised hvalid (get_of_live hlists hlive) ?_ _ _, hrest, le_rfl⟩
      exact ⟨hname, hregion, hplan, rfl, rfl, rfl, rfl, rfl⟩

/-! ### Searching -/

theorem filter_one {α : Type} {l : List α} {f : α → Bool} {e : α} (hl : l.Nodup) (he : e ∈ l)
    (hf : f e = true) (huniq : ∀ x ∈ l, f x = true → x = e) : l.filter f = [e] := by
  refine List.perm_singleton.mp
    ((List.perm_ext_iff_of_nodup (hl.filter f) (List.nodup_singleton e)).mpr fun x => ?_)
  rw [List.mem_filter, List.mem_singleton]
  exact ⟨fun h => huniq x h.1 h.2, fun h => h ▸ ⟨he, hf⟩⟩

theorem entry_sameTexts {p' : SStrPool} (h : p.SameTexts p') (s : Subscriber) :
    s.entry p' = s.entry p := by
  simp only [Subscriber.entry, Subscriber.account, Subscriber.fields, h.cstr]

/-- A search by a key, of which an index has at most one record. -/
theorem finds_single (hlists : r.Lists (live.map fun b => (db.mem b).entry p)) {q : Query}
    (hnull : q.isNull = false) (hone : q.isSingle = true) {found : Except SmStatus Block}
    (hok : ∀ b, found = .ok b → b ∈ live ∧ q.wants ((db.mem b).entry p) = true ∧
      ∀ c ∈ live, q.wants ((db.mem c).entry p) = true → c = b)
    (herr : ∀ e, found = .error e →
      e = .errNotFound ∧ ∀ b ∈ live, q.wants ((db.mem b).entry p) = false) (a : Alloc) :
    r.Finds q a (.ofSearch ((searchResult p db.mem found a).1.map fun s => [s],
      (searchResult p db.mem found a).2)) := by
  cases found with
  | error e =>
    obtain ⟨rfl, hnone⟩ := herr e rfl
    refine .missing hnull hone fun id x hx => ?_
    obtain ⟨b, hb, rfl, rfl⟩ := live_of_get hlists hx
    exact hnone b hb
  | ok b =>
    obtain ⟨hb, hwant, huniq⟩ := hok b rfl
    have htexts := SStrPool.sameTexts_tracks.makeSnapshot p (db.mem b) a
    cases ha : a 0 with
    | false =>
      simp only [searchResult, makeSnapshot, ha, Bool.not_false, if_true]
      refine .short (get_of_live hlists hb) hwant fun hall => ?_
      rw [hall 0] at ha
      cases ha
    | true =>
      simp only [makeSnapshot, ha, Bool.not_true, Bool.false_eq_true, if_false] at htexts
      simp only [searchResult, makeSnapshot, ha, Bool.not_true, Bool.false_eq_true, if_false]
      have hrows : (live.map fun c => (db.mem c).entry p).filter q.wants =
          [(db.mem b).entry p] := by
        refine filter_one hlists.nodup_rows (List.mem_map.mpr ⟨b, hb, rfl⟩) hwant fun e he hw => ?_
        obtain ⟨c, hc, rfl⟩ := List.mem_map.mp he
        rw [huniq c hc hw]
      have hanswer := Finds.rows (a := a) hnull hlists fun _ => by
        rw [hrows]
        rfl
      rw [hrows, ← entry_sameTexts htexts] at hanswer
      exact hanswer

/-- A search through all records. -/
theorem finds_filter {rows : List (UInt64 × Account)} (hlists : r.Lists rows)
    (hrecords : ((dbRecords db).map (Subscriber.entry p)).Perm rows) {q : Query}
    (hnull : q.isNull = false) (hmany : q.isSingle = false) {f : Filter}
    (hwants : ∀ s : Subscriber, q.wants (s.entry p) = f.cut.wants p s) (a : Alloc) :
    r.Finds q a (.ofSearch (f.run p db a)) := by
  have hall := hlists.perm hrecords.symm
  rw [f.run_eq]
  rcases filteredSearch_cases f.cut.wants_byTexts p db a with ⟨-, p', htexts, he⟩ | ⟨hno, p', he⟩
  · have hrows : ((dbRecords db).filter (f.cut.wants p)).map (Subscriber.entry p') =
        ((dbRecords db).map (Subscriber.entry p)).filter q.wants := by
      rw [List.filter_map, List.filter_congr fun s _ => (hwants s).symm]
      exact List.map_congr_left fun s _ => entry_sameTexts htexts s
    simp only [he, RegistryAnswer.ofSearch, hrows]
    exact .rows hnull hall fun h => by rw [hmany] at h; cases h
  · simp only [he, RegistryAnswer.ofSearch]
    have hsome : 0 < ((dbRecords db).filter (f.cut.wants p)).length := by
      by_contra hzero
      exact hno fun k hk => by omega
    obtain ⟨s, hs⟩ := List.exists_mem_of_length_pos hsome
    obtain ⟨hs, hwant⟩ := List.mem_filter.mp hs
    refine .short ((hall.mem _ _).mp (List.mem_map.mpr ⟨s, hs, rfl⟩))
      ((hwants s).trans hwant) fun ha => hno fun k _ => ⟨fun _ => ha _, ha _⟩

theorem HeldBy.search (h : r.HeldBy (p, db)) (hlast : r.last ≤ 2 ^ 64) (q : Query) (a : Alloc) :
    r.Finds q a (RegistryCall.run (p, db) a (.search q)).2 := by
  obtain ⟨listed, live, hinv, hgood, hlists⟩ := h.held
  have hlisted : listed.Perm live := (hinv.young (by omega)).1
  have hrecords : ((dbRecords db).map (Subscriber.entry p)).Perm
      (live.map fun b => (db.mem b).entry p) := by
    have hperm := (dbRecords_live hinv (by omega)).map (Subscriber.entry p)
    rwa [List.map_map] at hperm
  cases q with
  | byId id =>
    refine finds_single hlists rfl rfl (fun b hb => ?_) (fun e he => ?_) a
    · obtain ⟨hb, hid⟩ := hinv.indexed.byId.get_ok_iff.mp hb
      refine ⟨hlisted.mem_iff.mp hb, decide_eq_true hid, fun c hc hw => ?_⟩
      have hcid := of_decide_eq_true hw
      exact hinv.indexed.byId.inj (hlisted.mem_iff.mpr hc) hb (hcid.trans hid.symm)
    · obtain ⟨rfl, hnone⟩ := hinv.indexed.byId.get_error_iff.mp he
      exact ⟨rfl, fun b hb => decide_eq_false (hnone b (hlisted.mem_iff.mpr hb))⟩
  | byImsi imsi =>
    cases imsi with
    | none => exact .null rfl
    | some imsi =>
      refine finds_single hlists rfl rfl (fun b hb => ?_) (fun e he => ?_) a
      · obtain ⟨hb, hkey⟩ := hinv.indexed.byImsi.get_ok_iff.mp hb
        refine ⟨hb, decide_eq_true (congrArg some hkey), fun c hc hw => ?_⟩
        have hckey := Option.some.inj (of_decide_eq_true hw)
        exact hinv.indexed.byImsi.inj hc hb (hckey.trans hkey.symm)
      · obtain ⟨rfl, hnone⟩ := hinv.indexed.byImsi.get_error_iff.mp he
        exact ⟨rfl, fun b hb => decide_eq_false fun hw => hnone b hb (Option.some.inj hw)⟩
  | byMsisdn msisdn =>
    cases msisdn with
    | none => exact .null rfl
    | some msisdn =>
      refine finds_single hlists rfl rfl (fun b hb => ?_) (fun e he => ?_) a
      · obtain ⟨hb, hkey⟩ := hinv.indexed.byMsisdn.get_ok_iff.mp hb
        refine ⟨hb, decide_eq_true (congrArg some hkey), fun c hc hw => ?_⟩
        have hckey := Option.some.inj (of_decide_eq_true hw)
        exact hinv.indexed.byMsisdn.inj hc hb (hckey.trans hkey.symm)
      · obtain ⟨rfl, hnone⟩ := hinv.indexed.byMsisdn.get_error_iff.mp he
        exact ⟨rfl, fun b hb => decide_eq_false fun hw => hnone b hb (Option.some.inj hw)⟩
  | byRegion region =>
    cases region with
    | none => exact .null rfl
    | some region =>
      refine finds_filter hlists hrecords rfl rfl (f := .region region) (fun s => ?_) a
      simp only [Query.wants, Filter.cut, Filter.wants, Option.map_some, Option.some.injEq,
        Subscriber.entry, Subscriber.account, Subscriber.fields]
  | byPlan plan =>
    cases plan with
    | none => exact .null rfl
    | some plan =>
      refine finds_filter hlists hrecords rfl rfl (f := .plan plan) (fun s => ?_) a
      simp only [Query.wants, Filter.cut, Filter.wants, Option.map_some, Option.some.injEq,
        Subscriber.entry, Subscriber.account, Subscriber.fields]
  | byStatus status =>
    exact finds_filter hlists hrecords rfl rfl (f := .status status) (fun _ => rfl) a
  | all => exact finds_filter hlists hrecords rfl rfl (f := .all) (fun _ => rfl) a

/-! ### Loading -/

theorem account_args (f : CsvFields) (now : Int64) : (f.args now).account =
    some ⟨⟨f.imsi, f.msisdn, f.name, f.region, f.plan, subStatusFromStr f.statusS⟩, now, now⟩ := rfl

theorem reads_outcome {x : LineInput} {f : CsvFields} {r' : Registry} {res : AddResult}
    (hline : (chompLine x.piece).isEmpty = false) (hf : scanRecord (chompLine x.piece) = some f)
    (h : r.Adds (f.args x.now) x.a
      (if res.status = .ok then .added (res.id.getD 0) else .failed res.status) r') :
    r.Reads x res.outcome r' := by
  obtain ⟨st, strs, db, id⟩ := res
  cases st with
  | ok => exact .added hline hf h
  | _ => exact .refused hline hf h

theorem HeldBy.loadLine (h : r.HeldBy (p, db)) (hlast : r.last + 1 < 2 ^ 64) (x : LineInput) :
    let l := loadLine p db x.piece x.now x.a
    ∃ r', r.Reads x l.1 r' ∧ r'.HeldBy l.2 ∧ r'.last ≤ r.last + 1 := by
  intro l
  simp only [l, SubscriberMgmt.loadLine]
  cases hline : (chompLine x.piece).isEmpty with
  | true => exact ⟨r, .blank hline, h, Nat.le_succ _⟩
  | false =>
    simp only [Bool.false_eq_true, if_false]
    cases hf : scanRecord (chompLine x.piece) with
    | none => exact ⟨r, .malformed hline hf, h, Nat.le_succ _⟩
    | some f =>
      dsimp only
      split
      next hbad =>
        refine ⟨r, .invalid hline hf (account_args f x.now) ?_, h, Nat.le_succ _⟩
        simpa only [Account.valid, Bool.not_eq_true'] using hbad
      next =>
        obtain ⟨r', hadds, hheld, hle⟩ := h.add hlast (f.args x.now) x.a
        exact ⟨r', reads_outcome hline hf hadds, hheld, hle⟩

theorem HeldBy.loadLines {s : DbState} (h : r.HeldBy s) (clock : ℕ → Int64) (a : Alloc) (i : ℕ)
    (pieces : List Str) (hlast : r.last + pieces.length < 2 ^ 64) :
    let l := loadLines s.1 s.2 clock a i pieces
    ∃ r', Machine.Runs Reads r (lineInputs clock a i pieces) l.1 r' ∧ r'.HeldBy l.2 ∧
      r'.last ≤ r.last + pieces.length := by
  induction pieces generalizing r s i with
  | nil => exact ⟨r, .nil r, h, le_rfl⟩
  | cons piece pieces ih =>
    rw [List.length_cons] at hlast
    obtain ⟨r1, hreads, h1, hle⟩ := h.loadLine (by omega) ⟨piece, clock i, a.skip (20 * i)⟩
    obtain ⟨r2, hrun, h2, hle'⟩ := ih h1 (i + 1) (by omega)
    refine ⟨r2, .cons hreads hrun, h2, ?_⟩
    rw [List.length_cons]
    omega

theorem csvPieces_length {path : Option Str} {files : Str → Option Str} {pieces : List Str}
    (h : csvPieces path files = .ok pieces) : pieces.length = loadCount path files := by
  cases path with
  | none => cases h
  | some path =>
    simp only [csvPieces] at h
    simp only [loadCount, Option.bind_some]
    cases hf : files path with
    | none =>
      rw [hf] at h
      cases h
    | some content =>
      rw [hf] at h
      dsimp only [Option.elim_some] at h ⊢
      cases hlines : fgetsAll (smMaxLineLen - 2) content with
      | nil =>
        rw [hlines] at h
        cases h
      | cons header rest =>
        rw [hlines] at h
        dsimp only at h
        split at h
        · cases h
        · cases h
          rfl

theorem subdbLoadCsv_pieces (p : SStrPool) (db : SubscriberDb) (path : Option Str)
    (files : Str → Option Str) (clock : ℕ → Int64) (a : Alloc) :
    subdbLoadCsv p db path files clock a =
      match csvPieces path files with
      | .error st => ⟨st, [], p, db⟩
      | .ok pieces =>
        let l := loadLines p db clock a 0 pieces
        ⟨.ok, l.1, l.2.1, l.2.2⟩ := by
  cases path with
  | none => rfl
  | some path =>
    simp only [subdbLoadCsv, csvPieces]
    cases files path with
    | none => rfl
    | some content =>
      dsimp only
      cases fgetsAll (smMaxLineLen - 2) content with
      | nil => rfl
      | cons header pieces =>
        dsimp only
        split <;> rfl

theorem HeldBy.load (h : r.HeldBy (p, db)) (path : Option Str) (files : Str → Option Str)
    (clock : ℕ → Int64) (a : Alloc) (hlast : r.last + loadCount path files < 2 ^ 64) :
    ∃ r', r.Loads path files clock a (RegistryCall.run (p, db) a (.load path files clock)).2 r' ∧
      r'.HeldBy (RegistryCall.run (p, db) a (.load path files clock)).1 ∧
      r'.last ≤ r.last + loadCount path files := by
  simp only [RegistryCall.run, subdbLoadCsv_pieces]
  cases hfile : csvPieces path files with
  | error st => exact ⟨r, .unread hfile, h, Nat.le_add_right _ _⟩
  | ok pieces =>
    rw [← csvPieces_length hfile] at hlast ⊢
    obtain ⟨r', hrun, hheld, hle⟩ := h.loadLines clock a 0 pieces hlast
    exact ⟨r', .merged hfile hrun, hheld, hle⟩

/-! ### Runs -/

end Registry

/-- What an action may use up of the ids. -/
def RegistryAction.adds : RegistryAction → ℕ
  | .call (.add _) _ => 1
  | .call (.load path files _) _ => loadCount path files
  | _ => 0

/-- One call is one request to the registry. -/
theorem registryStep_serves {s : DbState} {r : Registry} (h : r.HeldBy s) (act : RegistryAction)
    (hlast : r.last + act.adds < 2 ^ 64) :
    ∃ r', r.Serves act (registryStep s act).2 r' ∧ r'.HeldBy (registryStep s act).1 ∧
      r'.last ≤ r.last + act.adds := by
  obtain ⟨p, db⟩ := s
  cases act with
  | free array =>
    exact ⟨r, .free, h.pool (SStrPool.keeps_tracks.freeResults p array), Nat.le_add_right _ _⟩
  | call c a =>
    cases c with
    | add x =>
      obtain ⟨r', hserves, hheld, hle⟩ := h.add hlast x a
      exact ⟨r', .add hserves, hheld, hle⟩
    | delete id =>
      obtain ⟨r', hserves, hheld, hle⟩ := h.delete (Nat.le_of_lt hlast) id a
      exact ⟨r', .delete hserves, hheld, hle⟩
    | update id c =>
      obtain ⟨r', hserves, hheld, hle⟩ := h.update (Nat.le_of_lt hlast) id c a
      exact ⟨r', .update hserves, hheld, hle⟩
    | search q =>
      exact ⟨r, .search (h.search (Nat.le_of_lt hlast) q a), h.pool (Query.keeps p db a q),
        Nat.le_add_right _ _⟩
    | count =>
      obtain ⟨listed, live, hinv, -, hlists⟩ := h.held
      have hcount : subdbCount db = (live.map fun b => (db.mem b).entry p).length := by
        rw [List.length_map, ← (hinv.young (by omega)).1.length_eq]
        exact hinv.indexed.byId.count
      refine ⟨r, ?_, h, Nat.le_add_right _ _⟩
      simp only [registryStep, RegistryCall.run, hcount]
      exact .count hlists
    | load path files clock =>
      obtain ⟨r', hserves, hheld, hle⟩ := h.load path files clock a hlast
      exact ⟨r', .load hserves, hheld, hle⟩

end SubscriberMgmt
