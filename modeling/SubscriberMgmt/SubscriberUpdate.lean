import SubscriberMgmt.SubscriberStore
import SubscriberMgmt.SubscriberRecords

/-!
# What an update changes (`subscriber.c:374-426`)

A text that cannot be interned leaves its field as it is, and the call goes on
to the next one. Records are compared as clients see them, with the texts of
their fields.
-/

namespace SubscriberMgmt

/-! ### Interning a supplied text -/

/-- A text is interned without an allocation when the pool has it already. -/
def Interned (texts : List Str) (text : Option Str) (a : Alloc) : Prop :=
  ∀ t ∈ text, t ∈ texts ∨ (a 0 = true ∧ a 1 = true ∧ a 2 = true)

/-- The supplied texts are interned one after the other. `others` are the texts of the other
references, and `n`, `r`, `q` those of the record. -/
structure TextsFit (others : List Str) (n r q : Str) (name region plan : Option Str) (a : Alloc) :
    Prop where
  nameIn : Interned (n :: r :: q :: others) name a
  regionIn : Interned (r :: name.getD n :: q :: others) region (a.skip 4)
  planIn : Interned (q :: name.getD n :: region.getD r :: others) plan (a.skip 8)

namespace SStrPool.Refs

variable {p : SStrPool} {held rest : List Handle}

theorem intern_ok_iff (hr : p.Refs held) (hi : p.initialized = true) {text : Str}
    (hpos : 0 < text.length) (hlen : text.length ≤ 255) (a : Alloc) :
    (∃ h, (sstrIntern p text a).1 = .ok h) ↔
      text ∈ held.map (fun h => (p.cells h).data) ∨ (a 0 = true ∧ a 1 = true ∧ a 2 = true) := by
  have hl : ¬ (text.length = 0 ∨ 255 < text.length) := by omega
  unfold sstrIntern
  simp only [hi, hl, Bool.not_true, Bool.false_eq_true, if_false]
  cases hg : htGet p.ops p.table (.value text) with
  | ok h =>
    obtain ⟨hm, hdata⟩ := hr.wf.index.get_ok_iff.mp hg
    have hh : h ∈ held := (hr.entry h).mpr (List.mem_map.mp hm)
    exact iff_of_true ⟨h, rfl⟩ (Or.inl (List.mem_map.mpr ⟨h, hh, hdata⟩))
  | error e =>
    have habs := (hr.wf.index.get_error_iff.mp hg).2
    have hnot : text ∉ held.map fun h => (p.cells h).data := by
      intro hm
      obtain ⟨h, hh, hdata⟩ := List.mem_map.mp hm
      exact habs h (List.mem_map.mpr ((hr.entry h).mp hh)) hdata
    rw [or_iff_right hnot]
    cases h0 : a 0 with
    | false => simp
    | true =>
      cases h1 : a 1 with
      | false => simp
      | true =>
        have hold : ∀ i ∈ p.table.nodes.map HtNode.value,
            ((p.mallocString text).cells i).data = (p.cells i).data := fun i hi =>
          (mallocString_extends p text).data_eq i
            (hr.lt_next ((hr.entry i).mpr (List.mem_map.mp hi)))
        have hself : ((p.mallocString text).cells p.next).data = text := by
          simp [mallocString, setCell]
        have hput := (hr.wf.index.congr hold).put (p := p.next) (fun i hi => by
          rw [hold i hi, hself]
          exact habs i hi) (a.skip 2)
        rcases hput with ⟨h2, he⟩ | ⟨h2, t, he, -⟩
        · have h2 : a 2 = false := h2
          simp [ops, he, h2]
        · have h2 : a 2 = true := h2
          simp [ops, he, h2]

/-- The references whose texts are supplied by three fields and the others. -/
theorem texts_eq {p' : SStrPool} (hrest : ∀ h ∈ rest, (p'.cells h).data = (p.cells h).data)
    {h₁ h₂ h₃ : Option Handle} {t₁ t₂ t₃ : Str} (h1 : p'.TextIs h₁ t₁) (h2 : p'.TextIs h₂ t₂)
    (h3 : p'.TextIs h₃ t₃) :
    (h₁.toList ++ (h₂.toList ++ (h₃.toList ++ rest))).map (fun h => (p'.cells h).data) =
      t₁ :: t₂ :: t₃ :: rest.map fun h => (p.cells h).data := by
  obtain ⟨i₁, rfl, -, d1⟩ := h1
  obtain ⟨i₂, rfl, -, d2⟩ := h2
  obtain ⟨i₃, rfl, -, d3⟩ := h3
  have hmap := List.map_congr_left hrest
  simp only [Option.toList_some, List.singleton_append, List.map_cons, d1, d2, d3, hmap]

/-- One text field: it has the supplied text, or it is as it was. -/
theorem updateText_spec (hr : p.Refs held) (hi : p.initialized = true) {old : Option Handle}
    (hp : held.Perm (old.toList ++ rest)) {t₀ : Str} (hold : p.TextIs old t₀) {text : Option Str}
    (hv : text.all subValidateName = true) (a : Alloc) :
    let u := updateText p old text a
    (Interned (held.map fun h => (p.cells h).data) text a → u.1.TextIs u.2 (text.getD t₀)) ∧
      (¬ Interned (held.map fun h => (p.cells h).data) text a →
        u.1.TextIs u.2 t₀ ∧ text.getD t₀ ≠ t₀) := by
  intro u
  cases text with
  | none =>
    refine ⟨fun _ => hold, fun hnot => ?_⟩
    exact absurd (fun t ht => by cases ht) hnot
  | some t =>
    obtain ⟨hpos, hlen⟩ := validName_length hv
    have hlen' : t.length ≤ 255 := by
      simp only [smMaxNameLen] at hlen
      omega
    have hok := hr.intern_ok_iff hi hpos hlen' a
    have hint : Interned (held.map fun h => (p.cells h).data) (some t) a ↔
        t ∈ held.map (fun h => (p.cells h).data) ∨ (a 0 = true ∧ a 1 = true ∧ a 2 = true) :=
      ⟨fun h => h t rfl, fun h s hs => by cases hs; exact h⟩
    rw [hint, ← hok]
    simp only [u, updateText]
    rcases intern_spec hr.wf t a with ⟨st, -, he⟩ | ⟨h, p', he, -, -, hlt, hdata, -⟩
    · rw [he] at hok ⊢
      refine ⟨fun h => (by obtain ⟨h, hh⟩ := h; cases hh), fun hno => ⟨hold, fun heq => hno ?_⟩⟩
      -- the text of the field itself is in the pool
      refine hok.mpr (Or.inl ?_)
      obtain ⟨i, rfl, -, hd⟩ := hold
      have hmem : i ∈ held := hp.mem_iff.mpr (by simp)
      have ht : t = t₀ := heq
      exact List.mem_map.mpr ⟨i, hmem, hd.trans ht.symm⟩
    · rw [he]
      have ht : p'.TextIs (some h) t := ⟨h, rfl, hlt, hdata⟩
      exact ⟨fun _ => ht.mono (release_extends p' old), fun hno => absurd ⟨h, rfl⟩ hno⟩

/-- The three text fields have the supplied texts exactly when all of them are interned. -/
theorem updateTexts_spec (hr : p.Refs held) (hi : p.initialized = true) {s : Subscriber}
    (hp : held.Perm (s.handles ++ rest)) (hroom : Room held 3) {n r q : Str}
    (hn : p.TextIs s.name n) (hg : p.TextIs s.region r) (hq : p.TextIs s.plan q)
    {name region plan : Option Str} (vn : name.all subValidateName = true)
    (vr : region.all subValidateName = true) (vp : plan.all subValidateName = true) (a : Alloc) :
    let u := updateTexts p s name region plan a
    (sstrCstr u.1 u.2.name = name.getD n ∧ sstrCstr u.1 u.2.region = region.getD r ∧
        sstrCstr u.1 u.2.plan = plan.getD q) ↔
      TextsFit (rest.map fun h => (p.cells h).data) n r q name region plan a := by
  intro u
  have hp1 : held.Perm (s.name.toList ++ (s.region.toList ++ (s.plan.toList ++ rest))) := by
    simpa only [Subscriber.handles, List.append_assoc] using hp
  have hlt : ∀ h ∈ rest, h < p.next := fun h hh =>
    hr.lt_next (hp.mem_iff.mpr (List.mem_append_right _ hh))
  obtain ⟨⟨r1, -⟩, r2, -⟩ := updateTexts_stages hr hp hroom name region a
  obtain ⟨w1, x1, i1⟩ := Keeps.updateText p s.name name a hr.wf
  have s1 := (hr.perm hp1).updateText_spec hi (List.Perm.refl _) hn vn a
  rw [texts_eq (fun _ _ => rfl) hn hg hq] at s1
  simp only [u, updateTexts]
  generalize updateText p s.name name a = u1 at r1 r2 w1 x1 i1 s1 ⊢
  obtain ⟨w2, x2, i2⟩ := Keeps.updateText u1.1 s.region region (a.skip 4) w1
  have s2 := r1.updateText_spec (i1.trans hi) (List.Perm.refl _) (hg.mono x1) vr (a.skip 4)
  generalize updateText u1.1 s.region region (a.skip 4) = u2 at r2 w2 x2 i2 s2 ⊢
  obtain ⟨-, x3, -⟩ := Keeps.updateText u2.1 s.plan plan (a.skip 8) w2
  have s3 := r2.updateText_spec (i2.trans (i1.trans hi)) (List.Perm.refl _)
    (hq.mono (x1.trans x2)) vp (a.skip 8)
  generalize updateText u2.1 s.plan plan (a.skip 8) = u3 at x3 s3 ⊢
  by_cases f1 : Interned (n :: r :: q :: rest.map fun h => (p.cells h).data) name a
  case neg =>
    obtain ⟨t1, hne⟩ := s1.2 f1
    refine iff_of_false (fun h => hne ?_) fun h => f1 h.nameIn
    rw [← h.1, (t1.mono (x2.trans x3)).cstr]
  have t1 := s1.1 f1
  rw [texts_eq (fun h hh => x1.data_eq h (hlt h hh)) (hg.mono x1) t1 (hq.mono x1)] at s2
  by_cases f2 : Interned (r :: name.getD n :: q :: rest.map fun h => (p.cells h).data) region
    (a.skip 4)
  case neg =>
    obtain ⟨t2, hne⟩ := s2.2 f2
    refine iff_of_false (fun h => hne ?_) fun h => f2 h.regionIn
    rw [← h.2.1, (t2.mono x3).cstr]
  have t2 := s2.1 f2
  rw [texts_eq (fun h hh => (x1.trans x2).data_eq h (hlt h hh)) (hq.mono (x1.trans x2))
    (t1.mono x2) t2] at s3
  by_cases f3 : Interned (q :: name.getD n :: region.getD r :: rest.map fun h => (p.cells h).data)
    plan (a.skip 8)
  case neg =>
    obtain ⟨t3, hne⟩ := s3.2 f3
    refine iff_of_false (fun h => hne ?_) fun h => f3 h.planIn
    rw [← h.2.2, t3.cstr]
  refine iff_of_true ⟨?_, ?_, (s3.1 f3).cstr⟩ ⟨f1, f2, f3⟩
  · exact (t1.mono (x2.trans x3)).cstr
  · exact (t2.mono x3).cstr

end SStrPool.Refs

theorem updateTexts_frame (p : SStrPool) (s : Subscriber) (name region plan : Option Str)
    (a : Alloc) :
    let u := updateTexts p s name region plan a
    u.2.subscriberId = s.subscriberId ∧ u.2.imsi = s.imsi ∧ u.2.msisdn = s.msisdn ∧
      u.2.createdAt = s.createdAt := ⟨rfl, rfl, rfl, rfl⟩

/-! ### Records as clients see them -/

namespace SubscriberDb

/-- The blocks of the live records. -/
def blocks (db : SubscriberDb) : List Block := db.byImsi.nodes.map HtNode.value

end SubscriberDb

namespace Store

def recordAt (s : Store) (d : ℕ) (b : Block) : Option Snapshot :=
  match s.dbs[d]? with
  | some (some x) => if b ∈ x.db.blocks then some (Snapshot.of s.strs (x.db.mem b)) else none
  | _ => none

/-- Where the record with an id is. -/
def find (s : Store) (d : ℕ) (id : UInt64) : Option Block :=
  match s.dbs[d]? with
  | some (some x) => (htGet (idOps x.db.mem) x.db.byId (.value id)).toOption
  | _ => none

/-- What a call of `subdb_update` that returns `st` promises about the stores before and after. -/
structure UpdateExact (s s' : Store) (st : SmStatus) (d : ℕ) (id : UInt64)
    (name region plan : Option Str) (status : Option SubStatus) : Prop where
  supplied : st = .ok → ∃ b old new, s.find d id = some b ∧ s'.find d id = some b ∧
    s.recordAt d b = some old ∧ s'.recordAt d b = some new ∧
    new.name = name.getD old.name ∧ new.region = region.getD old.region ∧
    new.plan = plan.getD old.plan ∧ new.sub.status = status.getD old.sub.status ∧
    new.sub.subscriberId = old.sub.subscriberId ∧ new.sub.imsi = old.sub.imsi ∧
    new.sub.msisdn = old.sub.msisdn ∧ new.sub.createdAt = old.sub.createdAt
  failed : st ≠ .ok → ∀ e c, s'.recordAt e c = s.recordAt e c
  others : ∀ e c, e ≠ d ∨ s.find d id ≠ some c → s'.recordAt e c = s.recordAt e c

/-- The texts of all references but those of one record. -/
def otherTexts (s : Store) (r : Subscriber) : List Str :=
  (s.refs.diff r.handles).map fun h => (s.strs.cells h).data

/-- The supplied texts are interned, if there is such a record and the texts are valid. -/
def UpdateFits (s : Store) (d : ℕ) (id : UInt64) (name region plan : Option Str) (a : Alloc) :
    Prop :=
  ∀ b old, s.find d id = some b → s.recordAt d b = some old →
    name.all subValidateName ∧ region.all subValidateName ∧ plan.all subValidateName →
    TextsFit (s.otherTexts old.sub) old.name old.region old.plan name region plan a

end Store

/-! ### What every run of the store keeps -/

/-- The pool is open and all records hold valid texts. -/
structure Store.Good (s : Store) : Prop where
  initialized : s.strs.initialized = true
  records : ∀ x, some x ∈ s.dbs → GoodState (s.strs, x.db)

namespace Store.Good

variable {s : Store}

/-- The pool changes and no database does; some may be gone. -/
theorem pool (hs : s.Good) (hwf : s.strs.WF) {p : SStrPool} (hp : s.strs.Keeps p)
    {dbs : List (Option StoredDb)} (hdbs : ∀ x, some x ∈ dbs → some x ∈ s.dbs)
    (snaps : List Snapshot) : (⟨p, dbs, snaps⟩ : Store).Good :=
  ⟨(hp hwf).2.2.trans hs.initialized, fun x hx => (hs.records x (hdbs x hx)).keeps hp⟩

theorem change (hs : s.Good) (hwf : s.strs.WF) {d : ℕ}
    {f : SStrPool → StoredDb → SStrPool × StoredDb} (hkeep : ∀ x, s.strs.Keeps (f s.strs x).1)
    (hf : ∀ x, GoodState (s.strs, x.db) → GoodState ((f s.strs x).1, (f s.strs x).2.db)) :
    (s.change d f).Good := by
  unfold Store.change
  split
  case h_1 x hd =>
    refine ⟨(hkeep x hwf).2.2.trans hs.initialized, fun y hy => ?_⟩
    rcases List.mem_or_eq_of_mem_set hy with hy | hy
    · exact (hs.records y hy).keeps (hkeep x)
    · cases hy
      exact hf x (hs.records x (List.mem_of_getElem? hd))
  case h_2 => exact hs

theorem step (hs : s.Good) (hwf : s.strs.WF) (op : StoreOp) : (s.step op).Good := by
  cases op with
  | create a =>
    simp only [Store.step]
    cases hc : subdbCreate a with
    | error st => exact hs
    | ok db =>
      refine ⟨hs.initialized, fun x hx => ?_⟩
      rcases List.mem_append.mp hx with hx | hx
      · exact hs.records x hx
      · cases List.mem_singleton.mp hx
        exact ⟨hwf, 1, [], [], 1, subdbCreate_inv hc, fun b hb => by cases hb⟩
  | add d imsi msisdn name region plan status outId now a =>
    simp only [Store.step]
    refine hs.change hwf (fun x => SStrPool.Keeps.subdbAdd _ _ _ _ _ _ _ _ _ _ _) fun x hx => ?_
    exact hx.add imsi msisdn name region plan status outId now a
  | delete d id =>
    simp only [Store.step]
    refine hs.change hwf (fun x => SStrPool.Keeps.subdbDelete _ _ _) fun x hx => ?_
    exact hx.delete id
  | update d id name region plan status now a =>
    simp only [Store.step]
    refine hs.change hwf (fun x => SStrPool.Keeps.subdbUpdate _ _ _ _ _ _ _ _ _) fun x hx => ?_
    exact hx.update id name region plan status now a
  | loadCsv d path files clock a =>
    simp only [Store.step]
    refine hs.change hwf (fun x => SStrPool.Keeps.subdbLoadCsv _ _ _ _ _ _) fun x hx => ?_
    exact hx.load path files clock a
  | search d q a =>
    simp only [Store.step]
    split
    case h_2 => exact hs
    case h_1 x hd =>
      have hkeep := Query.keeps s.strs x.db a q
      rcases hq : q.run s.strs x.db a with ⟨st | array, p⟩
      · rw [hq] at hkeep
        exact hs.pool hwf hkeep (fun _ h => h) _
      · rw [hq] at hkeep
        exact hs.pool hwf hkeep (fun _ h => h) _
  | freeOne n => exact hs.pool hwf (SStrPool.keeps_tracks.releaseTexts _ _) (fun _ h => h) _
  | freeResults ns => exact hs.pool hwf (SStrPool.keeps_tracks.freeResults _ _) (fun _ h => h) _
  | destroy d a =>
    simp only [Store.step]
    split
    case h_2 => exact hs
    case h_1 x hd =>
      refine hs.pool hwf (subdbDestroy_keeps s.strs x.db a) (fun y hy => ?_) s.snaps
      rcases List.mem_or_eq_of_mem_set hy with hy | hy
      · exact hy
      · cases hy

end Store.Good

/-- Runs that start with an open pool. -/
theorem Store.good {hint : ℕ} {a₀ : Alloc} (hopen : (sstrPoolInit SStrPool.start hint a₀).1 = .ok)
    {s : Store} (hs : Machine.Reach Store.step Store.May (Store.init hint a₀) s) :
    s.Inv ∧ s.Good := by
  have hstart : (Store.init hint a₀).Good := by
    refine ⟨?_, fun x hx => by cases hx⟩
    simp only [Store.init, sstrPoolInit, SStrPool.start, htCreate, Bool.false_eq_true, if_false]
      at hopen ⊢
    cases h0 : a₀ 0 with
    | false => simp [h0] at hopen
    | true =>
      cases h1 : a₀ 1 with
      | false => simp [h0, h1] at hopen
      | true => simp
  exact hs.invariant (P := fun s => s.Inv ∧ s.Good) ⟨Store.Inv.init hint a₀, hstart⟩
    fun _ op h ha => ⟨h.1.step ha, h.2.step h.1.refs.wf op⟩

/-! ### The statement for every run -/

namespace Store

variable {s : Store}

theorem handles_refs {d : ℕ} {x : StoredDb} (hd : s.dbs[d]? = some (some x)) {b : Block}
    (hb : b ∈ x.db.blocks) {h : Handle} (hh : h ∈ (x.db.mem b).handles) : h ∈ s.refs := by
  obtain ⟨rest, hold, -⟩ := s.at_db hd
  obtain ⟨n, hn, rfl⟩ := List.mem_map.mp hb
  refine hold.mem_iff.mpr (List.mem_append_left _ (List.mem_flatMap.mpr ⟨x.db.mem n.value, ?_, hh⟩))
  exact List.mem_map.mpr ⟨n, hn, rfl⟩

theorem Inv.refs_perm (hs : s.Inv) {d : ℕ} {x : StoredDb} (hd : s.dbs[d]? = some (some x))
    {b : Block} (hb : b ∈ x.db.blocks) :
    s.refs.Perm ((x.db.mem b).handles ++ s.refs.diff (x.db.mem b).handles) := by
  obtain ⟨rest, hold, -⟩ := s.at_db hd
  obtain ⟨listed, live, bound, hinv, -⟩ := hs.dbs x (List.mem_of_getElem? hd)
  have hlive : b ∈ live := hinv.indexed.byImsi.values.mem_iff.mp hb
  have hcons := hinv.indexed.handles_cons (List.perm_cons_erase hlive)
  refine (List.subperm_append_diff_self_of_count_le fun h hh => ?_).symm
  rw [hold.count_eq h, List.count_append, hcons.count_eq h, List.count_append]
  omega

/-- A call on database `d` that leaves all blocks of live records in place. -/
theorem recordAt_set {d : ℕ} {x y : StoredDb} (hs : s.Inv) (hd : s.dbs[d]? = some (some x))
    {p : SStrPool} (he : s.strs.Extends p) (hblocks : y.db.blocks = x.db.blocks) (e : ℕ)
    (c : Block) (hc : e ≠ d ∨ y.db.mem c = x.db.mem c) :
    ({ s with strs := p, dbs := s.dbs.set d (some y) } : Store).recordAt e c = s.recordAt e c := by
  obtain ⟨hlt, -⟩ := List.getElem?_eq_some_iff.mp hd
  by_cases hed : e = d
  · subst hed
    have hmem := hc.resolve_left fun hne => hne rfl
    simp only [recordAt, List.getElem?_set_self hlt, hd, hblocks, hmem]
    split
    · rename_i hb
      rw [Snapshot.of_extends he fun h hh => hs.refs.lt_next (handles_refs hd hb hh)]
    · rfl
  · simp only [recordAt, List.getElem?_set_ne (Ne.symm hed)]
    split
    · rename_i z hz
      split
      · rename_i hb
        rw [Snapshot.of_extends he fun h hh => hs.refs.lt_next (handles_refs hz hb hh)]
      · rfl
    · rfl

end Store

/-! ### One update -/

section Update

variable {s : Store} {d : ℕ} {x : StoredDb}

theorem Store.find_eq_some (hd : s.dbs[d]? = some (some x)) {id : UInt64} {b : Block} :
    s.find d id = some b ↔ htGet (idOps x.db.mem) x.db.byId (.value id) = .ok b := by
  simp only [Store.find, hd]
  cases htGet (idOps x.db.mem) x.db.byId (.value id) <;> simp [Except.toOption]

theorem Store.step_update (hd : s.dbs[d]? = some (some x)) (id : UInt64)
    (name region plan : Option Str) (status : Option SubStatus) (now : Int64) (a : Alloc) :
    s.step (.update d id name region plan status now a) =
      { s with
        strs := (subdbUpdate s.strs x.db id name region plan status now a).2.1
        dbs := s.dbs.set d
          (some ⟨(subdbUpdate s.strs x.db id name region plan status now a).2.2, x.adds⟩) } := by
  simp only [Store.step, Store.change, hd]

/-- A refused call leaves the store as it is, and asks for no memory. -/
theorem update_refused (hd : s.dbs[d]? = some (some x)) {id : UInt64}
    {name region plan : Option Str} {status : Option SubStatus} {now : Int64} {a : Alloc}
    {st : SmStatus} (hst : st ≠ .ok)
    (he : subdbUpdate s.strs x.db id name region plan status now a = (st, s.strs, x.db))
    (hbad : ∀ b, htGet (idOps x.db.mem) x.db.byId (.value id) = .ok b →
      ¬ (name.all subValidateName && region.all subValidateName && plan.all subValidateName)) :
    s.UpdateExact (s.step (.update d id name region plan status now a)) st d id name region plan
        status ∧
      s.UpdateFits d id name region plan a := by
  have hsame : s.step (.update d id name region plan status now a) = s := by
    obtain ⟨hlt, hx⟩ := List.getElem?_eq_some_iff.mp hd
    rw [Store.step_update hd, he, ← hx, List.set_getElem_self]
  rw [hsame]
  refine ⟨⟨fun h => absurd h hst, fun _ _ _ => rfl, fun _ _ _ => rfl⟩, ?_⟩
  intro b old hb _ hv
  apply absurd _ (hbad b ((Store.find_eq_some hd).mp hb))
  simp only [hv.1, hv.2.1, hv.2.2, Bool.and_self]

theorem updateFits_iff (hd : s.dbs[d]? = some (some x)) {id : UInt64} {b : Block}
    (hg : htGet (idOps x.db.mem) x.db.byId (.value id) = .ok b) {old : Snapshot}
    (hold : s.recordAt d b = some old) {name region plan : Option Str}
    (hvalid : name.all subValidateName ∧ region.all subValidateName ∧ plan.all subValidateName)
    (a : Alloc) :
    s.UpdateFits d id name region plan a ↔
      TextsFit (s.otherTexts old.sub) old.name old.region old.plan name region plan a := by
  constructor
  · intro h
    exact h b old ((Store.find_eq_some hd).mpr hg) hold hvalid
  · intro h c old' hc hold' _
    have hcb := (Store.find_eq_some hd).mp hc
    rw [hg] at hcb
    cases hcb
    rw [hold] at hold'
    cases hold'
    exact h

/-- A call that rewrites a record does what is promised if the new texts are the supplied ones. -/
theorem updated_exact_iff (hinv : s.Inv) (hd : s.dbs[d]? = some (some x)) {id : UInt64} {b : Block}
    (hg : htGet (idOps x.db.mem) x.db.byId (.value id) = .ok b) {old new : Snapshot}
    (hold : s.recordAt d b = some old) {p : SStrPool} (hkeep : s.strs.Extends p) {r : Subscriber}
    (hnew : Snapshot.of p r = new) {status : Option SubStatus}
    (hstatus : r.status = status.getD old.sub.status)
    (hid : r.subscriberId = (x.db.mem b).subscriberId) (himsi : r.imsi = (x.db.mem b).imsi)
    (hmsisdn : r.msisdn = (x.db.mem b).msisdn) (hcreated : r.createdAt = (x.db.mem b).createdAt)
    (name region plan : Option Str) :
    s.UpdateExact
        { s with
          strs := p
          dbs := s.dbs.set d
            (some ⟨{ x.db with mem := Function.update x.db.mem b r }, x.adds⟩) }
        .ok d id name region plan status ↔
      new.name = name.getD old.name ∧ new.region = region.getD old.region ∧
        new.plan = plan.getD old.plan := by
  obtain ⟨listed, live, bound, hdb, -⟩ := hinv.dbs x (List.mem_of_getElem? hd)
  obtain ⟨hlisted, hxid⟩ := hdb.indexed.byId.get_ok_iff.mp hg
  have hb : b ∈ x.db.blocks := hdb.indexed.byImsi.values.mem_iff.mpr (hdb.indexed.sub b hlisted)
  have hlt := (List.getElem?_eq_some_iff.mp hd).1
  have hsub : old.sub = x.db.mem b := by
    simp only [Store.recordAt, hd, if_pos hb, Option.some.injEq] at hold
    rw [← hold]
    rfl
  have hafter : ({ s with
      strs := p
      dbs := s.dbs.set d (some ⟨{ x.db with mem := Function.update x.db.mem b r }, x.adds⟩) } :
        Store).recordAt d b = some new := by
    have hb' : b ∈ ({ x.db with mem := Function.update x.db.mem b r } : SubscriberDb).blocks := hb
    simp only [Store.recordAt, List.getElem?_set_self hlt, if_pos hb', Function.update_self, hnew]
  constructor
  · intro h
    obtain ⟨c, old', new', hc, -, ho, hw, t1, t2, t3, -⟩ := h.supplied rfl
    have hcb := (Store.find_eq_some hd).mp hc
    rw [hg] at hcb
    cases hcb
    rw [hold] at ho
    rw [hafter] at hw
    cases ho
    cases hw
    exact ⟨t1, t2, t3⟩
  · intro h
    have hdb' : DbInv { x.db with mem := Function.update x.db.mem b r } 1 listed live bound :=
      hdb.rewrite hid himsi hmsisdn
    have hfound : htGet (idOps (Function.update x.db.mem b r)) x.db.byId (.value id) = .ok b := by
      apply hdb'.indexed.byId.get_ok_iff.mpr
      simp only [Function.update_self, hid, hxid, hlisted, and_self]
    refine ⟨fun _ => ⟨b, old, new, (Store.find_eq_some hd).mpr hg, ?_, hold, hafter, h.1, h.2.1,
      h.2.2, ?_⟩, fun hne => absurd rfl hne, fun e c hc => ?_⟩
    · simp only [Store.find, List.getElem?_set_self hlt, hfound]
      rfl
    · rw [← hnew, hsub]
      exact ⟨hsub ▸ hstatus, hid, himsi, hmsisdn, hcreated⟩
    · refine Store.recordAt_set (y := ⟨{ x.db with mem := Function.update x.db.mem b r }, x.adds⟩)
        hinv hd hkeep rfl e c (hc.imp_right fun hne => ?_)
      have hcb : c ≠ b := fun hcb => hne (hcb ▸ (Store.find_eq_some hd).mpr hg)
      simp only [Function.update_of_ne hcb]

end Update

/-- The statuses, records and texts of `subdb_update` are the promised ones exactly when all
supplied texts could be interned. -/
theorem update_exact_iff (hint : ℕ) (a₀ : Alloc)
    (hopen : (sstrPoolInit SStrPool.start hint a₀).1 = .ok) (s : Store)
    (hs : Machine.Reach Store.step Store.May (Store.init hint a₀) s) (d : ℕ) (x : StoredDb)
    (hd : s.dbs[d]? = some (some x)) (id : UInt64) (name region plan : Option Str)
    (status : Option SubStatus) (now : Int64) (a : Alloc)
    (hmay : s.May (.update d id name region plan status now a)) :
    s.UpdateExact (s.step (.update d id name region plan status now a))
        (subdbUpdate s.strs x.db id name region plan status now a).1 d id name region plan status ↔
      s.UpdateFits d id name region plan a := by
  obtain ⟨hinv, hgood⟩ := Store.good hopen hs
  cases subdbUpdate_refused_or s.strs x.db id name region plan status now a with
  | inl hno =>
    obtain ⟨st, hst, he, hbad⟩ := hno
    obtain ⟨hexact, hfits⟩ := update_refused hd hst he hbad
    rw [he]
    exact iff_of_true hexact hfits
  | inr hyes =>
    obtain ⟨b, r, hg, hr, vn, vr, vp, he⟩ := hyes
    obtain ⟨-, base, listed, live, bound, hdb, hrecords⟩ :=
      hgood.records x (List.mem_of_getElem? hd)
    have hlisted := (hdb.indexed.byId.get_ok_iff.mp hg).1
    have hlive := hdb.indexed.sub b hlisted
    have hb : b ∈ x.db.blocks := hdb.indexed.byImsi.values.mem_iff.mpr hlive
    obtain ⟨n, -, hn⟩ := (hrecords b hlive).name
    obtain ⟨g, -, hgt⟩ := (hrecords b hlive).region
    obtain ⟨q, -, hq⟩ := (hrecords b hlive).plan
    have hold : s.recordAt d b = some ⟨x.db.mem b, n, g, q⟩ := by
      simp only [Store.recordAt, hd, if_pos hb, Snapshot.of, hn.cstr, hgt.cstr, hq.cstr]
    have hspec := hinv.refs.updateTexts_spec hgood.initialized (hinv.refs_perm hd hb) hmay.2.2 hn
      hgt hq vn vr vp a
    have hkeep := (SStrPool.Keeps.updateTexts s.strs (x.db.mem b) name region plan a
      hinv.refs.wf).2.1
    obtain ⟨hid, himsi, hmsisdn, hcreated⟩ :=
      updateTexts_frame s.strs (x.db.mem b) name region plan a
    have hexact := updated_exact_iff hinv hd hg hold hkeep (r := r) rfl (by rw [hr])
      (by rw [hr]; exact hid) (by rw [hr]; exact himsi) (by rw [hr]; exact hmsisdn)
      (by rw [hr]; exact hcreated) name region plan
    rw [Store.step_update hd, he, updateFits_iff hd hg hold ⟨vn, vr, vp⟩, hexact, hr]
    exact hspec

/-- One record whose texts are all "A". -/
def oneA : Store :=
  ((Store.init 16 Alloc.all).step (.create Alloc.all)).step
    (addA (lit "100000") (lit "1000000") Alloc.all)

theorem oneA_reach : Machine.Reach Store.step Store.May (Store.init 16 Alloc.all) oneA ∧
    Room oneA.refs 3 := by
  refine ⟨.step (.step .start ?_) ?_, Room.of_length (by decide +kernel)⟩
  · exact ⟨trivial, trivial, Room.of_length (by decide +kernel)⟩
  · exact ⟨trivial, trivial, Room.of_length (by decide +kernel)⟩

/-- A new name and the old region, with memory for both. -/
theorem update_exact_renamed : ∃ x, oneA.dbs[0]? = some (some x) ∧
    oneA.UpdateExact (oneA.step (.update 0 1 (some (lit "B")) (some (lit "A")) none none 5 Alloc.all))
      (subdbUpdate oneA.strs x.db 1 (some (lit "B")) (some (lit "A")) none none 5 Alloc.all).1 0 1
      (some (lit "B")) (some (lit "A")) none none := by
  obtain ⟨hreach, hroom⟩ := oneA_reach
  refine ⟨_, rfl, ?_⟩
  refine (update_exact_iff 16 Alloc.all rfl oneA hreach 0 _ rfl 1 (some (lit "B"))
    (some (lit "A")) none none 5 Alloc.all ⟨trivial, trivial, hroom⟩).mpr fun b old _ _ _ => ?_
  exact ⟨fun _ _ => Or.inr ⟨rfl, rfl, rfl⟩, fun _ _ => Or.inr ⟨rfl, rfl, rfl⟩,
    fun _ _ => Or.inr ⟨rfl, rfl, rfl⟩⟩

/-- The string for a new name is not allocated. The call returns `SM_OK` and the name is the
old one. -/
theorem update_exact_fails :
    Machine.Reach Store.step Store.May (Store.init 16 Alloc.all) oneA ∧
      oneA.May (.update 0 1 (some (lit "B")) none none none 5 fun i => i != 0) ∧
      ∃ x, oneA.dbs[0]? = some (some x) ∧
        (subdbUpdate oneA.strs x.db 1 (some (lit "B")) none none none 5 fun i => i != 0).1 = .ok ∧
        ¬ oneA.UpdateExact (oneA.step (.update 0 1 (some (lit "B")) none none none 5 fun i => i != 0))
          .ok 0 1 (some (lit "B")) none none none := by
  obtain ⟨hreach, hroom⟩ := oneA_reach
  have hx : ∃ x, oneA.dbs[0]? = some (some x) ∧
      (subdbUpdate oneA.strs x.db 1 (some (lit "B")) none none none 5 fun i => i != 0).1 = .ok :=
    ⟨_, rfl, by decide +kernel⟩
  obtain ⟨x, hd, hst⟩ := hx
  refine ⟨hreach, ⟨trivial, trivial, hroom⟩, x, hd, hst, fun h => ?_⟩
  have hname : ((oneA.find 0 1).bind fun b =>
      ((oneA.step (.update 0 1 (some (lit "B")) none none none 5 fun i => i != 0)).recordAt 0 b).map
        Snapshot.name) = some (lit "A") := by decide +kernel
  obtain ⟨b, old, new, hb, -, -, hnew, hsupplied, -⟩ := h.supplied rfl
  rw [hb, Option.bind_some, hnew, Option.map_some, hsupplied, Option.getD_some] at hname
  exact absurd hname (by decide)

end SubscriberMgmt
