import SubscriberMgmt.SubscriberCsv

/-!
# What the calls on a database do to the string pool

A call leaves the pool well formed and every text readable under its handle.
The database plays no part in this.
-/

namespace SubscriberMgmt

/-- A relation between a pool and what it becomes by taking and dropping
references. -/
structure SStrPool.Tracks (R : SStrPool → SStrPool → Prop) : Prop where
  refl : ∀ p, R p p
  trans : ∀ {p q r}, R p q → R q r → R p r
  retain : ∀ p h, R p (sstrRetain p h)
  release : ∀ p h, R p (sstrRelease p h)

namespace SStrPool.Tracks

variable {R : SStrPool → SStrPool → Prop}

theorem releaseTexts (t : Tracks R) (p : SStrPool) (s : Subscriber) : R p (releaseTexts p s) :=
  t.trans (t.trans (t.release p s.name) (t.release _ s.region)) (t.release _ s.plan)

theorem makeSnapshot (t : Tracks R) (p : SStrPool) (s : Subscriber) (a : Alloc) :
    R p (makeSnapshot p s a).2 := by
  unfold SubscriberMgmt.makeSnapshot
  split
  · exact t.refl p
  · exact t.trans (t.trans (t.retain p s.name) (t.retain _ s.region)) (t.retain _ s.plan)

theorem freeResults (t : Tracks R) (p : SStrPool) (array : List Subscriber) :
    R p (subdbFreeResults p array) := by
  induction array generalizing p with
  | nil => exact t.refl p
  | cons s array ih => exact t.trans (t.releaseTexts p s) (ih _)

theorem searchResult (t : Tracks R) (p : SStrPool) (mem : Block → Subscriber)
    (found : Except SmStatus Block) (a : Alloc) : R p (searchResult p mem found a).2 := by
  unfold SubscriberMgmt.searchResult
  split
  · exact t.refl p
  · rename_i b
    have h := t.makeSnapshot p (mem b) a
    generalize SubscriberMgmt.makeSnapshot p (mem b) a = x at h ⊢
    obtain ⟨_ | s, p'⟩ := x <;> exact h

theorem matchCb (t : Tracks R) (mem : Block → Subscriber)
    (matching : SStrPool → Subscriber → Bool) (a : Alloc) (key : KeyRef Block UInt64)
    (value : Block) (ctx : FilterCtx) :
    R ctx.strs (matchCb mem matching a key value ctx).2.strs := by
  simp only [SubscriberMgmt.matchCb]
  split
  · exact t.refl _
  · split
    · exact t.refl _
    · have h := t.makeSnapshot ctx.strs (mem value) (a.skip (2 * ctx.arr.length + 1))
      generalize SubscriberMgmt.makeSnapshot ctx.strs (mem value)
        (a.skip (2 * ctx.arr.length + 1)) = x at h ⊢
      obtain ⟨_ | s, p'⟩ := x <;> exact h

theorem walk (t : Tracks R) (mem : Block → Subscriber)
    (matching : SStrPool → Subscriber → Bool) (a : Alloc)
    (l : List (KeyRef Block UInt64 × Block)) (ctx : FilterCtx) :
    R ctx.strs (KeyMap.walk (SubscriberMgmt.matchCb mem matching a) l ctx).strs := by
  induction l generalizing ctx with
  | nil => exact t.refl _
  | cons e l ih =>
    have hcb := t.matchCb mem matching a e.1 e.2 ctx
    simp only [KeyMap.walk]
    rcases hr : SubscriberMgmt.matchCb mem matching a e.1 e.2 ctx with ⟨go, ctx'⟩
    rw [hr] at hcb
    cases go with
    | true => exact t.trans hcb (ih ctx')
    | false => exact hcb

theorem filteredSearch (t : Tracks R) (p : SStrPool) (db : SubscriberDb)
    (matching : SStrPool → Subscriber → Bool) (a : Alloc) :
    R p (filteredSearch p db matching a).2 := by
  have h := t.walk db.mem matching a db.byId.entries ⟨[], 0, true, p⟩
  simp only [SubscriberMgmt.filteredSearch, htIterate_eq]
  split
  · exact t.trans h (t.freeResults _ _)
  · exact h

end SStrPool.Tracks

/-- Every handle reads the same in both pools. -/
def SStrPool.SameTexts (p p' : SStrPool) : Prop := ∀ h, (p'.cells h).data = (p.cells h).data

theorem SStrPool.sameTexts_tracks : SStrPool.Tracks SStrPool.SameTexts where
  refl _ _ := rfl
  trans h h' i := (h' i).trans (h i)
  retain p h := by
    cases h with
    | none => exact fun _ => rfl
    | some h => exact setCell_data p h _ rfl
  release p h := by
    cases h with
    | none => exact fun _ => rfl
    | some h =>
      simp only [sstrRelease]
      split
      · exact fun _ => rfl
      · split
        · exact setCell_data p h _ rfl
        · exact setCell_data p h _ rfl

theorem SStrPool.SameTexts.cstr {p p' : SStrPool} (h : p.SameTexts p') (i : Option Handle) :
    sstrCstr p' i = sstrCstr p i := by
  cases i with
  | none => rfl
  | some i => exact h i

/-- `p'` is a pool that a well-formed `p` may have become. -/
def SStrPool.Keeps (p p' : SStrPool) : Prop :=
  p.WF → p'.WF ∧ p.Extends p' ∧ p'.initialized = p.initialized

theorem SStrPool.keeps_tracks : SStrPool.Tracks SStrPool.Keeps where
  refl p h := ⟨h, Extends.refl p, rfl⟩
  trans h h' hp := by
    obtain ⟨hq, he, hi⟩ := h hp
    obtain ⟨hr, he', hi'⟩ := h' hq
    exact ⟨hr, he.trans he', hi'.trans hi⟩
  retain p h := by
    refine fun hp => ⟨retain_wf hp h, retain_extends p h, ?_⟩
    cases h <;> rfl
  release p h := by
    refine fun hp => ⟨release_wf hp h, release_extends p h, ?_⟩
    cases h with
    | none => rfl
    | some h =>
      simp only [sstrRelease]
      split
      · rfl
      · split <;> rfl

namespace SStrPool.Keeps

theorem refl (p : SStrPool) : p.Keeps p := keeps_tracks.refl p

theorem trans {p q r : SStrPool} (h : p.Keeps q) (h' : q.Keeps r) : p.Keeps r :=
  keeps_tracks.trans h h'

theorem intern (p : SStrPool) (text : Str) (a : Alloc) : p.Keeps (sstrIntern p text a).2 := by
  intro hp
  rcases intern_spec hp text a with ⟨st, -, he⟩ | ⟨h, p', he, hwf, hext, -, -, hi⟩
  · rw [he]
    exact refl p hp
  · rw [he]
    exact ⟨hwf, hext, hi⟩

theorem internTexts (p : SStrPool) (name region plan : Str) (a : Alloc) :
    p.Keeps (internTexts p name region plan a).2.1 := by
  have h1 := intern p name a
  unfold SubscriberMgmt.internTexts
  generalize sstrIntern p name a = x at h1 ⊢
  obtain ⟨_ | n, p1⟩ := x
  · exact h1
  have h2 := intern p1 region (a.skip 4)
  dsimp only at h1 ⊢
  generalize sstrIntern p1 region (a.skip 4) = x at h2 ⊢
  obtain ⟨_ | r, p2⟩ := x
  · exact h1.trans h2
  have h3 := intern p2 plan (a.skip 8)
  dsimp only at h2 ⊢
  generalize sstrIntern p2 plan (a.skip 8) = x at h3 ⊢
  obtain ⟨_ | q, p3⟩ := x <;> exact (h1.trans h2).trans h3

theorem insertRecord (p : SStrPool) (db : SubscriberDb) (b : Block) (a : Alloc) :
    p.Keeps (insertRecord p db b a).strs := by
  simp only [SubscriberMgmt.insertRecord]
  rcases indexRecord db b a with ⟨st, db⟩
  cases st with
  | ok => exact refl p
  | _ => exact keeps_tracks.releaseTexts p _

theorem addRecord (p : SStrPool) (db : SubscriberDb) (imsi msisdn name region plan : Str)
    (status : SubStatus) (now : Int64) (a : Alloc) :
    p.Keeps (addRecord p db imsi msisdn name region plan status now a).strs := by
  simp only [SubscriberMgmt.addRecord]
  rcases mempoolAlloc db.pool a with ⟨_ | b, pool⟩
  · exact refl p
  have h := internTexts p name region plan (a.skip 2)
  dsimp only
  generalize SubscriberMgmt.internTexts p name region plan (a.skip 2) = x at h ⊢
  obtain ⟨st, p', n, r, q⟩ := x
  have hrel := ((keeps_tracks.release p' n).trans (keeps_tracks.release _ r)).trans
    (keeps_tracks.release _ q)
  cases st with
  | ok => exact h.trans (insertRecord p' _ b _)
  | _ => exact h.trans hrel

theorem subdbAdd (p : SStrPool) (db : SubscriberDb) (imsi msisdn name region plan : Option Str)
    (status : SubStatus) (outId : Bool) (now : Int64) (a : Alloc) :
    p.Keeps (subdbAdd p db imsi msisdn name region plan status outId now a).strs := by
  unfold SubscriberMgmt.subdbAdd
  split
  · split
    · exact refl p
    · split
      · exact refl p
      · split
        · exact refl p
        · exact addRecord p db _ _ _ _ _ _ _ _
  · exact refl p

theorem subdbDelete (p : SStrPool) (db : SubscriberDb) (id : UInt64) :
    p.Keeps (subdbDelete p db id).2.1 := by
  unfold SubscriberMgmt.subdbDelete
  split
  · exact refl p
  · exact keeps_tracks.releaseTexts p _

theorem updateText (p : SStrPool) (old : Option Handle) (text : Option Str) (a : Alloc) :
    p.Keeps (updateText p old text a).1 := by
  unfold SubscriberMgmt.updateText
  split
  · exact refl p
  · rename_i text
    have h := intern p text a
    generalize sstrIntern p text a = x at h ⊢
    obtain ⟨_ | n, p'⟩ := x
    · exact h
    · exact h.trans (keeps_tracks.release p' old)

theorem updateTexts (p : SStrPool) (s : Subscriber) (name region plan : Option Str) (a : Alloc) :
    p.Keeps (updateTexts p s name region plan a).1 :=
  ((updateText p s.name name a).trans (updateText _ s.region region _)).trans
    (updateText _ s.plan plan _)

theorem subdbUpdate (p : SStrPool) (db : SubscriberDb) (id : UInt64)
    (name region plan : Option Str) (status : Option SubStatus) (now : Int64) (a : Alloc) :
    p.Keeps (subdbUpdate p db id name region plan status now a).2.1 := by
  unfold SubscriberMgmt.subdbUpdate
  split
  · exact refl p
  · split
    · exact refl p
    · exact updateTexts p _ name region plan a

theorem loadLine (p : SStrPool) (db : SubscriberDb) (piece : Str) (now : Int64) (a : Alloc) :
    p.Keeps (loadLine p db piece now a).2.1 := by
  simp only [SubscriberMgmt.loadLine]
  split
  · exact refl p
  · split
    · exact refl p
    · rename_i f _
      split
      · exact refl p
      · exact subdbAdd p db _ _ _ _ _ _ _ _ _

theorem loadLines (p : SStrPool) (db : SubscriberDb) (clock : ℕ → Int64) (a : Alloc) (i : ℕ)
    (pieces : List Str) : p.Keeps (loadLines p db clock a i pieces).2.1 := by
  induction pieces generalizing p db i with
  | nil => exact refl p
  | cons piece pieces ih => exact (loadLine p db piece _ _).trans (ih _ _ _)

theorem subdbLoadCsv (p : SStrPool) (db : SubscriberDb) (path : Option Str)
    (files : Str → Option Str) (clock : ℕ → Int64) (a : Alloc) :
    p.Keeps (subdbLoadCsv p db path files clock a).strs := by
  unfold SubscriberMgmt.subdbLoadCsv
  split
  · exact refl p
  · split
    · exact refl p
    · split
      · exact refl p
      · split
        · exact refl p
        · exact loadLines p db clock a 0 _

end SStrPool.Keeps

/-! ### The texts of a record -/

theorem validName_length {s : Str} (h : subValidateName s = true) :
    0 < s.length ∧ s.length ≤ smMaxNameLen := by
  simp only [subValidateName, Bool.and_eq_true, decide_eq_true_eq] at h
  omega

theorem internTexts_ok {p p' : SStrPool} (hp : p.WF) {name region plan : Str} {a : Alloc}
    {n r q : Option Handle} (h : internTexts p name region plan a = (.ok, p', n, r, q)) :
    p'.TextIs n name ∧ p'.TextIs r region ∧ p'.TextIs q plan := by
  unfold internTexts at h
  rcases SStrPool.intern_spec hp name a with ⟨st, hst, h1⟩ | ⟨n', p1, h1, w1, -, l1, d1, -⟩
  · rw [h1] at h
    exact absurd (congrArg Prod.fst h) hst
  rw [h1] at h
  dsimp only at h
  rcases SStrPool.intern_spec w1 region (a.skip 4) with
    ⟨st, hst, h2⟩ | ⟨r', p2, h2, w2, x2, l2, d2, -⟩
  · rw [h2] at h
    exact absurd (congrArg Prod.fst h) hst
  rw [h2] at h
  dsimp only at h
  rcases SStrPool.intern_spec w2 plan (a.skip 8) with
    ⟨st, hst, h3⟩ | ⟨q', p3, h3, w3, x3, l3, d3, -⟩
  · rw [h3] at h
    exact absurd (congrArg Prod.fst h) hst
  rw [h3] at h
  cases h
  have t1 : p1.TextIs (some n') name := ⟨n', rfl, l1, d1⟩
  have t2 : p2.TextIs (some r') region := ⟨r', rfl, l2, d2⟩
  exact ⟨t1.mono (x2.trans x3), t2.mono x3, q', rfl, l3, d3⟩

theorem internTexts_all {p : SStrPool} (hp : p.WF) (hi : p.initialized = true)
    {name region plan : Str} (hn : subValidateName name = true)
    (hr : subValidateName region = true) (hq : subValidateName plan = true) {a : Alloc}
    (ha : ∀ i < 12, a i = true) :
    ∃ p' n r q, internTexts p name region plan a = (.ok, p', n, r, q) := by
  have one : ∀ {p1 : SStrPool}, p1.WF → p1.initialized = true → ∀ {text : Str},
      subValidateName text = true → ∀ k, k ≤ 8 → ∃ h p2, sstrIntern p1 text (a.skip k) =
        (.ok h, p2) ∧ p2.WF ∧ p2.initialized = true := by
    intro p1 w1 i1 text ht k hk
    obtain ⟨hpos, hlen⟩ := validName_length ht
    obtain ⟨h, he⟩ := SStrPool.intern_all w1 i1 hpos (by simp only [smMaxNameLen] at hlen; omega)
      (a := a.skip k) fun i hi => ha (k + i) (by omega)
    obtain ⟨w2, -, i2⟩ := SStrPool.Keeps.intern p1 text (a.skip k) w1
    exact ⟨h, _, Prod.ext he rfl, w2, i2.trans i1⟩
  have h0 : a.skip 0 = a := by
    funext i
    simp [Alloc.skip]
  obtain ⟨n, p1, e1, w1, i1⟩ := one hp hi hn 0 (by omega)
  obtain ⟨r, p2, e2, w2, i2⟩ := one w1 i1 hr 4 (by omega)
  obtain ⟨q, p3, e3, w3, i3⟩ := one w2 i2 hq 8 (by omega)
  rw [h0] at e1
  exact ⟨p3, some n, some r, some q, by simp only [internTexts, e1, e2, e3]⟩

end SubscriberMgmt
