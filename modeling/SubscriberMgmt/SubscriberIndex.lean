import SubscriberMgmt.SubscriberTexts
import SubscriberMgmt.FieldIndex

/-!
# The three indexes, the pool and the id counter stay in step

The invariant of a database is stated about the list of its live blocks. Each
function of `subscriber.c` has one lemma that says what it does to that list.

The id counter has 64 bits. Once it has run through all its values an add can
meet an id in use, and its rollback then takes the entry of the older record
out of `by_id`. So the records that `by_id` lists are kept apart from the live
ones; they are the same as long as the counter has not come round.
-/

namespace SubscriberMgmt

/-! ### The invariant -/

/-- `by_imsi` and `by_msisdn` index exactly the live blocks and `by_id` those of
`listed`, each under its own field. -/
structure Indexed (db : SubscriberDb) (listed live : List Block) : Prop where
  byId : Indexes smHashU64 (fun b => (db.mem b).subscriberId) db.byId listed
  byImsi : Indexes smHashStr (fun b => (db.mem b).imsi.chars) db.byImsi live
  byMsisdn : Indexes smHashStr (fun b => (db.mem b).msisdn.chars) db.byMsisdn live
  sub : ∀ b ∈ listed, b ∈ live

def Counted (db : SubscriberDb) (base : ℕ) (live : List Block) (bound : ℕ) : Prop :=
  ∀ b ∈ live, ∃ j, base ≤ j ∧ j < bound ∧ (db.mem b).subscriberId = UInt64.ofNat j

/-- A database between two calls. `bound` is the value `next_id` would have
without wrapping around. -/
structure DbInv (db : SubscriberDb) (base : ℕ) (listed live : List Block) (bound : ℕ) :
    Prop where
  indexed : Indexed db listed live
  owned : db.pool.Owned live
  next : db.nextId = UInt64.ofNat bound
  base_le : base ≤ bound
  young : bound ≤ base + 2 ^ 64 → listed.Perm live ∧ Counted db base live bound

theorem Indexed.congr {db db' : SubscriberDb} {listed live : List Block}
    (h : Indexed db listed live)
    (htables : db'.byId = db.byId ∧ db'.byImsi = db.byImsi ∧ db'.byMsisdn = db.byMsisdn)
    (hid : ∀ b ∈ live, (db'.mem b).subscriberId = (db.mem b).subscriberId)
    (himsi : ∀ b ∈ live, (db'.mem b).imsi = (db.mem b).imsi)
    (hmsisdn : ∀ b ∈ live, (db'.mem b).msisdn = (db.mem b).msisdn) :
    Indexed db' listed live := by
  obtain ⟨h1, h2, h3⟩ := htables
  refine ⟨?_, ?_, ?_, h.sub⟩
  · rw [h1]
    exact h.byId.congr fun b hb => hid b (h.sub b hb)
  · rw [h2]
    exact h.byImsi.congr fun b hb => congrArg _ (himsi b hb)
  · rw [h3]
    exact h.byMsisdn.congr fun b hb => congrArg _ (hmsisdn b hb)

theorem Indexed.write {db db' : SubscriberDb} {listed live : List Block}
    (h : Indexed db listed live)
    (htables : db'.byId = db.byId ∧ db'.byImsi = db.byImsi ∧ db'.byMsisdn = db.byMsisdn)
    {b : Block} (hb : b ∉ live) {s : Subscriber} (hmem : db'.mem = Function.update db.mem b s) :
    Indexed db' listed live := by
  have hold : ∀ q ∈ live, db'.mem q = db.mem q := fun q hq => by
    rw [hmem, Function.update_of_ne (ne_of_mem_of_not_mem hq hb)]
  exact h.congr htables (fun q hq => by rw [hold q hq]) (fun q hq => by rw [hold q hq])
    fun q hq => by rw [hold q hq]

theorem Counted.mono {db db' : SubscriberDb} {base bound bound' : ℕ} {live : List Block}
    (h : Counted db base live bound) (hle : bound ≤ bound')
    (hid : ∀ b ∈ live, (db'.mem b).subscriberId = (db.mem b).subscriberId) :
    Counted db' base live bound' := by
  intro b hb
  obtain ⟨j, h1, h2, h3⟩ := h b hb
  exact ⟨j, h1, h2.trans_le hle, (hid b hb).trans h3⟩

theorem ofNat_ne {i j : ℕ} (hij : i < j) (hnear : j < i + 2 ^ 64) :
    UInt64.ofNat i ≠ UInt64.ofNat j := by
  intro he
  have h := congrArg UInt64.toNat he
  simp only [UInt64.toNat_ofNat'] at h
  omega

theorem DbInv.fresh_id {db : SubscriberDb} {base bound : ℕ} {listed live : List Block}
    (h : DbInv db base listed live bound) (hbound : bound < base + 2 ^ 64) :
    ∀ q ∈ live, (db.mem q).subscriberId ≠ db.nextId := by
  intro q hq
  obtain ⟨j, h1, h2, h3⟩ := (h.young hbound.le).2 q hq
  rw [h3, h.next]
  exact ofNat_ne h2 (by omega)

/-! ### Index insertion and rollback -/

section Tables

variable {P A : Type*} [DecidableEq A] {hash : A → UInt64} {read : P → A}
  {t : HashTable (KeyRef P A) P} {live : List P} {p : P}

theorem Indexes.rollback (h : Indexes hash read t (p :: live) ∨ Indexes hash read t live)
    (habs : ∀ q ∈ live, read q ≠ read p) :
    Indexes hash read (htRemove (KeyRef.ops hash read) t (.field p)).2 live := by
  rcases h with h | h
  · obtain ⟨t', ht, h'⟩ := h.remove (List.Perm.refl _)
    rw [ht]
    exact h'
  · rw [h.remove_absent habs]
    exact h

/-- A put under a key in use is refused, and the rollback that follows takes
the entry of the object that has the key. -/
theorem Indexes.clash (h : Indexes hash read t live) {q : P} (hq : q ∈ live)
    (hqp : read q = read p) (a : Alloc) :
    htPut (KeyRef.ops hash read) t (.field p) p false a = (.errDuplicate, t) ∧
      ∃ rest, live.Perm (q :: rest) ∧
        Indexes hash read (htRemove (KeyRef.ops hash read) t (.field p)).2 rest := by
  obtain ⟨n, hn, rfl⟩ := h.mem_iff.mp hq
  have hkey : (KeyRef.ops hash read).eq n.key (.field p) = true := by
    rw [KeyRef.ops_eq_iff, h.load_key hn]
    exact hqp
  refine ⟨?_, ?_⟩
  · have hcase := htPut_cases (KeyRef.lawful hash read) h.wf (.field p) p false a
    generalize htPut (KeyRef.ops hash read) t (.field p) p false a = r at hcase ⊢
    obtain ⟨st, t'⟩ := r
    cases hcase with
    | duplicate => rfl
    | replaced _ _ _ hrep => cases hrep
    | allocFailed habs => simp [habs n hn] at hkey
    | inserted habs => simp [habs n hn] at hkey
  · have hcase := htRemove_cases (KeyRef.lawful hash read) h.wf (.field p)
    generalize htRemove (KeyRef.ops hash read) t (.field p) = r at hcase ⊢
    obtain ⟨st, t'⟩ := r
    cases hcase with
    | missing habs => simp [habs n hn] at hkey
    | @removed m t' heq hold hwf =>
      have hm : m ∈ t.nodes := hold.mem_iff.mpr (List.mem_cons_self ..)
      have hmn : m = n := node_unique (KeyRef.lawful hash read) h.wf hm hn
        ((KeyRef.lawful hash read).trans _ _ _ heq ((KeyRef.lawful hash read).symm _ _ hkey))
      subst hmn
      exact ⟨_, h.values.symm.trans (hold.map HtNode.value),
        hwf, fun x hx => h.own x (hold.mem_iff.mpr (List.mem_cons_of_mem _ hx)), List.Perm.refl _⟩

end Tables

section Insert

variable {db : SubscriberDb} {listed live : List Block} {b : Block}

structure FreshKeys (db : SubscriberDb) (live : List Block) (b : Block) : Prop where
  imsi : ∀ q ∈ live, (db.mem q).imsi.chars ≠ (db.mem b).imsi.chars
  msisdn : ∀ q ∈ live, (db.mem q).msisdn.chars ≠ (db.mem b).msisdn.chars

theorem indexRecord_frame (db : SubscriberDb) (b : Block) (a : Alloc) :
    ∃ t1 t2 t3,
      (indexRecord db b a).2 = { db with byId := t1, byImsi := t2, byMsisdn := t3 } := by
  unfold indexRecord
  split
  · split
    · exact ⟨_, _, _, rfl⟩
    · exact ⟨_, _, _, rfl⟩
  · exact ⟨_, _, _, rfl⟩

theorem indexRecord_spec (h : Indexed db listed live) (hb : FreshKeys db live b)
    (hid : ∀ q ∈ listed, (db.mem q).subscriberId ≠ (db.mem b).subscriberId) (a : Alloc) :
    ((a 0 = true ∧ a 2 = true ∧ a 4 = true) ∧ (indexRecord db b a).1 = .ok ∧
        Indexed (indexRecord db b a).2 (b :: listed) (b :: live)) ∨
      (¬ (a 0 = true ∧ a 2 = true ∧ a 4 = true) ∧ (indexRecord db b a).1 = .errAllocFailed ∧
        Indexed (unindexRecord (indexRecord db b a).2 b) listed live) := by
  have hsub : ∀ q ∈ b :: listed, q ∈ b :: live := fun q hq => by
    rcases List.mem_cons.mp hq with rfl | hq
    · exact List.mem_cons_self ..
    · exact List.mem_cons_of_mem _ (h.sub q hq)
  have undo : ∀ t1 t2 t3,
      (Indexes smHashU64 (fun b => (db.mem b).subscriberId) t1 (b :: listed) ∨
        Indexes smHashU64 (fun b => (db.mem b).subscriberId) t1 listed) →
      (Indexes smHashStr (fun b => (db.mem b).imsi.chars) t2 (b :: live) ∨
        Indexes smHashStr (fun b => (db.mem b).imsi.chars) t2 live) →
      (Indexes smHashStr (fun b => (db.mem b).msisdn.chars) t3 (b :: live) ∨
        Indexes smHashStr (fun b => (db.mem b).msisdn.chars) t3 live) →
      Indexed (unindexRecord { db with byId := t1, byImsi := t2, byMsisdn := t3 } b) listed live :=
    fun t1 t2 t3 h1 h2 h3 => ⟨Indexes.rollback h1 hid, Indexes.rollback h2 hb.imsi,
      Indexes.rollback h3 hb.msisdn, h.sub⟩
  have ha2 : a.skip 2 0 = a 2 := rfl
  have ha4 : a.skip 4 0 = a 4 := rfl
  simp only [indexRecord, idOps, imsiOps, msisdnOps]
  rcases h.byId.put hid a with ⟨h0, e1⟩ | ⟨h0, t1, e1, i1⟩
  · simp only [e1]
    exact Or.inr ⟨by simp [h0], trivial,
      undo _ _ _ (Or.inr h.byId) (Or.inr h.byImsi) (Or.inr h.byMsisdn)⟩
  simp only [e1]
  rcases h.byImsi.put hb.imsi (a.skip 2) with ⟨h2, e2⟩ | ⟨h2, t2, e2, i2⟩
  · simp only [e2]
    rw [ha2] at h2
    exact Or.inr ⟨by simp [h2], trivial,
      undo _ _ _ (Or.inl i1) (Or.inr h.byImsi) (Or.inr h.byMsisdn)⟩
  simp only [e2]
  rcases h.byMsisdn.put hb.msisdn (a.skip 4) with ⟨h4, e3⟩ | ⟨h4, t3, e3, i3⟩
  · simp only [e3]
    rw [ha4] at h4
    exact Or.inr ⟨by simp [h4], trivial,
      undo _ _ _ (Or.inl i1) (Or.inl i2) (Or.inr h.byMsisdn)⟩
  · simp only [e3]
    exact Or.inl ⟨⟨h0, h2, h4⟩, trivial, ⟨i1, i2, i3, hsub⟩⟩

theorem indexRecord_clash (h : Indexed db listed live) (hb : FreshKeys db live b)
    (hid : ∃ q ∈ listed, (db.mem q).subscriberId = (db.mem b).subscriberId) (a : Alloc) :
    (indexRecord db b a).1 = .errDuplicate ∧
      ∃ listed', Indexed (unindexRecord (indexRecord db b a).2 b) listed' live ∧
        listed'.length < listed.length := by
  obtain ⟨q, hq, hqb⟩ := hid
  obtain ⟨hput, rest, hperm, hrest⟩ := h.byId.clash hq hqb a
  simp only [indexRecord, idOps, hput, true_and]
  have hlen : rest.length < listed.length := by
    rw [hperm.length_eq]
    exact Nat.lt_succ_self _
  refine ⟨rest, ⟨hrest, Indexes.rollback (Or.inr h.byImsi) hb.imsi,
    Indexes.rollback (Or.inr h.byMsisdn) hb.msisdn, fun p hp => h.sub p ?_⟩, hlen⟩
  exact hperm.mem_iff.mpr (List.mem_cons_of_mem _ hp)

theorem insertRecord_ok (strs : SStrPool) {a : Alloc} (hst : (indexRecord db b a).1 = .ok)
    (hidx : Indexed (indexRecord db b a).2 (b :: listed) (b :: live)) :
    ∃ db', insertRecord strs db b a = ⟨.ok, strs, db', some (db.mem b).subscriberId⟩ ∧
      Indexed db' (b :: listed) (b :: live) ∧ db'.pool = db.pool ∧ db'.nextId = db.nextId ∧
      db'.mem = db.mem := by
  obtain ⟨t1, t2, t3, hdb⟩ := indexRecord_frame db b a
  rcases hr : indexRecord db b a with ⟨st, db1⟩
  rw [hr] at hst hidx hdb
  simp only at hst hidx hdb
  subst hst hdb
  exact ⟨_, by simp only [insertRecord, hr], hidx, rfl, rfl, rfl⟩

/-- `insertRecord` when it fails: the tables are rolled back, the block freed. -/
theorem insertRecord_undone (strs : SStrPool) {a : Alloc} (hst : (indexRecord db b a).1 ≠ .ok)
    (hidx : Indexed (unindexRecord (indexRecord db b a).2 b) listed live) (hfree : b ∉ live) :
    ∃ db', insertRecord strs db b a =
        ⟨(indexRecord db b a).1, releaseTexts strs (db.mem b), db', none⟩ ∧
      Indexed db' listed live ∧ db'.pool = mempoolFree db.pool b ∧ db'.nextId = db.nextId ∧
      db'.mem = Function.update db.mem b Subscriber.poison := by
  obtain ⟨t1, t2, t3, hdb⟩ := indexRecord_frame db b a
  rcases hr : indexRecord db b a with ⟨st, db1⟩
  rw [hr] at hst hidx hdb
  simp only at hst hidx hdb
  subst hdb
  have hw : Indexed (freeSubscriberLocked strs
      (unindexRecord { db with byId := t1, byImsi := t2, byMsisdn := t3 } b) b).2 listed live :=
    hidx.write ⟨rfl, rfl, rfl⟩ hfree rfl
  refine ⟨_, ?_, hw, rfl, rfl, rfl⟩
  simp only [insertRecord, hr]
  cases st with
  | ok => exact absurd rfl hst
  | _ => rfl

end Insert

/-! ### Adding a record -/

structure Addable (db : SubscriberDb) (live : List Block) (imsi msisdn name region plan : Str) :
    Prop where
  validImsi : subValidateImsi imsi = true
  validMsisdn : subValidateMsisdn msisdn = true
  validName : subValidateName name = true
  validRegion : subValidateName region = true
  validPlan : subValidateName plan = true
  newImsi : ∀ q ∈ live, (db.mem q).imsi.chars ≠ imsi
  newMsisdn : ∀ q ∈ live, (db.mem q).msisdn.chars ≠ msisdn

theorem validDigits_length {lo hi : ℕ} {s : Str} (h : validDigits lo hi s = true) :
    s.length ≤ hi := by
  simp only [validDigits, Bool.and_eq_true, decide_eq_true_eq] at h
  exact h.1.2

/-- An add that fails leaves the live records alone. The counter moves on when
it is a put that fails. -/
inductive AddKept (db : SubscriberDb) (base : ℕ) (live : List Block) (bound : ℕ) :
    AddResult → Prop
  | intro {res : AddResult} {listed' : List Block} {bound' : ℕ} (hst : res.status ≠ .ok)
      (hid : res.id = none) (hlo : bound ≤ bound') (hhi : bound' ≤ bound + 1)
      (hinv : DbInv res.db base listed' live bound')
      (hmem : ∀ q ∈ live, res.db.mem q = db.mem q) : AddKept db base live bound res

/-- An add that succeeds makes one more record live. -/
inductive AddDone (strs : SStrPool) (db : SubscriberDb) (base : ℕ) (listed live : List Block)
    (bound : ℕ) (imsi msisdn name region plan : Str) (status : SubStatus) (now : Int64)
    (a : Alloc) : AddResult → Prop
  | intro {res : AddResult} {b : Block} {n r p : Option Handle}
      (hnew : Addable db live imsi msisdn name region plan) (hb : b ∉ live)
      (hst : res.status = .ok) (hid : res.id = some db.nextId)
      (htexts : internTexts strs name region plan (a.skip 2) = (.ok, res.strs, n, r, p))
      (hinv : DbInv res.db base (b :: listed) (b :: live) (bound + 1))
      (hmem : res.db.mem =
        Function.update db.mem b (newRecord db.nextId imsi msisdn n r p status now)) :
      AddDone strs db base listed live bound imsi msisdn name region plan status now a res

/-- An add that fails at its index entries. The counter has moved on, and a listed
record with the new id is listed no more. -/
structure AddUndone (db : SubscriberDb) (base : ℕ) (listed live : List Block) (bound : ℕ)
    (res : AddResult) : Prop where
  failed : res.status ≠ .ok
  id : res.id = none
  inv : ∃ listed', DbInv res.db base listed' live (bound + 1) ∧
    ((∃ q ∈ listed, (db.mem q).subscriberId = db.nextId) → listed'.length < listed.length)
  mem : ∀ q ∈ live, res.db.mem q = db.mem q

section Add

variable {strs : SStrPool} {db : SubscriberDb} {base : ℕ} {listed live : List Block} {bound : ℕ}
  {imsi msisdn name region plan : Str}

theorem place_ready (h : Indexed db listed live)
    (hnew : Addable db live imsi msisdn name region plan) {b : Block} (hfree : b ∉ live)
    (pool : MemPool) {s : Subscriber} (himsi : s.imsi.chars = imsi)
    (hmsisdn : s.msisdn.chars = msisdn) :
    Indexed (db.place pool b s) listed live ∧ FreshKeys (db.place pool b s) live b ∧
      (db.place pool b s).mem b = s ∧ ∀ q ∈ live, (db.place pool b s).mem q = db.mem q := by
  have hself : (db.place pool b s).mem b = s := Function.update_self ..
  have hold : ∀ q ∈ live, (db.place pool b s).mem q = db.mem q := fun q hq =>
    Function.update_of_ne (ne_of_mem_of_not_mem hq hfree) _ _
  refine ⟨h.write ⟨rfl, rfl, rfl⟩ hfree rfl, ⟨fun q hq => ?_, fun q hq => ?_⟩, hself, hold⟩
  · rw [hold q hq, hself, himsi]
    exact hnew.newImsi q hq
  · rw [hold q hq, hself, hmsisdn]
    exact hnew.newMsisdn q hq

theorem place_nextId (h : DbInv db base listed live bound) (pool : MemPool) (b : Block)
    (s : Subscriber) : (db.place pool b s).nextId = UInt64.ofNat (bound + 1) := by
  have hn := h.next
  simp only [SubscriberDb.place, hn]
  exact (UInt64.ofNat_add bound 1).symm

/-- A failed insertion, whatever the reason, gives the block back. -/
theorem insertRecord_fails (h : DbInv db base listed live bound) {b : Block} {pool : MemPool}
    (hown : pool.Owned (b :: live)) (s : Subscriber) {listed' : List Block} {a : Alloc}
    (hst : (indexRecord (db.place pool b s) b a).1 ≠ .ok)
    (hidx : Indexed (unindexRecord (indexRecord (db.place pool b s) b a).2 b) listed' live)
    (hperm : bound + 1 ≤ base + 2 ^ 64 → listed'.Perm live)
    (hfewer : (∃ q ∈ listed, (db.mem q).subscriberId = db.nextId) →
      listed'.length < listed.length) :
    AddUndone db base listed live bound (insertRecord strs (db.place pool b s) b a) := by
  have hfree : b ∉ live := (List.nodup_cons.mp hown.held_nodup).1
  obtain ⟨db', he, hi, hpool, hn, hmem⟩ := insertRecord_undone strs hst hidx hfree
  have hkeep : ∀ q ∈ live, db'.mem q = db.mem q := fun q hq => by
    have hne := ne_of_mem_of_not_mem hq hfree
    rw [hmem, Function.update_of_ne hne]
    exact Function.update_of_ne hne _ _
  rw [he]
  refine ⟨hst, rfl, ⟨listed', ⟨hi, ?_, hn.trans (place_nextId h pool b s),
    Nat.le_succ_of_le h.base_le, fun hb => ?_⟩, hfewer⟩, hkeep⟩
  · rw [hpool]
    exact hown.release (List.Perm.refl _)
  · exact ⟨hperm hb, (h.young (by omega)).2.mono (Nat.le_succ _) fun q hq => by rw [hkeep q hq]⟩

/-- `addRecord` once it has a block and three texts. It fails for lack of memory
or, when the counter has come round, for an id in use. -/
theorem addRecord_placed (h : DbInv db base listed live bound)
    (hnew : Addable db live imsi msisdn name region plan) (status : SubStatus) (now : Int64)
    {a : Alloc} {b : Block} {pool : MemPool} {strs' : SStrPool} {n r p : Option Handle}
    (hm : mempoolAlloc db.pool a = (some b, pool)) (hown : pool.Owned (b :: live))
    (ht : internTexts strs name region plan (a.skip 2) = (.ok, strs', n, r, p)) :
    let res := addRecord strs db imsi msisdn name region plan status now a
    ((a 14 = true ∧ a 16 = true ∧ a 18 = true) ∧
        AddDone strs db base listed live bound imsi msisdn name region plan status now a res) ∨
      ((¬ (a 14 = true ∧ a 16 = true ∧ a 18 = true) ∨ base + 2 ^ 64 ≤ bound) ∧
        AddUndone db base listed live bound res) := by
  intro res
  have hfree : b ∉ live := (List.nodup_cons.mp hown.held_nodup).1
  set s := newRecord db.nextId imsi msisdn n r p status now with hs
  obtain ⟨hidx, hfresh, hself, hold⟩ := place_ready h.indexed hnew hfree pool (s := s)
    (CharField.copy_chars (validDigits_length hnew.validImsi))
    (CharField.copy_chars (validDigits_length hnew.validMsisdn))
  have hres : res = insertRecord strs' (db.place pool b s) b (a.skip 14) := by
    simp only [res, addRecord, hm, ht, hs]
  have hsid : ((db.place pool b s).mem b).subscriberId = db.nextId := by
    rw [hself]
    rfl
  rw [hres]
  by_cases hid : ∃ q ∈ listed, (db.mem q).subscriberId = db.nextId
  · obtain ⟨q, hq, hqid⟩ := hid
    have hold' : base + 2 ^ 64 ≤ bound := by
      by_contra hlt
      exact h.fresh_id (by omega) q (h.indexed.sub q hq) hqid
    obtain ⟨hst, listed', hun, hfewer⟩ := indexRecord_clash hidx hfresh
      ⟨q, hq, by rw [hold q (h.indexed.sub q hq), hsid]; exact hqid⟩ (a.skip 14)
    have hne : (indexRecord (db.place pool b s) b (a.skip 14)).1 ≠ .ok := by
      rw [hst]
      decide
    exact Or.inr ⟨Or.inr hold', insertRecord_fails h hown s hne hun (fun hb => by omega)
      fun _ => hfewer⟩
  · have hid' : ∀ q ∈ listed, ((db.place pool b s).mem q).subscriberId ≠
        ((db.place pool b s).mem b).subscriberId := fun q hq he => by
      rw [hold q (h.indexed.sub q hq), hsid] at he
      exact hid ⟨q, hq, he⟩
    rcases indexRecord_spec hidx hfresh hid' (a.skip 14) with ⟨ha, hst, hi⟩ | ⟨ha, hst, hi⟩
    · obtain ⟨db', he, hi', hpool, hn, hmem⟩ := insertRecord_ok strs' hst hi
      rw [he, hsid]
      refine Or.inl ⟨ha, hnew, hfree, rfl, rfl, ht, ⟨hi', hpool ▸ hown,
        hn.trans (place_nextId h pool b s), Nat.le_succ_of_le h.base_le, fun hb => ?_⟩, hmem⟩
      obtain ⟨hperm, hcount⟩ := h.young (by omega)
      refine ⟨hperm.cons b, fun q hq => ?_⟩
      rw [hmem]
      rcases List.mem_cons.mp hq with rfl | hq
      · exact ⟨bound, h.base_le, Nat.lt_succ_self _, hsid.trans h.next⟩
      · obtain ⟨j, h1, h2, h3⟩ := hcount q hq
        exact ⟨j, h1, Nat.lt_succ_of_lt h2, by rw [hold q hq, h3]⟩
    · have hne : (indexRecord (db.place pool b s) b (a.skip 14)).1 ≠ .ok := by
        rw [hst]
        decide
      exact Or.inr ⟨Or.inl ha, insertRecord_fails h hown s hne hi
        (fun hb => (h.young (by omega)).1) fun he => absurd he hid⟩

theorem addRecord_cases (strs : SStrPool) (h : DbInv db base listed live bound)
    (hnew : Addable db live imsi msisdn name region plan) (status : SubStatus) (now : Int64)
    (a : Alloc) :
    AddKept db base live bound (addRecord strs db imsi msisdn name region plan status now a) ∨
      AddDone strs db base listed live bound imsi msisdn name region plan status now a
        (addRecord strs db imsi msisdn name region plan status now a) := by
  have hpool := mempoolAlloc_spec h.owned a
  rcases hm : mempoolAlloc db.pool a with ⟨ob, pool⟩
  rw [hm] at hpool
  rcases hpool with ⟨hb, hown⟩ | ⟨b, hb, hown⟩ <;> simp only at hb hown <;> subst hb
  · have hidx : Indexed { db with pool := pool } listed live :=
      h.indexed.congr ⟨rfl, rfl, rfl⟩ (fun _ _ => rfl) (fun _ _ => rfl) fun _ _ => rfl
    simp only [addRecord, hm]
    exact Or.inl ⟨fun he => (by cases he), rfl, le_rfl, Nat.le_succ _,
      ⟨hidx, hown, h.next, h.base_le, h.young⟩, fun _ _ => rfl⟩
  · rcases ht : internTexts strs name region plan (a.skip 2) with ⟨st, strs', n, r, p⟩
    by_cases hst : st = .ok
    · subst hst
      rcases addRecord_placed h hnew status now hm hown ht with
        ⟨-, hd⟩ | ⟨-, hst, hid, ⟨listed', hinv, -⟩, hmem⟩
      · exact Or.inr hd
      · exact Or.inl ⟨hst, hid, Nat.le_succ _, le_rfl, hinv, hmem⟩
    · -- the block goes back to the pool unused
      have hfree : b ∉ live := (List.nodup_cons.mp hown.held_nodup).1
      have hold : ∀ q ∈ live, Function.update db.mem b Subscriber.poison q = db.mem q :=
        fun q hq => Function.update_of_ne (ne_of_mem_of_not_mem hq hfree) _ _
      have hinv : DbInv { db with
          pool := mempoolFree pool b
          mem := Function.update db.mem b Subscriber.poison } base listed live bound :=
        ⟨h.indexed.write ⟨rfl, rfl, rfl⟩ hfree rfl, hown.release (List.Perm.refl _), h.next,
          h.base_le, fun hb => ⟨(h.young hb).1, (h.young hb).2.mono le_rfl fun q hq =>
            congrArg Subscriber.subscriberId (hold q hq)⟩⟩
      simp only [addRecord, hm, ht]
      cases st with
      | ok => exact absurd rfl hst
      | _ => exact Or.inl ⟨hst, rfl, le_rfl, Nat.le_succ _, hinv, hold⟩

theorem addRecord_reaches (h : DbInv db base listed live bound)
    (hnew : Addable db live imsi msisdn name region plan) (hs : strs.WF)
    (hi : strs.initialized = true) (status : SubStatus) (now : Int64) {a : Alloc}
    (ha : ∀ i < 14, a i = true) :
    let res := addRecord strs db imsi msisdn name region plan status now a
    ((a 14 = true ∧ a 16 = true ∧ a 18 = true) ∧
        AddDone strs db base listed live bound imsi msisdn name region plan status now a res) ∨
      ((¬ (a 14 = true ∧ a 16 = true ∧ a 18 = true) ∨ base + 2 ^ 64 ≤ bound) ∧
        AddUndone db base listed live bound res) := by
  obtain ⟨b, hb⟩ := mempoolAlloc_all h.owned.nonempty fun i hi => ha i (by omega)
  obtain ⟨strs', n, r, p, ht⟩ := internTexts_all hs hi hnew.validName hnew.validRegion
    hnew.validPlan (a := a.skip 2) fun i hi => ha (2 + i) (by omega)
  rcases mempoolAlloc_spec h.owned a with ⟨hnone, -⟩ | ⟨b', hb', hown⟩
  · rw [hb] at hnone
    cases hnone
  · exact addRecord_placed h hnew status now (Prod.ext hb' rfl) hown ht

theorem subdbAdd_eq (strs : SStrPool) (h : Indexed db listed live)
    (hnew : Addable db live imsi msisdn name region plan) (status : SubStatus) (now : Int64)
    (a : Alloc) :
    subdbAdd strs db (some imsi) (some msisdn) (some name) (some region) (some plan) status true
        now a =
      addRecord strs db imsi msisdn name region plan status now a := by
  have h1 : htGet (imsiOps db.mem) db.byImsi (.value imsi) = .error .errNotFound :=
    h.byImsi.get_error_iff.mpr ⟨rfl, hnew.newImsi⟩
  have h2 : htGet (msisdnOps db.mem) db.byMsisdn (.value msisdn) = .error .errNotFound :=
    h.byMsisdn.get_error_iff.mpr ⟨rfl, hnew.newMsisdn⟩
  simp only [subdbAdd, hnew.validImsi, hnew.validMsisdn, hnew.validName, hnew.validRegion,
    hnew.validPlan, h1, h2, Bool.and_self, Bool.not_true, Bool.false_eq_true, if_false]

end Add

section Calls

variable {db : SubscriberDb} {base : ℕ} {listed live : List Block} {bound : ℕ}

theorem subdbAdd_refused_or (strs : SStrPool) (h : Indexed db listed live)
    (imsi msisdn name region plan : Option Str) (status : SubStatus) (outId : Bool)
    (now : Int64) (a : Alloc) :
    (∃ st, st ≠ .ok ∧ subdbAdd strs db imsi msisdn name region plan status outId now a =
        ⟨st, strs, db, none⟩) ∨
      ∃ i m n r p, imsi = some i ∧ msisdn = some m ∧ name = some n ∧ region = some r ∧
        plan = some p ∧ Addable db live i m n r p ∧
        subdbAdd strs db imsi msisdn name region plan status outId now a =
          addRecord strs db i m n r p status now a := by
  unfold subdbAdd
  split
  · rename_i i m n r p
    split
    · exact Or.inl ⟨_, by decide, rfl⟩
    · rename_i hvalid
      simp only [Bool.not_eq_true, Bool.not_eq_false', Bool.and_eq_true] at hvalid
      obtain ⟨⟨⟨⟨v1, v2⟩, v3⟩, v4⟩, v5⟩ := hvalid
      cases h1 : htGet (imsiOps db.mem) db.byImsi (.value i) with
      | ok b => exact Or.inl ⟨_, by decide, rfl⟩
      | error e =>
        cases h2 : htGet (msisdnOps db.mem) db.byMsisdn (.value m) with
        | ok b => exact Or.inl ⟨_, by decide, rfl⟩
        | error e' =>
          have himsi := (h.byImsi.get_error_iff.mp h1).2
          have hmsisdn := (h.byMsisdn.get_error_iff.mp h2).2
          exact Or.inr ⟨i, m, n, r, p, rfl, rfl, rfl, rfl, rfl,
            ⟨v1, v2, v3, v4, v5, himsi, hmsisdn⟩, rfl⟩
  · exact Or.inl ⟨_, by decide, rfl⟩

theorem subdbAdd_cases (strs : SStrPool) (h : DbInv db base listed live bound)
    (imsi msisdn name region plan : Option Str) (status : SubStatus) (outId : Bool)
    (now : Int64) (a : Alloc) :
    AddKept db base live bound
        (subdbAdd strs db imsi msisdn name region plan status outId now a) ∨
      ∃ i m n r p, imsi = some i ∧ msisdn = some m ∧ name = some n ∧ region = some r ∧
        plan = some p ∧
        AddDone strs db base listed live bound i m n r p status now a
          (subdbAdd strs db imsi msisdn name region plan status outId now a) := by
  rcases subdbAdd_refused_or strs h.indexed imsi msisdn name region plan status outId now a with
    ⟨st, hst, he⟩ | ⟨i, m, n, r, p, rfl, rfl, rfl, rfl, rfl, hnew, he⟩
  · rw [he]
    exact Or.inl ⟨hst, rfl, le_rfl, Nat.le_succ _, h, fun _ _ => rfl⟩
  · rw [he]
    rcases addRecord_cases strs h hnew status now a with hk | hd
    · exact Or.inl hk
    · exact Or.inr ⟨i, m, n, r, p, rfl, rfl, rfl, rfl, rfl, hd⟩

/-! ### Delete and update -/

theorem subdbDelete_cases (strs : SStrPool) (h : DbInv db base listed live bound) (id : UInt64) :
    subdbDelete strs db id = (.errNotFound, strs, db) ∨
      ∃ b listed' live', live.Perm (b :: live') ∧ (db.mem b).subscriberId = id ∧
        (subdbDelete strs db id).1 = .ok ∧
        DbInv (subdbDelete strs db id).2.2 base listed' live' bound ∧
        (∀ q ∈ live', (subdbDelete strs db id).2.2.mem q = db.mem q) ∧
        listed.Perm (b :: listed') ∧
        (subdbDelete strs db id).2.1 = releaseTexts strs (db.mem b) := by
  unfold subdbDelete
  cases hg : htGet (idOps db.mem) db.byId (.value id) with
  | error e => exact Or.inl rfl
  | ok b =>
    obtain ⟨hb, hid⟩ := h.indexed.byId.get_ok_iff.mp hg
    have hlisted : listed.Perm (b :: listed.erase b) := List.perm_cons_erase hb
    have hlive : live.Perm (b :: live.erase b) := List.perm_cons_erase (h.indexed.sub b hb)
    generalize listed.erase b = listed' at hlisted
    generalize live.erase b = live' at hlive
    have hown := h.owned.perm hlive
    have hfree : b ∉ live' := (List.nodup_cons.mp hown.held_nodup).1
    have hnodup : (b :: listed').Nodup :=
      hlisted.nodup_iff.mp (h.indexed.byId.distinct.imp fun hne heq => hne (by rw [heq]))
    obtain ⟨t1, e1, i1⟩ := h.indexed.byId.remove hlisted
    obtain ⟨t2, e2, i2⟩ := h.indexed.byImsi.remove hlive
    obtain ⟨t3, e3, i3⟩ := h.indexed.byMsisdn.remove hlive
    have hun : unindexRecord db b = { db with byId := t1, byImsi := t2, byMsisdn := t3 } := by
      simp only [unindexRecord, idOps, imsiOps, msisdnOps, e1, e2, e3]
    have hsub : ∀ q ∈ listed', q ∈ live' := fun q hq => by
      have hqb : q ≠ b := fun he => (List.nodup_cons.mp hnodup).1 (he ▸ hq)
      have hm := h.indexed.sub q (hlisted.mem_iff.mpr (List.mem_cons_of_mem _ hq))
      exact (List.mem_cons.mp (hlive.mem_iff.mp hm)).resolve_left hqb
    have hidx : Indexed (unindexRecord db b) listed' live' := by
      rw [hun]
      exact ⟨i1, i2, i3, hsub⟩
    have hold : ∀ q ∈ live', (freeSubscriberLocked strs (unindexRecord db b) b).2.mem q =
        db.mem q := fun q hq => by
      have hne : q ≠ b := ne_of_mem_of_not_mem hq hfree
      simp only [freeSubscriberLocked, hun, Function.update_of_ne hne]
    refine Or.inr ⟨b, listed', live', hlive, hid, rfl,
      ⟨hidx.write ⟨rfl, rfl, rfl⟩ hfree rfl, ?_, ?_, h.base_le, fun hb => ⟨?_, ?_⟩⟩, hold, hlisted,
      rfl⟩
    · simp only [freeSubscriberLocked, hun]
      exact hown.release (List.Perm.refl _)
    · simp only [freeSubscriberLocked, hun]
      exact h.next
    · exact (List.perm_cons b).mp (hlisted.symm.trans ((h.young hb).1.trans hlive))
    · intro q hq
      obtain ⟨j, h1, h2, h3⟩ := (h.young hb).2 q (hlive.mem_iff.mpr (List.mem_cons_of_mem _ hq))
      exact ⟨j, h1, h2, (congrArg Subscriber.subscriberId (hold q hq)).trans h3⟩

theorem DbInv.rewrite (h : DbInv db base listed live bound) {b : Block} {s : Subscriber}
    (hid : s.subscriberId = (db.mem b).subscriberId) (himsi : s.imsi = (db.mem b).imsi)
    (hmsisdn : s.msisdn = (db.mem b).msisdn) :
    DbInv { db with mem := Function.update db.mem b s } base listed live bound := by
  have hsame : ∀ {β : Type} (f : Subscriber → β), f s = f (db.mem b) →
      ∀ q, f (Function.update db.mem b s q) = f (db.mem q) := by
    intro β f hf q
    by_cases hq : q = b
    · rw [hq, Function.update_self, hf]
    · rw [Function.update_of_ne hq]
  exact ⟨h.indexed.congr ⟨rfl, rfl, rfl⟩ (fun q _ => hsame _ hid q) (fun q _ => hsame _ himsi q)
    fun q _ => hsame _ hmsisdn q, h.owned, h.next, h.base_le,
    fun hb => ⟨(h.young hb).1, (h.young hb).2.mono le_rfl fun q _ => hsame _ hid q⟩⟩

theorem subdbUpdate_refused_or (strs : SStrPool) (db : SubscriberDb) (id : UInt64)
    (name region plan : Option Str) (status : Option SubStatus) (now : Int64) (a : Alloc) :
    (∃ st, st ≠ .ok ∧ subdbUpdate strs db id name region plan status now a = (st, strs, db) ∧
      ∀ b, htGet (idOps db.mem) db.byId (.value id) = .ok b →
        ¬ (name.all subValidateName && region.all subValidateName && plan.all subValidateName)) ∨
      ∃ b s, htGet (idOps db.mem) db.byId (.value id) = .ok b ∧
        s = { (updateTexts strs (db.mem b) name region plan a).2 with
          status := status.getD (db.mem b).status, updatedAt := now } ∧
        name.all subValidateName = true ∧ region.all subValidateName = true ∧
        plan.all subValidateName = true ∧
        subdbUpdate strs db id name region plan status now a =
          (.ok, (updateTexts strs (db.mem b) name region plan a).1,
            { db with mem := Function.update db.mem b s }) := by
  unfold subdbUpdate
  split
  · rename_i hbad
    refine Or.inl ⟨_, by decide, rfl, fun b _ hv => ?_⟩
    rw [hv] at hbad
    cases hbad
  · rename_i hvalid
    simp only [Bool.not_eq_true, Bool.not_eq_false', Bool.and_eq_true] at hvalid
    cases hg : htGet (idOps db.mem) db.byId (.value id) with
    | error e => exact Or.inl ⟨_, by decide, rfl, fun b hb => by cases hb⟩
    | ok b => exact Or.inr ⟨b, _, rfl, rfl, hvalid.1.1, hvalid.1.2, hvalid.2, rfl⟩

theorem subdbUpdate_cases (strs : SStrPool) (h : DbInv db base listed live bound) (id : UInt64)
    (name region plan : Option Str) (status : Option SubStatus) (now : Int64) (a : Alloc) :
    (∃ st, st ≠ .ok ∧ subdbUpdate strs db id name region plan status now a = (st, strs, db)) ∨
      ∃ b ∈ live, ∃ s, s = { (updateTexts strs (db.mem b) name region plan a).2 with
          status := status.getD (db.mem b).status, updatedAt := now } ∧
        name.all subValidateName = true ∧ region.all subValidateName = true ∧
        plan.all subValidateName = true ∧
        subdbUpdate strs db id name region plan status now a =
          (.ok, (updateTexts strs (db.mem b) name region plan a).1,
            { db with mem := Function.update db.mem b s }) ∧
        DbInv { db with mem := Function.update db.mem b s } base listed live bound := by
  rcases subdbUpdate_refused_or strs db id name region plan status now a with
    ⟨st, hst, he, -⟩ | ⟨b, s, hg, hs, hn, hr, hp, he⟩
  · exact Or.inl ⟨st, hst, he⟩
  · have hb := h.indexed.sub b (h.indexed.byId.get_ok_iff.mp hg).1
    exact Or.inr ⟨b, hb, s, hs, hn, hr, hp, he, h.rewrite (by rw [hs]; rfl) (by rw [hs]; rfl)
      (by rw [hs]; rfl)⟩

end Calls

/-! ### Listing -/

/-- The records that `by_id` lists. -/
def dbRecords (db : SubscriberDb) : List Subscriber := db.byId.nodes.map fun n => db.mem n.value

theorem DbInv.records {db : SubscriberDb} {base : ℕ} {listed live : List Block} {bound : ℕ}
    (h : DbInv db base listed live bound) : (dbRecords db).Perm (listed.map db.mem) := by
  have hv := h.indexed.byId.values.map db.mem
  rwa [List.map_map] at hv

def capAt : ℕ → ℕ
  | 0 => 0
  | k + 1 => if capAt k ≤ k then grownCap (capAt k) else capAt k

def AllocAt (a : Alloc) (k : ℕ) : Prop := (capAt k ≤ k → a (2 * k) = true) ∧ a (2 * k + 1) = true

/-- A match that depends on the texts of the pool only. -/
def ByTexts (matching : SStrPool → Subscriber → Bool) : Prop :=
  ∀ p p', p.SameTexts p' → matching p' = matching p

section Search

variable {mem : Block → Subscriber} {matching : SStrPool → Subscriber → Bool} {a : Alloc}

/-- A matching record is copied, or the walk ends for lack of memory. -/
theorem matchCb_found (key : KeyRef Block UInt64) (value : Block) {ctx : FilterCtx} {k : ℕ}
    (hk : ctx.arr.length = k) (hcap : ctx.cap = capAt k) (hok : ctx.ok = true)
    (hmatch : matching ctx.strs (mem value) = true) :
    let r := matchCb mem matching a key value ctx
    (AllocAt a k ∧ r.1 = true ∧ r.2.arr = ctx.arr ++ [mem value] ∧ r.2.cap = capAt (k + 1) ∧
        r.2.ok = true) ∨
      (¬ AllocAt a k ∧ r.1 = false ∧ r.2.ok = false) := by
  have hskip : a.skip (2 * k + 1) 0 = a (2 * k + 1) := rfl
  simp only [matchCb, makeSnapshot, hk, hcap, hskip, AllocAt, capAt, hmatch, Bool.not_true,
    Bool.false_eq_true, if_false]
  by_cases hfull : capAt k ≤ k
  · cases ha : a (2 * k) with
    | false => simp [hfull]
    | true => cases hb : a (2 * k + 1) <;> simp [hfull, hok]
  · cases hb : a (2 * k + 1) <;> simp [hfull, hok]

theorem matchCb_walk (hm : ByTexts matching) (l : List (KeyRef Block UInt64 × Block))
    {ctx : FilterCtx} {k : ℕ} (hk : ctx.arr.length = k) (hcap : ctx.cap = capAt k)
    (hok : ctx.ok = true) :
    let r := KeyMap.walk (matchCb mem matching a) l ctx
    let found := (l.map fun e => mem e.2).filter (matching ctx.strs)
    ((∀ i < found.length, AllocAt a (k + i)) ∧ r.ok = true ∧ r.arr = ctx.arr ++ found) ∨
      ((¬ ∀ i < found.length, AllocAt a (k + i)) ∧ r.ok = false) := by
  induction l generalizing ctx k with
  | nil => exact Or.inl ⟨by simp, hok, by simp [KeyMap.walk]⟩
  | cons e l ih =>
    simp only [List.map_cons, KeyMap.walk]
    by_cases hmatch : matching ctx.strs (mem e.2) = true
    · have hcb := matchCb_found (a := a) e.1 e.2 hk hcap hok hmatch
      have htexts := SStrPool.sameTexts_tracks.matchCb mem matching a e.1 e.2 ctx
      generalize matchCb mem matching a e.1 e.2 ctx = r at hcb htexts ⊢
      obtain ⟨go, ctx'⟩ := r
      rw [List.filter_cons_of_pos hmatch, ← hm _ _ htexts]
      simp only [List.length_cons]
      rcases hcb with ⟨ha, rfl, harr, hcap', hok'⟩ | ⟨ha, rfl, hok'⟩
      · have hlen : ctx'.arr.length = k + 1 := by
          simp only at harr
          rw [harr, List.length_append, hk]
          rfl
        generalize hfound : (l.map fun e => mem e.2).filter (matching ctx'.strs) = found
        have hall : (∀ i < found.length + 1, AllocAt a (k + i)) ↔
            ∀ i < found.length, AllocAt a (k + 1 + i) := by
          constructor
          · intro h i hi
            have hs := h (i + 1) (by omega)
            rwa [show k + (i + 1) = k + 1 + i by omega] at hs
          · intro h i hi
            cases i with
            | zero => exact ha
            | succ i =>
              have hs := h i (by omega)
              rwa [show k + 1 + i = k + (i + 1) by omega] at hs
        have hrest := ih hlen hcap' hok'
        rw [hfound] at hrest
        cases hrest with
        | inl h =>
          refine Or.inl ⟨hall.mpr h.1, h.2.1, ?_⟩
          simp only at harr
          rw [h.2.2, harr, List.append_assoc, List.singleton_append]
        | inr h => exact Or.inr ⟨fun hs => h.1 (hall.mp hs), h.2⟩
      · exact Or.inr ⟨fun h => ha (h 0 (Nat.zero_lt_succ _)), hok'⟩
    · have hstay : matchCb mem matching a e.1 e.2 ctx = (true, ctx) := by
        simp only [matchCb, hmatch, Bool.not_false, if_true]
      rw [hstay, List.filter_cons_of_neg hmatch]
      exact ih hk hcap hok

/-- A search gives the records listed that match, if there is memory for each of them. -/
theorem filteredSearch_cases (hm : ByTexts matching) (p : SStrPool) (db : SubscriberDb)
    (a : Alloc) :
    ((∀ k < ((dbRecords db).filter (matching p)).length, AllocAt a k) ∧ ∃ p', p.SameTexts p' ∧
        filteredSearch p db matching a = (.ok ((dbRecords db).filter (matching p)), p')) ∨
      ((¬ ∀ k < ((dbRecords db).filter (matching p)).length, AllocAt a k) ∧ ∃ p',
        filteredSearch p db matching a = (.error .errAllocFailed, p')) := by
  have htexts := SStrPool.sameTexts_tracks.filteredSearch p db matching a
  have hcopy : (db.byId.entries.map fun e => db.mem e.2) = dbRecords db := by
    simp [HashTable.entries, dbRecords]
  have hstart : (⟨[], 0, true, p⟩ : FilterCtx).arr.length = 0 := rfl
  have hwalk := @matchCb_walk db.mem matching a hm db.byId.entries _ _ hstart rfl rfl
  simp only [hcopy, Nat.zero_add, List.nil_append] at hwalk
  cases hwalk with
  | inl h =>
    refine Or.inl ⟨h.1, _, htexts, ?_⟩
    simp only [filteredSearch, htIterate_eq, h.2.1, h.2.2, Bool.not_true, Bool.false_eq_true,
      if_false]
  | inr h =>
    refine Or.inr ⟨h.1, (filteredSearch p db matching a).2, ?_⟩
    simp only [filteredSearch, htIterate_eq, h.2, Bool.not_false, if_true]

theorem filteredSearch_ok {p p' : SStrPool} {db : SubscriberDb} (hm : ByTexts matching)
    {arr : List Subscriber} (h : filteredSearch p db matching a = (.ok arr, p')) :
    arr = (dbRecords db).filter (matching p) ∧ p.SameTexts p' := by
  cases filteredSearch_cases hm p db a with
  | inl hyes =>
    obtain ⟨-, q, hq, he⟩ := hyes
    rw [he] at h
    cases h
    exact ⟨rfl, hq⟩
  | inr hno =>
    obtain ⟨-, q, he⟩ := hno
    rw [he] at h
    cases h

end Search

theorem subdbListAll_cases (strs : SStrPool) (db : SubscriberDb) (a : Alloc) :
    ((∀ k < db.byId.nodes.length, AllocAt a k) ∧ ∃ strs', strs.SameTexts strs' ∧
        subdbListAll strs db a = (.ok (db.byId.nodes.map fun n => db.mem n.value), strs')) ∨
      ((¬ ∀ k < db.byId.nodes.length, AllocAt a k) ∧ ∃ strs',
        subdbListAll strs db a = (.error .errAllocFailed, strs')) := by
  have hm : ByTexts fun _ _ => true := fun _ _ _ => rfl
  have hlen : (dbRecords db).length = db.byId.nodes.length := List.length_map _
  have hcases := filteredSearch_cases hm strs db a
  rwa [List.filter_true, hlen] at hcases

theorem subdbListAll_ok {strs strs' : SStrPool} {db : SubscriberDb} {a : Alloc}
    {arr : List Subscriber} (h : subdbListAll strs db a = (.ok arr, strs')) :
    arr = db.byId.nodes.map fun n => db.mem n.value := by
  have hm : ByTexts fun _ _ => true := fun _ _ _ => rfl
  rw [(filteredSearch_ok hm h).1, List.filter_true]
  rfl

end SubscriberMgmt
