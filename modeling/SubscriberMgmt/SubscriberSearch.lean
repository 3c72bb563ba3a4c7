import SubscriberMgmt.SubscriberRecords
import SubscriberMgmt.SubscriberRefs

/-!
# What the filtered searches find (`subscriber.c:489-698`)

The searches walk `by_id` and compare texts with a copy of the argument that
holds at most 64 bytes. No text of a record is longer, but a longer argument
is compared by its first 64 bytes.
-/

namespace SubscriberMgmt

theorem filteredSearch_error {p p' : SStrPool} {db : SubscriberDb}
    {matching : SStrPool → Subscriber → Bool} {a : Alloc} {st : SmStatus}
    (h : filteredSearch p db matching a = (.error st, p')) : st = .errAllocFailed := by
  simp only [filteredSearch] at h
  split at h
  · exact (Except.error.inj (congrArg Prod.fst h)).symm
  · cases h

/-! ### What a search is for, and what it does -/

inductive Filter where
  | region (text : Str)
  | plan (text : Str)
  | status (st : SubStatus)
  | all

namespace Filter

def run (p : SStrPool) (db : SubscriberDb) (a : Alloc) :
    Filter → Except SmStatus (List Subscriber) × SStrPool
  | .region text => subdbSearchByRegion p db (some text) a
  | .plan text => subdbSearchByPlan p db (some text) a
  | .status st => subdbSearchByStatus p db st a
  | .all => subdbListAll p db a

/-- What the caller asks for. -/
def wants (p : SStrPool) (f : Filter) (r : Subscriber) : Bool :=
  match f with
  | .region text => sstrCstr p r.region = text
  | .plan text => sstrCstr p r.plan = text
  | .status st => r.status = st
  | .all => true

/-- The search with its argument cut to what the copy holds. -/
def cut : Filter → Filter
  | .region text => .region (text.take smMaxNameLen)
  | .plan text => .plan (text.take smMaxNameLen)
  | f => f

theorem wants_byTexts (f : Filter) : ByTexts fun p => f.wants p := by
  intro p p' hsame
  funext r
  cases f with
  | region text => simp only [wants, hsame.cstr]
  | plan text => simp only [wants, hsame.cstr]
  | status st => rfl
  | all => rfl

theorem run_eq (f : Filter) (p : SStrPool) (db : SubscriberDb) (a : Alloc) :
    f.run p db a = filteredSearch p db (fun p => f.cut.wants p) a := by
  cases f <;> rfl

/-- No listed record has the first 64 bytes of a longer argument as its text. -/
def Uncut (p : SStrPool) (db : SubscriberDb) (f : Filter) : Prop :=
  f.cut = f ∨ ∀ r ∈ dbRecords db, f.cut.wants p r = false

/-- The records asked for are in `by_id`. -/
def Listed (p : SStrPool) (db : SubscriberDb) (f : Filter) : Prop :=
  ∀ r ∈ db.records, f.wants p r = true → r ∈ dbRecords db

theorem goodText_take {p : SStrPool} {h : Option Handle} (hg : GoodText p h) :
    (sstrCstr p h).take smMaxNameLen = sstrCstr p h := by
  obtain ⟨t, hv, ht⟩ := hg
  rw [ht.cstr, List.take_of_length_le (validName_length hv).2]

/-- Texts of records are never longer than the copy. -/
theorem cut_wants {p : SStrPool} {r : Subscriber} (hr : GoodRecord p r) {f : Filter}
    (h : f.wants p r = true) : f.cut = f := by
  cases f with
  | region text =>
    have htext : sstrCstr p r.region = text := of_decide_eq_true h
    rw [cut, ← htext, goodText_take hr.region]
  | plan text =>
    have htext : sstrCstr p r.plan = text := of_decide_eq_true h
    rw [cut, ← htext, goodText_take hr.plan]
  | status st => rfl
  | all => rfl

/-- A record with the text asked for and with the cut one. -/
theorem wants_both {p : SStrPool} {r : Subscriber} {f : Filter} (h : f.wants p r = true)
    (hcut : f.cut.wants p r = true) : f.cut = f := by
  cases f with
  | region text => exact congrArg region ((of_decide_eq_true hcut).symm.trans (of_decide_eq_true h))
  | plan text => exact congrArg plan ((of_decide_eq_true hcut).symm.trans (of_decide_eq_true h))
  | status st => rfl
  | all => rfl

end Filter

theorem Indexed.records_perm {db : SubscriberDb} {listed live : List Block}
    (h : Indexed db listed live) : db.records.Perm (live.map db.mem) := by
  have hv := h.byImsi.values.map db.mem
  rwa [List.map_map] at hv

theorem DbInv.listed_nodup {db : SubscriberDb} {base bound : ℕ} {listed live : List Block}
    (h : DbInv db base listed live bound) : (dbRecords db).Nodup := by
  refine h.records.nodup_iff.mpr (List.pairwise_map.mpr ?_)
  exact h.indexed.byId.distinct.imp fun hne he => hne (by rw [he])

/-- Ids are words of 64 bits, and no two records have one. -/
theorem DbInv.records_length {db : SubscriberDb} {base bound : ℕ} {listed live : List Block}
    (h : DbInv db base listed live bound) : (dbRecords db).length ≤ 2 ^ 64 := by
  have hnodup : (listed.map fun b => (db.mem b).subscriberId.toNat).Nodup := by
    refine List.pairwise_map.mpr (h.indexed.byId.distinct.imp fun hne he => hne ?_)
    exact UInt64.toNat_inj.mp he
  have hsub : (listed.map fun b => (db.mem b).subscriberId.toNat) ⊆ List.range (2 ^ 64) := by
    intro i hi
    obtain ⟨b, -, rfl⟩ := List.mem_map.mp hi
    exact List.mem_range.mpr (UInt64.toNat_lt _)
  have hle := (hnodup.subperm hsub).length_le
  rwa [List.length_range, List.length_map, ← List.length_map db.mem, ← h.records.length_eq] at hle

theorem Indexed.records_nodup {db : SubscriberDb} {listed live : List Block}
    (h : Indexed db listed live) : db.records.Nodup := by
  refine h.records_perm.nodup_iff.mpr (List.pairwise_map.mpr ?_)
  exact h.byImsi.distinct.imp fun hne he => hne (by rw [he])

theorem DbInv.listed_sub {db : SubscriberDb} {base bound : ℕ} {listed live : List Block}
    (h : DbInv db base listed live bound) {r : Subscriber} (hr : r ∈ dbRecords db) :
    r ∈ db.records := by
  obtain ⟨b, hb, rfl⟩ := List.mem_map.mp (h.records.mem_iff.mp hr)
  exact h.indexed.records_perm.mem_iff.mpr (List.mem_map_of_mem (h.indexed.sub b hb))

/-- As long as the id counter has not come round, all records are listed. -/
theorem all_listed {strs : SStrPool} {a : Alloc} {db : SubscriberDb}
    (hcreate : subdbCreate a = .ok db) (calls : List DbOp)
    (hadds : (dbAdds (strs, db) calls).adds ≤ 2 ^ 64) (f : Filter) :
    f.Listed (dbFinal (strs, db) calls).1 (dbFinal (strs, db) calls).2 := by
  have h0 : DbInv (strs, db).2 1 [] [] 1 := subdbCreate_inv hcreate
  obtain ⟨listed, live, bound, hinv, hlo, hhi, -⟩ := dbFinal_inv h0 calls
  have hperm := (hinv.young (by omega)).1
  intro r hr _
  have hlive := hinv.indexed.records_perm.mem_iff.mp hr
  exact hinv.records.mem_iff.mpr ((hperm.map _).mem_iff.mpr hlive)

/-- The listed records that match the cut argument against the records asked for. -/
theorem listed_perm_iff {p : SStrPool} {db : SubscriberDb} {base bound : ℕ}
    {listed live : List Block} (hinv : DbInv db base listed live bound)
    (hgood : ∀ b ∈ live, GoodRecord p (db.mem b)) (f : Filter) :
    ((dbRecords db).filter (f.cut.wants p)).Perm (db.records.filter (f.wants p)) ↔
      f.Uncut p db ∧ f.Listed p db := by
  constructor
  · intro hperm
    have hmem : ∀ r, r ∈ dbRecords db ∧ f.cut.wants p r = true ↔
        r ∈ db.records ∧ f.wants p r = true := by
      intro r
      rw [← List.mem_filter, ← List.mem_filter, hperm.mem_iff]
    constructor
    · by_cases hcut : f.cut = f
      · exact Or.inl hcut
      · refine Or.inr fun r hr => ?_
        cases hwant : f.cut.wants p r with
        | false => rfl
        | true => exact absurd (Filter.wants_both ((hmem r).mp ⟨hr, hwant⟩).2 hwant) hcut
    · intro r hr hwant
      exact ((hmem r).mpr ⟨hr, hwant⟩).1
  · intro hcond
    obtain ⟨huncut, hlisted⟩ := hcond
    refine (List.perm_ext_iff_of_nodup (hinv.listed_nodup.filter _)
      (hinv.indexed.records_nodup.filter _)).mpr fun r => ?_
    rw [List.mem_filter, List.mem_filter]
    constructor
    · intro h
      obtain ⟨hr, hwant⟩ := h
      cases huncut with
      | inl heq => exact ⟨hinv.listed_sub hr, heq ▸ hwant⟩
      | inr hnone =>
        rw [hnone r hr] at hwant
        cases hwant
    · intro h
      obtain ⟨hr, hwant⟩ := h
      obtain ⟨b, hb, rfl⟩ := List.mem_map.mp (hinv.indexed.records_perm.mem_iff.mp hr)
      have hcut := Filter.cut_wants (hgood b hb) hwant
      exact ⟨hlisted _ hr hwant, hcut.symm ▸ hwant⟩

/-- The snapshots are those of the records asked for, each once, exactly if a longer
argument is not mistaken for its first 64 bytes and the records are in `by_id`, as they
all are until the id counter has come round. -/
theorem filtered_search_exact_iff {s : DbState} (hs : Reachable s) (f : Filter) (a : Alloc) :
    (∀ arr p', f.run s.1 s.2 a = (.ok arr, p') → s.1.SameTexts p' ∧
      (arr.Perm (s.2.records.filter (f.wants s.1)) ↔ f.Uncut s.1 s.2 ∧ f.Listed s.1 s.2)) ∧
    (∀ st p', f.run s.1 s.2 a = (.error st, p') → st = .errAllocFailed) ∧
    ∀ strs db create calls, subdbCreate create = .ok db → s = dbFinal (strs, db) calls →
      (dbAdds (strs, db) calls).adds ≤ 2 ^ 64 → f.Listed s.1 s.2 := by
  obtain ⟨-, base, listed, live, bound, hinv, hgood⟩ := hs.good
  rw [f.run_eq]
  refine ⟨fun arr p' h => ?_, fun st p' h => filteredSearch_error h,
    fun strs db create calls hcreate he hadds => he ▸ all_listed hcreate calls hadds f⟩
  obtain ⟨harr, hsame⟩ := filteredSearch_ok f.cut.wants_byTexts h
  rw [harr]
  exact ⟨hsame, listed_perm_iff hinv hgood f⟩

/-! ### A region of 64 bytes and a longer argument -/

def fullText : Str := List.replicate smMaxNameLen 97

def fullAdd : List DbOp :=
  [.strings (.init 16 Alloc.all),
    .add (some (lit "100000")) (some (lit "1000000")) (some (lit "A")) (some fullText)
      (some (lit "A")) .active true 0 Alloc.all]

theorem filtered_search_finds : ∃ s, Reachable s ∧ ∃ arr p',
    (Filter.region fullText).run s.1 s.2 Alloc.all = (.ok arr, p') ∧ s.1.SameTexts p' ∧
      (arr.Perm (s.2.records.filter ((Filter.region fullText).wants s.1)) ↔
        (Filter.region fullText).Uncut s.1 s.2 ∧ (Filter.region fullText).Listed s.1 s.2) := by
  have hcreate : ∃ db, subdbCreate Alloc.all = .ok db ∧
      ((Filter.region fullText).run (dbFinal (SStrPool.start, db) fullAdd).1
        (dbFinal (SStrPool.start, db) fullAdd).2 Alloc.all).1.isOk = true :=
    ⟨_, rfl, by decide +kernel⟩
  obtain ⟨db, hdb, hok⟩ := hcreate
  have hs : Reachable (dbFinal (SStrPool.start, db) fullAdd) :=
    ⟨SStrPool.start, Alloc.all, db, fullAdd, SStrPool.start_wf, hdb, rfl⟩
  rcases hrun : (Filter.region fullText).run (dbFinal (SStrPool.start, db) fullAdd).1
    (dbFinal (SStrPool.start, db) fullAdd).2 Alloc.all with ⟨st | arr, p'⟩
  · rw [hrun] at hok
    cases hok
  · exact ⟨_, hs, arr, p', hrun, (filtered_search_exact_iff hs _ _).1 arr p' hrun⟩

/-- The search for a region of 65 bytes finds the record whose region is its first 64. -/
theorem filtered_search_mistakes : ∃ s, Reachable s ∧ ∃ arr p',
    (Filter.region (fullText ++ [97])).run s.1 s.2 Alloc.all = (.ok arr, p') ∧
      ¬ arr.Perm (s.2.records.filter ((Filter.region (fullText ++ [97])).wants s.1)) := by
  have hcreate : ∃ db, subdbCreate Alloc.all = .ok db ∧
      ((Filter.region (fullText ++ [97])).run (dbFinal (SStrPool.start, db) fullAdd).1
        (dbFinal (SStrPool.start, db) fullAdd).2 Alloc.all).1.toOption.map List.length = some 1 ∧
      ((dbFinal (SStrPool.start, db) fullAdd).2.records.filter
        ((Filter.region (fullText ++ [97])).wants
          (dbFinal (SStrPool.start, db) fullAdd).1)).length = 0 :=
    ⟨_, rfl, by decide +kernel, by decide +kernel⟩
  obtain ⟨db, hdb, hone, hnone⟩ := hcreate
  rcases hrun : (Filter.region (fullText ++ [97])).run (dbFinal (SStrPool.start, db) fullAdd).1
    (dbFinal (SStrPool.start, db) fullAdd).2 Alloc.all with ⟨st | arr, p'⟩
  · rw [hrun] at hone
    cases hone
  · rw [hrun] at hone
    refine ⟨_, ⟨SStrPool.start, Alloc.all, db, fullAdd, SStrPool.start_wf, hdb, rfl⟩, arr, p', hrun,
      fun hperm => ?_⟩
    have hlen := hperm.length_eq
    rw [hnone, Option.some.inj hone] at hlen
    cases hlen

end SubscriberMgmt
