import SubscriberMgmt.SharedStringRefs
import SubscriberMgmt.SubscriberIndex

/-!
# References that the calls on a database take and drop

Every record and every snapshot holds one reference for each of its texts. A
call that succeeds or fails leaves exactly the references of the records and
snapshots there are.
-/

namespace SubscriberMgmt
open CText

def Subscriber.handles (s : Subscriber) : List Handle :=
  s.name.toList ++ (s.region.toList ++ s.plan.toList)

theorem Subscriber.handles_length (s : Subscriber) : s.handles.length ≤ 3 := by
  have hle : ∀ h : Option Handle, h.toList.length ≤ 1 := fun h => by cases h <;> simp
  have h1 := hle s.name
  have h2 := hle s.region
  have h3 := hle s.plan
  simp only [handles, List.length_append]
  omega

/-- `k` more references can be taken, to whatever text. -/
def Room (held : List Handle) (k : ℕ) : Prop := ∀ h, held.count h + k < 2 ^ 32

namespace Room

variable {held : List Handle} {k : ℕ}

theorem of_length (h : held.length + k < 2 ^ 32) : Room held k := fun _ =>
  Nat.lt_of_le_of_lt (Nat.add_le_add_right List.count_le_length k) h

theorem few (hk : Room held k) {l : List Handle} (hl : l.length ≤ k) : FewRefs (l ++ held) := by
  intro h
  have hc := List.count_le_length (a := h) (l := l)
  have hr := hk h
  rw [List.count_append]
  omega

theorem mono (hk : Room held k) {j : ℕ} (hj : j ≤ k) : Room held j := fun h => by
  have hr := hk h
  omega

theorem perm (hk : Room held k) {held' : List Handle} (hp : held.Perm held') : Room held' k :=
  fun h => by rw [← hp.count_eq h]; exact hk h

theorem of_le (hk : Room held k) {held' : List Handle} {j : ℕ}
    (hle : ∀ h, held'.count h + j ≤ held.count h + k) : Room held' j := fun h =>
  Nat.lt_of_le_of_lt (hle h) (hk h)

theorem append (hk : Room held k) {l : List Handle} {j : ℕ} (hj : l.length + j ≤ k) :
    Room (l ++ held) j := hk.of_le fun h => by
  have hc := List.count_le_length (a := h) (l := l)
  rw [List.count_append]
  omega

end Room

/-! ### Single references -/

namespace SStrPool.Refs

variable {p : SStrPool} {held rest : List Handle}

theorem release_opt (hr : p.Refs held) {h : Option Handle} (hp : held.Perm (h.toList ++ rest)) :
    (sstrRelease p h).Refs rest := by
  cases h with
  | none => exact hr.perm hp
  | some h => exact hr.release hp

theorem retain_opt (hr : p.Refs held) {h : Option Handle} (hh : ∀ i ∈ h.toList, i ∈ held)
    (hfew : FewRefs (h.toList ++ held)) : (sstrRetain p h).Refs (h.toList ++ held) := by
  cases h with
  | none => exact hr
  | some h => exact hr.retain (hh h (by simp)) hfew

theorem releaseTexts (hr : p.Refs held) {s : Subscriber} (hp : held.Perm (s.handles ++ rest)) :
    (releaseTexts p s).Refs rest := by
  have h0 : held.Perm (s.name.toList ++ (s.region.toList ++ (s.plan.toList ++ rest))) := by
    simpa only [Subscriber.handles, List.append_assoc] using hp
  exact ((hr.release_opt h0).release_opt (List.Perm.refl _)).release_opt (List.Perm.refl _)

theorem freeResults {array : List Subscriber} (hr : p.Refs held)
    (hp : held.Perm (array.flatMap Subscriber.handles ++ rest)) :
    (subdbFreeResults p array).Refs rest := by
  induction array generalizing p held with
  | nil => exact hr.perm hp
  | cons s array ih =>
    rw [List.flatMap_cons, List.append_assoc] at hp
    exact ih (hr.releaseTexts hp) (List.Perm.refl _)

/-- A snapshot takes the references of its record once more. -/
theorem makeSnapshot (hr : p.Refs held) {s : Subscriber} (hs : ∀ h ∈ s.handles, h ∈ held)
    (hroom : Room held 3) (a : Alloc) :
    SubscriberMgmt.makeSnapshot p s a = (none, p) ∨
      ∃ p', SubscriberMgmt.makeSnapshot p s a = (some s, p') ∧ p'.Refs (s.handles ++ held) := by
  unfold SubscriberMgmt.makeSnapshot
  split
  · exact Or.inl rfl
  · refine Or.inr ⟨_, rfl, ?_⟩
    have hle : ∀ h : Option Handle, h.toList.length ≤ 1 := fun h => by cases h <;> simp
    have l1 := hle s.name
    have l2 := hle s.region
    have l3 := hle s.plan
    simp only [Subscriber.handles, List.mem_append] at hs
    have r1 := hr.retain_opt (h := s.name) (fun i hi => hs i (Or.inl hi)) (hroom.few (by omega))
    have m1 : Room (s.name.toList ++ held) 2 := hroom.append (by omega)
    have r2 := r1.retain_opt (h := s.region)
      (fun i hi => List.mem_append_right _ (hs i (Or.inr (Or.inl hi)))) (m1.few (by omega))
    have m2 : Room (s.region.toList ++ (s.name.toList ++ held)) 1 := m1.append (by omega)
    have r3 := r2.retain_opt (h := s.plan) (fun i hi => List.mem_append_right _
      (List.mem_append_right _ (hs i (Or.inr (Or.inr hi))))) (m2.few (by omega))
    refine r3.perm (List.perm_iff_count.mpr fun h => ?_)
    simp only [Subscriber.handles, List.count_append]
    omega

end SStrPool.Refs

/-! ### Interning the texts of a record -/

section Texts

variable {p : SStrPool} {held rest : List Handle}

theorem internTexts_refs (hr : p.Refs held) (hroom : Room held 3) (name region plan : Str)
    (a : Alloc) :
    let x := internTexts p name region plan a
    x.2.1.Refs (x.2.2.1.toList ++ (x.2.2.2.1.toList ++ (x.2.2.2.2.toList ++ held))) := by
  intro x
  simp only [x, internTexts]
  rcases hr.intern name a with ⟨st, -, h1⟩ | ⟨n, p1, h1, -, r1⟩
  · simp only [h1]
    exact hr
  have r1 := r1 (hroom.few (l := [n]) (by simp))
  have m1 : Room (n :: held) 2 := hroom.append (l := [n]) (by simp)
  rcases r1.intern region (a.skip 4) with ⟨st, -, h2⟩ | ⟨r, p2, h2, -, r2⟩
  · simp only [h1, h2]
    exact r1
  have r2 := r2 (m1.few (l := [r]) (by simp))
  have m2 : Room (r :: n :: held) 1 := m1.append (l := [r]) (by simp)
  rcases r2.intern plan (a.skip 8) with ⟨st, -, h3⟩ | ⟨q, p3, h3, -, r3⟩
  · simp only [h1, h2, h3]
    exact r2.perm (List.Perm.swap ..)
  have r3 := r3 (m2.few (l := [q]) (by simp))
  simp only [h1, h2, h3]
  refine r3.perm (List.perm_iff_count.mpr fun h => ?_)
  simp only [Option.toList_some, List.singleton_append, List.count_cons]
  omega

theorem updateText_refs (hr : p.Refs held) {old : Option Handle}
    (hp : held.Perm (old.toList ++ rest)) (hroom : Room held 1) (text : Option Str) (a : Alloc) :
    let u := updateText p old text a
    u.1.Refs (u.2.toList ++ rest) := by
  intro u
  cases text with
  | none => exact hr.perm hp
  | some text =>
    simp only [u, updateText]
    rcases hr.intern text a with ⟨st, -, h1⟩ | ⟨h, p1, h1, -, r1⟩
    · rw [h1]
      exact hr.perm hp
    · rw [h1]
      apply (r1 (hroom.few (l := [h]) (by simp))).release_opt
      exact (hp.cons h).trans List.perm_middle.symm

theorem updateText_count (old : Option Handle) (text : Option Str) (a : Alloc) (h : Handle) :
    (updateText p old text a).2.toList.count h ≤ old.toList.count h + 1 := by
  have hle : ∀ o : Option Handle, o.toList.count h ≤ 1 := fun o => by
    apply List.count_le_length.trans
    cases o <;> simp
  exact (hle _).trans (Nat.le_add_left _ _)

/-- The references before the region and before the plan is replaced, the field's own first. -/
theorem updateTexts_stages (hr : p.Refs held) {s : Subscriber}
    (hp : held.Perm (s.handles ++ rest)) (hroom : Room held 3) (name region : Option Str)
    (a : Alloc) :
    let n := updateText p s.name name a
    let r := updateText n.1 s.region region (a.skip 4)
    (n.1.Refs (s.region.toList ++ (n.2.toList ++ (s.plan.toList ++ rest))) ∧
        Room (s.region.toList ++ (n.2.toList ++ (s.plan.toList ++ rest))) 2) ∧
      r.1.Refs (s.plan.toList ++ (n.2.toList ++ (r.2.toList ++ rest))) ∧
        Room (s.plan.toList ++ (n.2.toList ++ (r.2.toList ++ rest))) 1 := by
  intro n r
  simp only [Subscriber.handles, List.append_assoc] at hp
  have r1 := updateText_refs hr hp (hroom.mono (by omega)) name a
  have c1 := fun h => updateText_count (p := p) s.name name a h
  have p1 : (n.2.toList ++ (s.region.toList ++ (s.plan.toList ++ rest))).Perm
      (s.region.toList ++ (n.2.toList ++ (s.plan.toList ++ rest))) :=
    List.perm_iff_count.mpr fun h => by simp only [List.count_append]; omega
  have m1 : Room (s.region.toList ++ (n.2.toList ++ (s.plan.toList ++ rest))) 2 :=
    hroom.of_le fun h => by
      have h1 : n.2.toList.count h ≤ s.name.toList.count h + 1 := c1 h
      rw [hp.count_eq h]
      simp only [List.count_append]
      omega
  have q1 := SStrPool.Refs.perm r1 p1
  have r2 := updateText_refs q1 (List.Perm.refl _) (m1.mono (by omega)) region (a.skip 4)
  have c2 := fun h => updateText_count (p := n.1) s.region region (a.skip 4) h
  have p2 : (r.2.toList ++ (n.2.toList ++ (s.plan.toList ++ rest))).Perm
      (s.plan.toList ++ (n.2.toList ++ (r.2.toList ++ rest))) :=
    List.perm_iff_count.mpr fun h => by simp only [List.count_append]; omega
  refine ⟨⟨q1, m1⟩, SStrPool.Refs.perm r2 p2, m1.of_le fun h => ?_⟩
  have h2 : r.2.toList.count h ≤ s.region.toList.count h + 1 := c2 h
  simp only [List.count_append]
  omega

theorem updateTexts_refs (hr : p.Refs held) {s : Subscriber} (hp : held.Perm (s.handles ++ rest))
    (hroom : Room held 3) (name region plan : Option Str) (a : Alloc) :
    let u := updateTexts p s name region plan a
    u.1.Refs (u.2.handles ++ rest) := by
  intro u
  obtain ⟨-, r2, m2⟩ := updateTexts_stages hr hp hroom name region a
  have r3 := updateText_refs r2 (List.Perm.refl _) m2 plan (a.skip 8)
  simp only [u, updateTexts, Subscriber.handles, List.append_assoc]
  refine SStrPool.Refs.perm r3 (List.perm_iff_count.mpr fun h => ?_)
  simp only [List.count_append]
  omega

end Texts

/-! ### The records of a database -/

def SubscriberDb.records (db : SubscriberDb) : List Subscriber :=
  db.byImsi.nodes.map fun n => db.mem n.value

def SubscriberDb.handles (db : SubscriberDb) : List Handle :=
  db.records.flatMap Subscriber.handles

section Calls

variable {p : SStrPool} {db : SubscriberDb} {base : ℕ} {listed live : List Block} {bound : ℕ}
  {rest : List Handle}

theorem Indexed.handles_perm (h : Indexed db listed live) :
    db.handles.Perm (live.flatMap fun b => (db.mem b).handles) := by
  have hv := (h.byImsi.values.map db.mem).flatMap_right Subscriber.handles
  simpa only [SubscriberDb.handles, SubscriberDb.records, List.map_map, List.flatMap_map,
    Function.comp_def] using hv

theorem Indexed.handles_mem (h : Indexed db listed live) {b : Block} (hb : b ∈ live) {i : Handle}
    (hi : i ∈ (db.mem b).handles) : i ∈ db.handles ++ rest :=
  List.mem_append_left _ (h.handles_perm.mem_iff.mpr (List.mem_flatMap.mpr ⟨b, hb, hi⟩))

theorem Indexed.handles_cons (h : Indexed db listed live) {b : Block} {live' : List Block}
    (hp : live.Perm (b :: live')) :
    db.handles.Perm ((db.mem b).handles ++ live'.flatMap fun b => (db.mem b).handles) := by
  have hf := h.handles_perm.trans (hp.flatMap_right fun b => (db.mem b).handles)
  rwa [List.flatMap_cons] at hf

/-- The database after a call of at most `k` adds, with its references counted. -/
def Settled (base bound k : ℕ) (rest : List Handle) (p : SStrPool) (db : SubscriberDb) : Prop :=
  ∃ listed live bound', DbInv db base listed live bound' ∧ bound' ≤ bound + k ∧
    p.Refs (db.handles ++ rest)

theorem Settled.still (h : DbInv db base listed live bound) (hr : p.Refs (db.handles ++ rest))
    (k : ℕ) : Settled base bound k rest p db :=
  ⟨listed, live, bound, h, Nat.le_add_right _ _, hr⟩

/-- The records that were live keep their references. -/
theorem handles_kept {db' : SubscriberDb} {listed' : List Block} (h : Indexed db listed live)
    (h' : Indexed db' listed' live) (hmem : ∀ q ∈ live, db'.mem q = db.mem q) :
    db.handles.Perm db'.handles := by
  refine h.handles_perm.trans ((List.Perm.of_eq ?_).trans h'.handles_perm.symm)
  exact List.flatMap_congr fun b hb => by rw [hmem b hb]

theorem insertRecord_strs (p : SStrPool) (db : SubscriberDb) (b : Block) (a : Alloc) :
    (insertRecord p db b a).status = .ok ∨
      (insertRecord p db b a).strs = releaseTexts p (db.mem b) := by
  obtain ⟨t1, t2, t3, hdb⟩ := indexRecord_frame db b a
  simp only [insertRecord]
  rcases hi : indexRecord db b a with ⟨st, db1⟩
  rw [hi] at hdb
  simp only at hdb
  subst hdb
  cases st with
  | ok => exact Or.inl rfl
  | _ => exact Or.inr rfl

/-- An add that fails drops the references that it took. -/
theorem addRecord_failed {held : List Handle} (hr : p.Refs held) (hroom : Room held 3)
    (imsi msisdn name region plan : Str) (status : SubStatus) (now : Int64) (a : Alloc)
    (hst : (addRecord p db imsi msisdn name region plan status now a).status ≠ .ok) :
    (addRecord p db imsi msisdn name region plan status now a).strs.Refs held := by
  revert hst
  simp only [addRecord]
  rcases mempoolAlloc db.pool a with ⟨_ | b, pool⟩
  · exact fun _ => hr
  have hx := internTexts_refs hr hroom name region plan (a.skip 2)
  dsimp only at hx ⊢
  generalize internTexts p name region plan (a.skip 2) = x at hx ⊢
  obtain ⟨st, p', n, r, q⟩ := x
  dsimp only at hx
  cases st with
  | ok =>
    intro hst
    rcases insertRecord_strs p' (db.place pool b (newRecord db.nextId imsi msisdn n r q status now))
      b (a.skip 14) with hok | hrel
    · exact absurd hok hst
    · dsimp only
      rw [hrel]
      refine hx.releaseTexts (List.perm_iff_count.mpr fun h => ?_)
      simp only [SubscriberDb.place, Function.update_self, newRecord, Subscriber.handles,
        List.count_append]
      omega
  | _ =>
    exact fun _ => ((hx.release_opt (List.Perm.refl _)).release_opt
      (List.Perm.refl _)).release_opt (List.Perm.refl _)

theorem subdbAdd_failed {held : List Handle} (h : DbInv db base listed live bound)
    (hr : p.Refs held) (hroom : Room held 3) (imsi msisdn name region plan : Option Str)
    (status : SubStatus) (outId : Bool) (now : Int64) (a : Alloc) :
    let r := subdbAdd p db imsi msisdn name region plan status outId now a
    r.status ≠ .ok → r.strs.Refs held := by
  intro r hst
  rcases subdbAdd_refused_or p h.indexed imsi msisdn name region plan status outId now a with
    ⟨st, -, he⟩ | ⟨i, m, n, g, q, -, -, -, -, -, -, he⟩
  · simp only [r, he]
    exact hr
  · simp only [r, he] at hst ⊢
    exact addRecord_failed hr hroom i m n g q status now a hst

theorem subdbAdd_refs (h : DbInv db base listed live bound) (hr : p.Refs (db.handles ++ rest))
    (hroom : Room (db.handles ++ rest) 3) (imsi msisdn name region plan : Option Str)
    (status : SubStatus) (outId : Bool) (now : Int64) (a : Alloc) :
    let r := subdbAdd p db imsi msisdn name region plan status outId now a
    Settled base bound 1 rest r.strs r.db ∧
      ∀ i, (r.db.handles ++ rest).count i ≤ (db.handles ++ rest).count i + 3 := by
  intro r
  have hfail := subdbAdd_failed h hr hroom imsi msisdn name region plan status outId now a
  rcases subdbAdd_cases p h imsi msisdn name region plan status outId now a with
    ⟨hst, -, -, hhi, hinv, hmem⟩ | ⟨i, m, n, g, q, -, -, -, -, -, hd⟩
  · have hperm := (handles_kept h.indexed hinv.indexed hmem).append_right rest
    exact ⟨⟨_, _, _, hinv, hhi, (hfail hst).perm hperm⟩, fun i => by
      rw [← hperm.count_eq i]
      exact Nat.le_add_right _ _⟩
  · cases hd with
    | @intro b n' r' q' hnew hb hst hid htexts hinv hmem =>
      have hx := internTexts_refs hr hroom n g q (a.skip 2)
      simp only [htexts] at hx
      have hperm : (r.db.handles ++ rest).Perm
          (n'.toList ++ (r'.toList ++ (q'.toList ++ (db.handles ++ rest)))) := by
        have hcons : r.db.handles.Perm _ := hinv.indexed.handles_cons (List.Perm.refl _)
        have hold : live.flatMap (fun c => (r.db.mem c).handles) =
            live.flatMap fun c => (db.mem c).handles :=
          List.flatMap_congr fun c hc => by
            rw [hmem, Function.update_of_ne (ne_of_mem_of_not_mem hc hb)]
        rw [hold] at hcons
        apply List.perm_iff_count.mpr
        intro i
        have h1 := hcons.count_eq i
        have h2 := h.indexed.handles_perm.count_eq i
        simp only [hmem, Function.update_self, newRecord, Subscriber.handles,
          List.count_append] at h1 h2 ⊢
        omega
      refine ⟨⟨_, _, _, hinv, le_rfl, hx.perm hperm.symm⟩, fun i => ?_⟩
      have hle : ∀ o : Option Handle, o.toList.count i ≤ 1 := fun o => by
        apply List.count_le_length.trans
        cases o <;> simp
      have h1 := hle n'
      have h2 := hle r'
      have h3 := hle q'
      rw [hperm.count_eq i]
      simp only [List.count_append]
      omega

theorem subdbDelete_refs (h : DbInv db base listed live bound) (hr : p.Refs (db.handles ++ rest))
    (id : UInt64) :
    Settled base bound 0 rest (subdbDelete p db id).2.1 (subdbDelete p db id).2.2 := by
  rcases subdbDelete_cases p h id with he | ⟨b, listed', live', hperm, -, -, hinv, hmem, -, hstrs⟩
  · rw [he]
    exact .still h hr 0
  · refine ⟨_, _, _, hinv, le_rfl, ?_⟩
    rw [hstrs]
    apply hr.releaseTexts
    have hold : (live'.flatMap fun c => (db.mem c).handles) =
        live'.flatMap fun c => ((subdbDelete p db id).2.2.mem c).handles :=
      List.flatMap_congr fun c hc => by rw [hmem c hc]
    have h1 := (h.indexed.handles_cons hperm).append_right rest
    rw [hold, List.append_assoc] at h1
    exact h1.trans ((hinv.indexed.handles_perm.symm.append_right rest).append_left _)

theorem subdbUpdate_refs (h : DbInv db base listed live bound) (hr : p.Refs (db.handles ++ rest))
    (hroom : Room (db.handles ++ rest) 3) (id : UInt64) (name region plan : Option Str)
    (status : Option SubStatus) (now : Int64) (a : Alloc) :
    let r := subdbUpdate p db id name region plan status now a
    Settled base bound 0 rest r.2.1 r.2.2 := by
  intro r
  rcases subdbUpdate_cases p h id name region plan status now a with
    ⟨st, -, he⟩ | ⟨b, hb, s, hs, -, -, -, he, hinv⟩
  · simp only [r, he]
    exact .still h hr 0
  · have hperm : live.Perm (b :: live.erase b) := List.perm_cons_erase hb
    have hnot : b ∉ live.erase b := by
      exact (List.nodup_cons.mp (hperm.nodup_iff.mp h.owned.held_nodup)).1
    have hheld : (db.handles ++ rest).Perm ((db.mem b).handles ++
        ((live.erase b).flatMap (fun c => (db.mem c).handles) ++ rest)) := by
      have h1 := (h.indexed.handles_cons hperm).append_right rest
      rwa [List.append_assoc] at h1
    have hu := updateTexts_refs hr hheld hroom name region plan a
    have hsame : s.handles = (updateTexts p (db.mem b) name region plan a).2.handles := by
      rw [hs]
      rfl
    have hold : (live.erase b).flatMap (fun c => (db.mem c).handles) =
        (live.erase b).flatMap fun c => (Function.update db.mem b s c).handles :=
      List.flatMap_congr fun c hc => by
        rw [Function.update_of_ne (ne_of_mem_of_not_mem hc hnot)]
    have hnew := (hinv.indexed.handles_cons hperm).append_right rest
    simp only [Function.update_self, List.append_assoc] at hnew
    rw [← hold, hsame] at hnew
    simp only [r, he]
    exact ⟨_, _, _, hinv, le_rfl, hu.perm hnew.symm⟩

/-! ### Searches -/

/-- A search that succeeds adds the references of the snapshots it hands out. -/
def Taken (held : List Handle) : Except SmStatus (List Subscriber) × SStrPool → Prop
  | (.ok array, p) => p.Refs (array.flatMap Subscriber.handles ++ held)
  | (.error _, p) => p.Refs held

theorem searchResult_refs {held : List Handle} (hr : p.Refs held) (hroom : Room held 3)
    (mem : Block → Subscriber) {found : Except SmStatus Block}
    (hfound : ∀ b, found = .ok b → ∀ h ∈ (mem b).handles, h ∈ held) (a : Alloc) :
    let r := searchResult p mem found a
    Taken held (r.1.map fun s => [s], r.2) := by
  intro r
  simp only [r, searchResult]
  cases found with
  | error st => exact hr
  | ok b =>
    rcases hr.makeSnapshot (hfound b rfl) hroom a with he | ⟨p', he, hr'⟩
    · simp only [he]
      exact hr
    · simp only [he]
      simpa only [Except.map, Taken, List.flatMap_cons, List.flatMap_nil, List.append_nil] using hr'

theorem walk_refs {held : List Handle} (mem : Block → Subscriber)
    (matching : SStrPool → Subscriber → Bool) (a : Alloc)
    (l : List (KeyRef Block UInt64 × Block))
    (hl : ∀ e ∈ l, ∀ h ∈ (mem e.2).handles, h ∈ held) {ctx : FilterCtx}
    (hroom : Room held (3 * (ctx.arr.length + l.length)))
    (hr : ctx.strs.Refs (ctx.arr.flatMap Subscriber.handles ++ held)) :
    let r := KeyMap.walk (matchCb mem matching a) l ctx
    r.strs.Refs (r.arr.flatMap Subscriber.handles ++ held) := by
  induction l generalizing ctx with
  | nil => exact hr
  | cons e l ih =>
    have hlen : ∀ arr : List Subscriber,
        (arr.flatMap Subscriber.handles).length ≤ 3 * arr.length := by
      intro arr
      induction arr with
      | nil => simp
      | cons s arr ih =>
        have h3 := s.handles_length
        simp only [List.flatMap_cons, List.length_append, List.length_cons]
        omega
    have ih := fun {ctx'} => @ih (fun x hx => hl x (List.mem_cons_of_mem _ hx)) ctx'
    have hmem : ∀ h ∈ (mem e.2).handles, h ∈ ctx.arr.flatMap Subscriber.handles ++ held :=
      fun h hh => List.mem_append_right _ (hl e (List.mem_cons_self ..) h hh)
    have hn := hlen ctx.arr
    simp only [List.length_cons] at hroom
    have hroom' : Room (ctx.arr.flatMap Subscriber.handles ++ held) 3 := hroom.append (by omega)
    simp only [KeyMap.walk, matchCb]
    cases matching ctx.strs (mem e.2) with
    | false => exact ih (hroom.mono (by omega)) hr
    | true =>
      simp only [Bool.not_true, Bool.false_eq_true, if_false]
      cases decide (ctx.cap ≤ ctx.arr.length) && !a (2 * ctx.arr.length) with
      | true => exact hr
      | false =>
        simp only [Bool.false_eq_true, if_false]
        rcases hr.makeSnapshot hmem hroom' (a.skip (2 * ctx.arr.length + 1)) with
          he | ⟨p', he, hr'⟩
        · simp only [he]
          exact hr
        · simp only [he]
          refine ih (hroom.mono ?_) (hr'.perm (List.perm_iff_count.mpr fun h => ?_))
          · simp only [List.length_append, List.length_cons, List.length_nil]
            omega
          · simp only [List.flatMap_append, List.flatMap_cons, List.flatMap_nil, List.append_nil,
              List.count_append]
            omega

theorem filteredSearch_refs {held : List Handle} (hr : p.Refs held)
    (matching : SStrPool → Subscriber → Bool)
    (hheld : ∀ n ∈ db.byId.nodes, ∀ h ∈ (db.mem n.value).handles, h ∈ held)
    (hroom : Room held (3 * db.byId.nodes.length)) (a : Alloc) :
    Taken held (filteredSearch p db matching a) := by
  have hlen : db.byId.entries.length = db.byId.nodes.length := List.length_map _
  have hentries : ∀ e ∈ db.byId.entries, ∀ h ∈ (db.mem e.2).handles, h ∈ held := by
    intro e he
    obtain ⟨n, hn, rfl⟩ := List.mem_map.mp he
    exact hheld n hn
  have hw := @walk_refs held db.mem matching a db.byId.entries hentries ⟨[], 0, true, p⟩
    (hroom.mono (by simp [hlen])) hr
  simp only [filteredSearch, htIterate_eq]
  split
  · exact SStrPool.Refs.freeResults hw (List.Perm.refl _)
  · exact hw

/-! ### Loading and destroying -/

theorem loadLines_refs (h : DbInv db base listed live bound) (hr : p.Refs (db.handles ++ rest))
    (clock : ℕ → Int64) (a : Alloc) (i : ℕ) (pieces : List Str)
    (hroom : Room (db.handles ++ rest) (3 * pieces.length)) :
    let r := loadLines p db clock a i pieces
    Settled base bound pieces.length rest r.2.1 r.2.2 := by
  induction pieces generalizing p db listed live bound i with
  | nil => exact .still h hr 0
  | cons piece pieces ih =>
    simp only [List.length_cons] at hroom ⊢
    have hline : Settled base bound 1 rest (loadLine p db piece (clock i) (a.skip (20 * i))).2.1
        (loadLine p db piece (clock i) (a.skip (20 * i))).2.2 ∧
        ∀ j, ((loadLine p db piece (clock i) (a.skip (20 * i))).2.2.handles ++ rest).count j ≤
          (db.handles ++ rest).count j + 3 := by
      simp only [loadLine]
      split
      · exact ⟨.still h hr 1, fun _ => Nat.le_add_right _ _⟩
      · split
        · exact ⟨.still h hr 1, fun _ => Nat.le_add_right _ _⟩
        · split
          · exact ⟨.still h hr 1, fun _ => Nat.le_add_right _ _⟩
          · exact subdbAdd_refs h hr (hroom.mono (by omega)) _ _ _ _ _ _ _ _ _
    obtain ⟨⟨listed', live', b1, hinv, hb1, hr1⟩, hcount⟩ := hline
    simp only [loadLines]
    generalize loadLine p db piece (clock i) (a.skip (20 * i)) = x at hinv hr1 hcount ⊢
    have hroom' : Room (x.2.2.handles ++ rest) (3 * pieces.length) := hroom.of_le fun j => by
      have hj := hcount j
      omega
    obtain ⟨l2, v2, b2, hinv2, hb2, hr2⟩ := ih hinv hr1 (i + 1) hroom'
    exact ⟨l2, v2, b2, hinv2, by omega, hr2⟩

/-- Lines that a load reads after the header. -/
def loadCount (path : Option Str) (files : Str → Option Str) : ℕ :=
  ((path.bind files).elim [] (fgetsAll (smMaxLineLen - 2))).tail.length

theorem subdbLoadCsv_refs (h : DbInv db base listed live bound)
    (hr : p.Refs (db.handles ++ rest)) (path : Option Str) (files : Str → Option Str)
    (clock : ℕ → Int64) (a : Alloc) (hroom : Room (db.handles ++ rest) (3 * loadCount path files)) :
    let r := subdbLoadCsv p db path files clock a
    Settled base bound (loadCount path files) rest r.strs r.db := by
  intro r
  simp only [r, subdbLoadCsv]
  cases path with
  | none => exact .still h hr _
  | some path =>
    dsimp only
    split
    · exact .still h hr _
    · rename_i content hc
      split
      · exact .still h hr _
      · rename_i header pieces hp
        split
        · exact .still h hr _
        · have hcount : loadCount (some path) files = pieces.length := by
            simp only [loadCount, Option.bind_some, hc, Option.elim_some, hp, List.tail_cons]
          rw [hcount] at hroom ⊢
          exact loadLines_refs h hr clock a 0 pieces hroom

theorem freeAll_refs {held : List Handle} (bs : List Block) {q : SStrPool} {db : SubscriberDb}
    (hb : bs.Nodup) (hr : q.Refs held)
    (hp : held.Perm (bs.flatMap (fun b => (db.mem b).handles) ++ rest)) :
    (bs.foldl (fun r b => freeSubscriberLocked r.1 r.2 b) (q, db)).1.Refs rest := by
  induction bs generalizing q db held with
  | nil => exact hr.perm hp
  | cons b bs ih =>
    rw [List.flatMap_cons, List.append_assoc] at hp
    obtain ⟨hnot, hb⟩ := List.nodup_cons.mp hb
    have hold : bs.flatMap (fun c => (db.mem c).handles) =
        bs.flatMap fun c => (Function.update db.mem b Subscriber.poison c).handles :=
      List.flatMap_congr fun c hc => by
        rw [Function.update_of_ne (ne_of_mem_of_not_mem hc hnot)]
    rw [List.foldl_cons]
    apply ih hb (hr.releaseTexts hp)
    rw [hold]

theorem walk_collect (cap : ℕ) (l : List (KeyRef Block UInt64 × Block)) (arr : List Block)
    (hcap : arr.length + l.length ≤ cap) :
    KeyMap.walk (subdbCollectCb cap) l (some arr) = some (arr ++ l.map Prod.snd) := by
  induction l generalizing arr with
  | nil => simp [KeyMap.walk]
  | cons e l ih =>
    simp only [List.length_cons] at hcap
    have hlt : arr.length < cap := by omega
    simp only [KeyMap.walk, subdbCollectCb, Option.map_some, if_pos hlt]
    have hlen : (arr ++ [e.2]).length + l.length ≤ cap := by
      simp only [List.length_append, List.length_cons, List.length_nil]
      omega
    rw [ih (arr ++ [e.2]) hlen, List.append_assoc, List.map_cons, List.singleton_append]

theorem subdbDestroy_keeps (p : SStrPool) (db : SubscriberDb) (a : Alloc) :
    p.Keeps (subdbDestroy p db a) := by
  have hfold : ∀ (bs : List Block) (q : SStrPool) (d : SubscriberDb),
      q.Keeps (bs.foldl (fun r b => freeSubscriberLocked r.1 r.2 b) (q, d)).1 := by
    intro bs
    induction bs with
    | nil => exact fun q _ => SStrPool.Keeps.refl q
    | cons b bs ih => exact fun q d => (SStrPool.keeps_tracks.releaseTexts q (d.mem b)).trans (ih _ _)
  exact hfold _ p db

theorem subdbDestroy_refs (h : DbInv db base listed live bound) (hlisted : listed.Perm live)
    (hr : p.Refs (db.handles ++ rest)) {a : Alloc} (ha : a 0 = true) :
    (subdbDestroy p db a).Refs rest := by
  have hcount := h.indexed.byId.count
  have hlen : db.byId.entries.length = listed.length := by
    rw [HashTable.entries, List.length_map, ← h.indexed.byId.values.length_eq, List.length_map]
  have hall : (htIterate db.byId (subdbCollectCb (htSize db.byId))
      (if decide (0 < htSize db.byId) && a 0 then some [] else none)).getD [] =
        db.byId.nodes.map HtNode.value := by
    rw [htIterate_eq, ha, Bool.and_true]
    have hmap : db.byId.entries.map Prod.snd = db.byId.nodes.map HtNode.value := by
      simp [HashTable.entries]
    by_cases hpos : 0 < htSize db.byId
    · rw [decide_eq_true hpos, if_pos rfl, walk_collect _ _ _ (by
        rw [hlen, List.length_nil]
        simp only [htSize]
        omega), Option.getD_some, List.nil_append, hmap]
    · have hnil : db.byId.entries = [] := by
        rw [← List.length_eq_zero_iff, hlen]
        simp only [htSize] at hpos
        omega
      rw [← hmap, hnil]
      simp [hpos, KeyMap.walk]
  simp only [subdbDestroy, hall]
  have hv := h.indexed.byId.values.trans hlisted
  apply freeAll_refs _ (hv.nodup_iff.mpr h.owned.held_nodup) hr
  exact (h.indexed.handles_perm.trans (hv.symm.flatMap_right _)).append_right rest

end Calls

end SubscriberMgmt
