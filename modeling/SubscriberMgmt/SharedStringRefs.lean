import SubscriberMgmt.SharedString
import SubscriberMgmt.FieldIndex
import Mathlib.Data.List.Count

/-!
# References to interned strings (`shared_string.c:55-154`)

The references that clients hold are a ghost list beside the pool, one entry
for each. The pool has an entry for exactly the handles in the list, and the
count of a handle is the number of its entries there.
-/

namespace SubscriberMgmt

/-- No handle is held as often as `refcount` has values. -/
def FewRefs (held : List Handle) : Prop := ∀ h, held.count h < 2 ^ 32

structure SStrPool.Refs (p : SStrPool) (held : List Handle) : Prop where
  wf : p.WF
  count : ∀ h, (p.cells h).refcount.toNat = held.count h
  live : ∀ h, (p.cells h).live = true ↔ h ∈ held
  entry : ∀ h, h ∈ held ↔ ∃ n ∈ p.table.nodes, n.value = h
  len : ∀ h ∈ held, (p.cells h).len = (p.cells h).data.length

namespace SStrPool

/-- The strings of the pool by their texts. -/
theorem WF.index {p : SStrPool} (hp : p.WF) :
    Indexes smHashStr (fun h => (p.cells h).data) p.table (p.table.nodes.map HtNode.value) :=
  ⟨hp.table, hp.keys, List.Perm.refl _⟩

end SStrPool

namespace SStrPool.Refs

variable {p : SStrPool} {held : List Handle}

theorem few (hr : p.Refs held) : FewRefs held := by
  intro h
  rw [← hr.count h]
  exact (p.cells h).refcount.toNat_lt

theorem perm (hr : p.Refs held) {held' : List Handle} (hp : held.Perm held') : p.Refs held' :=
  ⟨hr.wf, fun h => (hr.count h).trans (hp.count_eq h), fun h => (hr.live h).trans hp.mem_iff,
    fun h => hp.mem_iff.symm.trans (hr.entry h), fun h hh => hr.len h (hp.mem_iff.mpr hh)⟩

theorem lt_next (hr : p.Refs held) {h : Handle} (hh : h ∈ held) : h < p.next := by
  obtain ⟨n, hn, rfl⟩ := (hr.entry h).mp hh
  exact hr.wf.alloc n hn

theorem same_handle (hr : p.Refs held) {h i : Handle} (hh : h ∈ held) (hi : i ∈ held)
    (heq : (p.cells h).data = (p.cells i).data) : h = i :=
  hr.wf.index.inj (List.mem_map.mpr ((hr.entry h).mp hh)) (List.mem_map.mpr ((hr.entry i).mp hi))
    heq

/-- A count is changed together with the list, and the handle stays held. -/
theorem recount (hr : p.Refs held) {held' : List Handle} {h : Handle} {r : UInt32}
    (hmem : ∀ i, i ∈ held' ↔ i ∈ held) (hself : r.toNat = held'.count h)
    (hother : ∀ i ≠ h, held'.count i = held.count i) :
    (p.setCell h { p.cells h with refcount := r }).Refs held' := by
  refine ⟨setCell_wf hr.wf h _ rfl, fun i => ?_, fun i => ?_, fun i => ?_, fun i hi => ?_⟩
  · by_cases hi : i = h
    · subst hi
      simp only [setCell, Function.update_self, hself]
    · simp only [setCell, Function.update_of_ne hi, hr.count i, hother i hi]
  · rw [hmem, ← hr.live i]
    by_cases hi : i = h
    · subst hi
      simp only [setCell, Function.update_self]
    · simp only [setCell, Function.update_of_ne hi]
  · rw [hmem]
    exact hr.entry i
  · have hl := hr.len i ((hmem i).mp hi)
    by_cases hi : i = h
    · subst hi
      simpa only [setCell, Function.update_self] using hl
    · simpa only [setCell, Function.update_of_ne hi] using hl

/-- One more reference to a string of the pool. -/
theorem add (hr : p.Refs held) {h : Handle} (hh : h ∈ held) (hfew : FewRefs (h :: held)) :
    (p.setCell h { p.cells h with refcount := (p.cells h).refcount + 1 }).Refs (h :: held) := by
  have hlt := hfew h
  have hc := hr.count h
  have h1 : (1 : UInt32).toNat = 1 := rfl
  rw [List.count_cons_self] at hlt
  refine hr.recount (fun i => ?_) ?_ fun i hi => List.count_cons_of_ne (Ne.symm hi)
  · rw [List.mem_cons]
    exact or_iff_right_of_imp fun he => he ▸ hh
  · rw [List.count_cons_self, UInt32.toNat_add]
    omega

theorem retain (hr : p.Refs held) {h : Handle} (hh : h ∈ held) (hfew : FewRefs (h :: held)) :
    (sstrRetain p (some h)).Refs (h :: held) := hr.add hh hfew

/-- The first reference to a string that was allocated for it. -/
theorem fresh (hr : p.Refs held) {text : Str} {t : HashTable (KeyRef Handle Str) Handle}
    (hidx : Indexes smHashStr (fun h => ((p.mallocString text).cells h).data) t
      (p.next :: p.table.nodes.map HtNode.value)) :
    { p.mallocString text with table := t }.Refs (p.next :: held) := by
  have hnot : p.next ∉ held := fun hm => lt_irrefl _ (hr.lt_next hm)
  have hmem : ∀ i ≠ p.next, (i ∈ p.next :: held ↔ i ∈ held) := fun i hi => by
    rw [List.mem_cons]
    exact or_iff_right hi
  have hcell : ∀ i ≠ p.next, (p.mallocString text).cells i = p.cells i := fun i hi =>
    Function.update_of_ne hi _ _
  have hnew : (p.mallocString text).cells p.next = ⟨text, text.length, 1, true⟩ :=
    Function.update_self ..
  refine ⟨⟨hidx.wf, hidx.own, fun n hn => ?_⟩, fun i => ?_, fun i => ?_, fun i => ?_,
    fun i hi => ?_⟩
  · rcases List.mem_cons.mp (hidx.values.mem_iff.mp (List.mem_map_of_mem hn)) with hv | hv
    · rw [hv]
      exact Nat.lt_succ_self _
    · obtain ⟨m, hm, hv⟩ := List.mem_map.mp hv
      exact hv ▸ Nat.lt_succ_of_lt (hr.wf.alloc m hm)
  · by_cases hi : i = p.next
    · rw [hi, List.count_cons_self, List.count_eq_zero.mpr hnot]
      exact congrArg (fun c => c.refcount.toNat) hnew
    · rw [List.count_cons_of_ne (Ne.symm hi), ← hr.count i]
      exact congrArg (fun c => c.refcount.toNat) (hcell i hi)
  · by_cases hi : i = p.next
    · rw [hi]
      exact iff_of_true (congrArg SharedString.live hnew) (List.mem_cons_self ..)
    · rw [hmem i hi, ← hr.live i]
      exact Iff.of_eq (congrArg (fun c => c.live = true) (hcell i hi))
  · have hv := hidx.values.mem_iff (a := i)
    rw [List.mem_cons, List.mem_map, List.mem_map, ← hr.entry i] at hv
    rw [List.mem_cons]
    exact hv.symm
  · by_cases hne : i = p.next
    · rw [hne]
      exact (congrArg SharedString.len hnew).trans
        (congrArg (fun c => c.data.length) hnew).symm
    · have hl := hr.len i ((hmem i hne).mp hi)
      rw [← hcell i hne] at hl
      exact hl

/-- The last reference to `h` is dropped and the string freed. -/
theorem free (hr : p.Refs held) {h : Handle} {rest : List Handle} (hp : held.Perm (h :: rest))
    (hlast : rest.count h = 0) :
    { p.setCell h { p.cells h with refcount := 0, live := false } with
      table := (htRemove p.ops p.table (.field h)).2 }.Refs rest := by
  have hh : h ∈ held := hp.mem_iff.mpr (List.mem_cons_self ..)
  have hnot : h ∉ rest := List.count_eq_zero.mp hlast
  have hmem : ∀ i ≠ h, (i ∈ rest ↔ i ∈ held) := fun i hi => by
    rw [hp.mem_iff, List.mem_cons]
    exact (or_iff_right hi).symm
  have hperm : (p.table.nodes.map HtNode.value).Perm
      (h :: (p.table.nodes.map HtNode.value).erase h) :=
    List.perm_cons_erase (List.mem_map.mpr ((hr.entry h).mp hh))
  obtain ⟨t', ht, hidx⟩ := hr.wf.index.remove hperm
  have hnodup := hperm.nodup_iff.mp (hr.wf.index.distinct.imp fun hne he => hne (by rw [he]))
  have hsub : ∀ n ∈ t'.nodes, n.value ≠ h ∧ ∃ m ∈ p.table.nodes, m.value = n.value := by
    intro n hn
    have hv : n.value ∈ (p.table.nodes.map HtNode.value).erase h :=
      hidx.values.mem_iff.mp (List.mem_map_of_mem hn)
    refine ⟨fun he => (List.nodup_cons.mp hnodup).1 (he ▸ hv), ?_⟩
    exact List.mem_map.mp (hperm.mem_iff.mpr (List.mem_cons_of_mem _ hv))
  simp only [ops, ht]
  have hdata := setCell_data p h { p.cells h with refcount := 0, live := false } rfl
  refine ⟨⟨?_, hidx.own, fun n hn => ?_⟩, fun i => ?_, fun i => ?_, fun i => ?_, fun i hi => ?_⟩
  · have hops : ({ p.setCell h { p.cells h with refcount := 0, live := false } with
        table := t' } : SStrPool).ops = p.ops :=
      setCell_ops p h { p.cells h with refcount := 0, live := false } rfl
    rw [hops]
    exact hidx.wf
  · obtain ⟨-, m, hm, hv⟩ := hsub n hn
    exact hv ▸ hr.wf.alloc m hm
  · by_cases hi : i = h
    · subst hi
      rw [hlast]
      simp only [setCell, Function.update_self]
      rfl
    · simp only [setCell, Function.update_of_ne hi, hr.count i, hp.count_eq i]
      exact List.count_cons_of_ne (Ne.symm hi)
  · by_cases hi : i = h
    · subst hi
      simp only [setCell, Function.update_self, Bool.false_eq_true, false_iff]
      exact hnot
    · simp only [setCell, Function.update_of_ne hi, hr.live i, hmem i hi]
  · by_cases hi : i = h
    · subst hi
      apply iff_of_false hnot
      intro hentry
      obtain ⟨n, hn, hv⟩ := hentry
      exact (hsub n hn).1 hv
    · rw [hmem i hi, hr.entry i]
      have hv := hidx.values.mem_iff (a := i)
      rw [List.mem_erase_of_ne hi] at hv
      exact List.mem_map.symm.trans (hv.symm.trans List.mem_map)
  · have hne : i ≠ h := fun he => hnot (he ▸ hi)
    have hl := hr.len i ((hmem i hne).mp hi)
    simpa only [setCell, Function.update_of_ne hne] using hl

theorem release (hr : p.Refs held) {h : Handle} {rest : List Handle}
    (hp : held.Perm (h :: rest)) : (sstrRelease p (some h)).Refs rest := by
  have hh : h ∈ held := hp.mem_iff.mpr (List.mem_cons_self ..)
  have hcount := hr.count h
  rw [hp.count_eq h, List.count_cons_self] at hcount
  have h1 : (1 : UInt32).toNat = 1 := rfl
  have hne : (p.cells h).refcount ≠ 0 := fun he => by
    rw [he] at hcount
    exact absurd hcount (by simp)
  simp only [sstrRelease, if_neg hne]
  split
  case isTrue hone =>
    rw [hone, h1] at hcount
    exact hr.free hp (by omega)
  case isFalse hmany =>
    have hgt : rest.count h ≠ 0 := fun hz => hmany (UInt32.toNat_inj.mp (by rw [hcount, hz, h1]))
    have hin : h ∈ rest := List.count_pos_iff.mp (Nat.pos_of_ne_zero hgt)
    have hle : (1 : UInt32) ≤ (p.cells h).refcount := by
      rw [UInt32.le_iff_toNat_le]
      omega
    refine hr.recount (fun i => ?_) ?_ fun i hi => ?_
    · rw [hp.mem_iff, List.mem_cons]
      exact (or_iff_right_of_imp fun he => he ▸ hin).symm
    · rw [UInt32.toNat_sub_of_le _ _ hle]
      omega
    · rw [hp.count_eq i, List.count_cons_of_ne (Ne.symm hi)]

/-- `sstr_intern` finds the string that is held, or makes one. -/
theorem intern (hr : p.Refs held) (text : Str) (a : Alloc) :
    (∃ st, st ≠ .ok ∧ sstrIntern p text a = (.error st, p)) ∨
      ∃ h p', sstrIntern p text a = (.ok h, p') ∧ (p'.cells h).data = text ∧
        (FewRefs (h :: held) → p'.Refs (h :: held)) := by
  unfold sstrIntern
  split
  · exact Or.inl ⟨_, by decide, rfl⟩
  · split
    · exact Or.inl ⟨_, by decide, rfl⟩
    · cases hg : htGet p.ops p.table (.value text) with
      | ok h =>
        obtain ⟨hm, hdata⟩ := hr.wf.index.get_ok_iff.mp hg
        have hh : h ∈ held := (hr.entry h).mpr (List.mem_map.mp hm)
        refine Or.inr ⟨h, _, rfl, ?_, hr.add hh⟩
        rw [setCell_data p h { p.cells h with refcount := (p.cells h).refcount + 1 } rfl]
        exact hdata
      | error e =>
        dsimp only
        split
        · exact Or.inl ⟨_, by decide, rfl⟩
        · split
          · exact Or.inl ⟨_, by decide, rfl⟩
          · have habs := (hr.wf.index.get_error_iff.mp hg).2
            have hold : ∀ i ∈ p.table.nodes.map HtNode.value,
                ((p.mallocString text).cells i).data = (p.cells i).data := fun i hi =>
              (mallocString_extends p text).data_eq i
                (hr.lt_next ((hr.entry i).mpr (List.mem_map.mp hi)))
            have hself : ((p.mallocString text).cells p.next).data = text := by
              simp [mallocString, setCell]
            rcases (hr.wf.index.congr hold).put (p := p.next) (fun i hi => by
                rw [hold i hi, hself]
                exact habs i hi) (a.skip 2) with ⟨-, he⟩ | ⟨-, t, he, hidx⟩
            · exact Or.inl ⟨.errAllocFailed, by decide, by simp only [ops, he]⟩
            · refine Or.inr ⟨p.next, { p.mallocString text with table := t },
                by simp only [ops, he], hself, fun _ => ?_⟩
              exact hr.fresh hidx

end SStrPool.Refs

/-! ### Clients of the pool -/

/-- A reference that a client holds: the text it was interned for, and the
handle that it got. -/
structure Ref (Client : Type*) where
  client : Client
  text : Str
  handle : Handle
  deriving DecidableEq

structure Sharing (Client : Type*) where
  pool : SStrPool
  refs : List (Ref Client)

inductive RefOp (Client : Type*) where
  | intern (client : Client) (text : Str) (a : Alloc)
  | retain (r : Ref Client)
  | release (r : Ref Client)

namespace Sharing

variable {Client : Type*} [DecidableEq Client]

def step (s : Sharing Client) : RefOp Client → Sharing Client
  | .intern client text a =>
    match sstrIntern s.pool text a with
    | (.ok h, pool) => ⟨pool, ⟨client, text, h⟩ :: s.refs⟩
    | (.error _, pool) => ⟨pool, s.refs⟩
  | .retain r => ⟨sstrRetain s.pool (some r.handle), r :: s.refs⟩
  | .release r => ⟨sstrRelease s.pool (some r.handle), s.refs.erase r⟩

/-- References to a text that clients hold now. -/
def outstanding (s : Sharing Client) (text : Str) : ℕ :=
  s.refs.countP fun r => decide (r.text = text)

/-- Clients retain and release references that they hold. -/
def Holds (s : Sharing Client) : RefOp Client → Prop
  | .intern _ _ _ => True
  | .retain r => r ∈ s.refs
  | .release r => r ∈ s.refs

def May (s : Sharing Client) (op : RefOp Client) : Prop :=
  s.Holds op ∧ ∀ text, (s.step op).outstanding text < 2 ^ 32

/-- The state after a successful `sstr_pool_init`. -/
def init (hint : ℕ) (a : Alloc) : Sharing Client := ⟨(sstrPoolInit SStrPool.start hint a).2, []⟩

structure Inv (s : Sharing Client) : Prop where
  refs : s.pool.Refs (s.refs.map Ref.handle)
  text : ∀ r ∈ s.refs, (s.pool.cells r.handle).data = r.text

omit [DecidableEq Client] in
theorem few_of {s : Sharing Client}
    (htext : ∀ r ∈ s.refs, (s.pool.cells r.handle).data = r.text)
    (hfew : ∀ text, s.outstanding text < 2 ^ 32) : FewRefs (s.refs.map Ref.handle) := by
  intro h
  refine Nat.lt_of_le_of_lt ?_ (hfew (s.pool.cells h).data)
  rw [outstanding, List.count, List.countP_map]
  apply List.countP_mono_left
  intro r hr he
  have hh : r.handle = h := by simpa using he
  rw [decide_eq_true_eq, ← htext r hr, hh]

omit [DecidableEq Client] in
theorem Inv.outstanding_eq {s : Sharing Client} (hs : s.Inv) {r : Ref Client} (hr : r ∈ s.refs) :
    s.outstanding r.text = (s.refs.map Ref.handle).count r.handle := by
  rw [outstanding, List.count, List.countP_map]
  apply List.countP_congr
  intro q hq
  simp only [decide_eq_true_eq, Function.comp_apply, beq_iff_eq]
  constructor
  · intro ht
    apply hs.refs.same_handle (List.mem_map_of_mem hq) (List.mem_map_of_mem hr)
    rw [hs.text q hq, hs.text r hr, ht]
  · intro hh
    rw [← hs.text q hq, ← hs.text r hr, hh]

omit [DecidableEq Client] in
theorem init_inv (hint : ℕ) (a : Alloc) : (init hint a : Sharing Client).Inv := by
  have hwf := SStrPool.init_wf SStrPool.start_wf hint a
  refine ⟨?_, fun r hr => by cases hr⟩
  simp only [init, List.map_nil]
  simp only [sstrPoolInit, SStrPool.start, Bool.false_eq_true, if_false] at hwf ⊢
  cases ht : (htCreate hint false false a : Except SmStatus (HashTable (KeyRef Handle Str) Handle))
    with
  | error st =>
    rw [ht] at hwf
    exact ⟨hwf, fun h => rfl, fun h => by simp, fun h => by simp [fresh_nodes],
      fun h hh => by cases hh⟩
  | ok t =>
    rw [ht] at hwf
    exact ⟨hwf, fun h => rfl, fun h => by simp, fun h => by simp [htCreate_ok ht, fresh_nodes],
      fun h hh => by cases hh⟩

theorem step_inv {s : Sharing Client} (hs : s.Inv) {op : RefOp Client} (hop : s.May op) :
    (s.step op).Inv := by
  obtain ⟨hholds, hfew⟩ := hop
  -- the texts under the handles held do not change
  have hkeep : ∀ {p' : SStrPool}, s.pool.Extends p' → ∀ r ∈ s.refs,
      (p'.cells r.handle).data = r.text := fun he r hr =>
    (he.data_eq _ (hs.refs.lt_next (List.mem_map_of_mem hr))).trans (hs.text r hr)
  cases op with
  | intern client text a =>
    have he := (strStep_keeps hs.refs.wf (.intern text a)).2
    simp only [strStep] at he
    rcases hs.refs.intern text a with ⟨st, -, hr⟩ | ⟨h, p', hr, hdata, hrefs⟩
    · simp only [step, hr]
      exact hs
    · simp only [step, hr] at hfew ⊢
      rw [hr] at he
      have htext : ∀ r ∈ (⟨client, text, h⟩ : Ref Client) :: s.refs,
          (p'.cells r.handle).data = r.text := fun r hm => by
        rcases List.mem_cons.mp hm with rfl | hm
        · exact hdata
        · exact hkeep he r hm
      exact ⟨hrefs (few_of (s := ⟨p', ⟨client, text, h⟩ :: s.refs⟩) htext hfew), htext⟩
  | retain r =>
    have hr : r ∈ s.refs := hholds
    have he := SStrPool.retain_extends s.pool (some r.handle)
    have htext : ∀ q ∈ r :: s.refs,
        ((sstrRetain s.pool (some r.handle)).cells q.handle).data = q.text := fun q hq => by
      rcases List.mem_cons.mp hq with rfl | hq
      · exact hkeep he q hr
      · exact hkeep he q hq
    exact ⟨hs.refs.retain (List.mem_map_of_mem hr)
      (few_of (s := ⟨sstrRetain s.pool (some r.handle), r :: s.refs⟩) htext hfew), htext⟩
  | release r =>
    have hr : r ∈ s.refs := hholds
    refine ⟨hs.refs.release ((List.perm_cons_erase hr).map Ref.handle), fun q hq => ?_⟩
    exact hkeep (SStrPool.release_extends s.pool (some r.handle)) q (List.mem_of_mem_erase hq)

/-- Handles of the entries of the pool under a text. -/
def entries (p : SStrPool) (text : Str) : List Handle :=
  (p.table.nodes.map HtNode.value).filter fun h => decide ((p.cells h).data = text)

omit [DecidableEq Client] in
theorem Inv.entries_held {s : Sharing Client} (hs : s.Inv) {r : Ref Client} (hr : r ∈ s.refs) :
    entries s.pool r.text = [r.handle] := by
  have hhandle : r.handle ∈ s.refs.map Ref.handle := List.mem_map_of_mem hr
  have hm : r.handle ∈ entries s.pool r.text :=
    List.mem_filter.mpr ⟨List.mem_map.mpr ((hs.refs.entry _).mp hhandle),
      decide_eq_true (hs.text r hr)⟩
  have hone : ∀ h ∈ entries s.pool r.text, h = r.handle := fun h hh => by
    obtain ⟨hv, ht⟩ := List.mem_filter.mp hh
    apply hs.refs.same_handle ((hs.refs.entry h).mpr (List.mem_map.mp hv)) hhandle
    rw [of_decide_eq_true ht, hs.text r hr]
  have hnodup : (entries s.pool r.text).Nodup :=
    (hs.refs.wf.index.distinct.imp fun hne he => hne (by rw [he])).filter _
  exact List.perm_singleton.mp ((List.perm_ext_iff_of_nodup hnodup (List.nodup_singleton _)).mpr
    fun h => ⟨fun hh => List.mem_singleton.mpr (hone h hh), fun hh => List.mem_singleton.mp hh ▸ hm⟩)

omit [DecidableEq Client] in
theorem Inv.entries_none {s : Sharing Client} (hs : s.Inv) {text : Str}
    (htext : ∀ r ∈ s.refs, r.text ≠ text) : entries s.pool text = [] := by
  apply List.filter_eq_nil_iff.mpr
  intro h hh ht
  obtain ⟨r, hr, rfl⟩ := List.mem_map.mp ((hs.refs.entry h).mpr (List.mem_map.mp hh))
  exact htext r hr ((hs.text r hr).symm.trans (of_decide_eq_true ht))

end Sharing

/-- In every state that clients reach, a text has one entry with its references
counted, or none when it has no references; all its holders have the same
handle, and no string is freed that is held. -/
theorem intern_pool_exact {Client : Type*} [DecidableEq Client] (hint : ℕ) (a : Alloc)
    (s : Sharing Client) (hs : Machine.Reach Sharing.step Sharing.May (Sharing.init hint a) s) :
    (∀ text, 0 < s.outstanding text → ∃ h, Sharing.entries s.pool text = [h] ∧
        (s.pool.cells h).data = text ∧ (s.pool.cells h).len = text.length ∧
        (s.pool.cells h).refcount.toNat = s.outstanding text ∧
        ∀ r ∈ s.refs, r.text = text → r.handle = h) ∧
      (∀ text, s.outstanding text = 0 → Sharing.entries s.pool text = []) ∧
      (∀ client text a st, (sstrIntern s.pool text a).1 = .error st →
        s.step (.intern client text a) = s) ∧
      ∀ r ∈ s.refs, (s.pool.cells r.handle).live = true := by
  have hinv : s.Inv := hs.invariant (Sharing.init_inv hint a) fun _ _ h ha => Sharing.step_inv h ha
  refine ⟨fun text hpos => ?_, fun text hzero => ?_, fun client text a st he => ?_, fun r hr => ?_⟩
  · obtain ⟨r, hr, ht⟩ := List.countP_pos_iff.mp hpos
    obtain rfl := of_decide_eq_true ht
    have hhandle : r.handle ∈ s.refs.map Ref.handle := List.mem_map_of_mem hr
    refine ⟨r.handle, hinv.entries_held hr, hinv.text r hr, ?_, ?_, fun q hq hqt => ?_⟩
    · rw [hinv.refs.len _ hhandle, hinv.text r hr]
    · rw [hinv.refs.count, hinv.outstanding_eq hr]
    · apply hinv.refs.same_handle (List.mem_map_of_mem hq) hhandle
      rw [hinv.text q hq, hinv.text r hr, hqt]
  · apply hinv.entries_none
    intro r hr ht
    exact absurd (decide_eq_true ht) (List.countP_eq_zero.mp hzero r hr)
  · rcases hinv.refs.intern text a with ⟨st', -, hr⟩ | ⟨h, p', hr, -⟩
    · simp only [Sharing.step, hr]
    · rw [hr] at he
      cases he
  · exact (hinv.refs.live _).mpr (List.mem_map_of_mem hr)

theorem intern_pool_exact_shared :
    let s := ((Sharing.init 16 Alloc.all : Sharing ℕ).step (.intern 1 (lit "A") Alloc.all)).step
      (.intern 2 (lit "A") Alloc.all)
    s.outstanding (lit "A") = 2 ∧ ∃ h, Sharing.entries s.pool (lit "A") = [h] ∧
      (s.pool.cells h).data = lit "A" ∧ (s.pool.cells h).len = (lit "A").length ∧
      (s.pool.cells h).refcount.toNat = s.outstanding (lit "A") ∧
      ∀ r ∈ s.refs, r.text = lit "A" → r.handle = h := by
  intro s
  have hmay : ∀ (s : Sharing ℕ) client,
      (s.step (.intern client (lit "A") Alloc.all)).refs.length < 2 ^ 32 →
      s.May (.intern client (lit "A") Alloc.all) := fun s client hlen =>
    ⟨trivial, fun text => Nat.lt_of_le_of_lt List.countP_le_length hlen⟩
  have hreach : Machine.Reach Sharing.step Sharing.May (Sharing.init 16 Alloc.all) s :=
    .step (.step .start (hmay _ _ (by decide +kernel))) (hmay _ _ (by decide +kernel))
  exact ⟨by decide +kernel, (intern_pool_exact 16 Alloc.all s hreach).1 _ (by decide +kernel)⟩

end SubscriberMgmt
