import SubscriberMgmt.HashTableMap

/-!
# Reference-counted string interning (`shared_string.c`)

A handle names one `sm_shared_string_t` on the heap. Addresses are not reused,
and a freed cell keeps its bytes, so that a use after free would be seen as a
use of a cell that is not `live`.
-/

namespace SubscriberMgmt

abbrev Handle := ℕ

/-- `sm_shared_string_t` -/
structure SharedString where
  data : Str
  len : ℕ
  refcount : UInt32
  live : Bool

/-- The global pool: `g_initialized`, `g_pool` and the heap of strings. Cells
from `next` on have not been allocated yet. -/
structure SStrPool where
  initialized : Bool
  table : HashTable (KeyRef Handle Str) Handle
  cells : Handle → SharedString
  next : Handle

def SStrPool.start : SStrPool := ⟨false, HashTable.fresh 5 false false, fun _ => ⟨[], 0, 0, false⟩, 0⟩

/-- `sm_hash_str` and `sm_streq` through the `data` pointers. -/
def SStrPool.ops (p : SStrPool) : KeyOps (KeyRef Handle Str) :=
  KeyRef.ops smHashStr fun h => (p.cells h).data

def sstrPoolInit (p : SStrPool) (initialCapacityHint : ℕ) (a : Alloc) : SmStatus × SStrPool :=
  if p.initialized then (.ok, p)
  else
    match htCreate initialCapacityHint false false a with
    | .error st => (st, p)
    | .ok t => (.ok, { p with table := t, initialized := true })

/-- `sstr_pool_shutdown`; the strings still in the table are leaked. -/
def sstrPoolShutdown (p : SStrPool) : SStrPool :=
  if p.initialized then { p with table := HashTable.fresh 5 false false, initialized := false }
  else p

def SStrPool.setCell (p : SStrPool) (h : Handle) (c : SharedString) : SStrPool :=
  { p with cells := Function.update p.cells h c }

def SStrPool.mallocString (p : SStrPool) (text : Str) : SStrPool :=
  { p.setCell p.next ⟨text, text.length, 1, true⟩ with next := p.next + 1 }

/-- `sstr_intern`; allocation 0 is the header, 1 the text, then those of
`ht_put`. On failure everything allocated is freed again. -/
def sstrIntern (p : SStrPool) (text : Str) (a : Alloc) : Except SmStatus Handle × SStrPool :=
  if !p.initialized then (.error .errInternal, p)
  else if text.length = 0 ∨ 255 < text.length then (.error .errInvalidArg, p)
  else
    match htGet p.ops p.table (.value text) with
    | .ok h =>
      let s := p.cells h
      (.ok h, p.setCell h { s with refcount := s.refcount + 1 })
    | .error _ =>
      if !a 0 then (.error .errAllocFailed, p)
      else if !a 1 then (.error .errAllocFailed, p)
      else
        let p1 := p.mallocString text
        match htPut p1.ops p.table (.field p.next) p.next false (a.skip 2) with
        | (.ok, t) => (.ok p.next, { p1 with table := t })
        | (st, _) => (.error st, p)

def sstrRetain (p : SStrPool) : Option Handle → SStrPool
  | none => p
  | some h =>
    let s := p.cells h
    p.setCell h { s with refcount := s.refcount + 1 }

def sstrRelease (p : SStrPool) : Option Handle → SStrPool
  | none => p
  | some h =>
    let s := p.cells h
    -- a count of zero is a double release: it is logged and undone
    if s.refcount = 0 then p
    else if s.refcount = 1 then
      let t := (htRemove p.ops p.table (.field h)).2
      { p.setCell h { s with refcount := 0, live := false } with table := t }
    else p.setCell h { s with refcount := s.refcount - 1 }

def sstrCstr (p : SStrPool) : Option Handle → Str
  | none => []
  | some h => (p.cells h).data

/-! ### What every operation of the pool keeps -/

/-- The table finds strings by their own text. -/
structure SStrPool.WF (p : SStrPool) : Prop where
  table : p.table.WF p.ops
  keys : ∀ n ∈ p.table.nodes, n.key = .field n.value
  alloc : ∀ n ∈ p.table.nodes, n.value < p.next

/-- Texts are immutable: `p'` is a later pool in which all handles of `p` read
the same. -/
structure SStrPool.Extends (p p' : SStrPool) : Prop where
  next_le : p.next ≤ p'.next
  data_eq : ∀ h < p.next, (p'.cells h).data = (p.cells h).data

namespace SStrPool

theorem Extends.refl (p : SStrPool) : p.Extends p := ⟨le_refl _, fun _ _ => rfl⟩

theorem Extends.trans {p q r : SStrPool} (h : p.Extends q) (h' : q.Extends r) : p.Extends r :=
  ⟨Nat.le_trans h.next_le h'.next_le, fun i hi =>
    (h'.data_eq i (lt_of_lt_of_le hi h.next_le)).trans (h.data_eq i hi)⟩

theorem lawful (p : SStrPool) : p.ops.Lawful := KeyRef.lawful _ _

theorem setCell_data (p : SStrPool) (h : Handle) (c : SharedString)
    (hc : c.data = (p.cells h).data) (i : Handle) :
    ((p.setCell h c).cells i).data = (p.cells i).data := by
  by_cases hi : i = h
  · subst hi
    simp [setCell, hc]
  · simp [setCell, Function.update_of_ne hi]

theorem setCell_ops (p : SStrPool) (h : Handle) (c : SharedString)
    (hc : c.data = (p.cells h).data) : (p.setCell h c).ops = p.ops := by
  simp only [ops, setCell_data p h c hc]

theorem setCell_wf {p : SStrPool} (hp : p.WF) (h : Handle) (c : SharedString)
    (hc : c.data = (p.cells h).data) : (p.setCell h c).WF :=
  ⟨by rw [setCell_ops p h c hc]; exact hp.table, hp.keys, hp.alloc⟩

theorem setCell_extends (p : SStrPool) (h : Handle) (c : SharedString)
    (hc : c.data = (p.cells h).data) : p.Extends (p.setCell h c) :=
  ⟨le_refl _, fun i _ => setCell_data p h c hc i⟩

theorem mallocString_extends (p : SStrPool) (text : Str) : p.Extends (p.mallocString text) := by
  refine ⟨Nat.le_succ _, fun h hh => ?_⟩
  simp [mallocString, setCell, Function.update_of_ne (Nat.ne_of_lt hh)]

theorem table_extends {p p' : SStrPool} (hp : p.WF) (he : p.Extends p') :
    p.table.WF p'.ops := by
  have hload : ∀ n ∈ p.table.nodes, n.key.load (fun h => (p'.cells h).data) =
      n.key.load fun h => (p.cells h).data := by
    intro n hn
    rw [hp.keys n hn]
    exact he.data_eq _ (hp.alloc n hn)
  refine hp.table.congr (fun n hn => ?_) fun n hn m hm => ?_
  · simp only [ops, KeyRef.ops, hload n hn]
  · simp only [ops, KeyRef.ops, hload n hn, hload m hm]

theorem start_wf : start.WF :=
  ⟨fresh_wf _ (by decide) _ _, by simp [start, fresh_nodes], by simp [start, fresh_nodes]⟩

theorem init_wf {p : SStrPool} (hp : p.WF) (hint : ℕ) (a : Alloc) :
    (sstrPoolInit p hint a).2.WF := by
  unfold sstrPoolInit
  split
  · exact hp
  · split
    · exact hp
    · rename_i t ht
      have htf := htCreate_ok ht
      subst htf
      exact ⟨fresh_wf _ (nextPrime_pos _) _ _, by simp [fresh_nodes], by simp [fresh_nodes]⟩

theorem init_extends (p : SStrPool) (hint : ℕ) (a : Alloc) :
    p.Extends (sstrPoolInit p hint a).2 := by
  unfold sstrPoolInit
  split
  · exact Extends.refl p
  · split
    · exact Extends.refl p
    · exact ⟨le_refl _, fun _ _ => rfl⟩

theorem shutdown_wf {p : SStrPool} (hp : p.WF) : (sstrPoolShutdown p).WF := by
  unfold sstrPoolShutdown
  split
  · exact ⟨fresh_wf _ (by decide) _ _, by simp [fresh_nodes], by simp [fresh_nodes]⟩
  · exact hp

theorem shutdown_extends (p : SStrPool) : p.Extends (sstrPoolShutdown p) := by
  unfold sstrPoolShutdown
  split
  · exact ⟨le_refl _, fun _ _ => rfl⟩
  · exact Extends.refl p

theorem retain_wf {p : SStrPool} (hp : p.WF) (h : Option Handle) : (sstrRetain p h).WF := by
  cases h with
  | none => exact hp
  | some h => exact setCell_wf hp h _ rfl

theorem retain_extends (p : SStrPool) (h : Option Handle) : p.Extends (sstrRetain p h) := by
  cases h with
  | none => exact Extends.refl p
  | some h => exact setCell_extends p h _ rfl

theorem release_wf {p : SStrPool} (hp : p.WF) (h : Option Handle) : (sstrRelease p h).WF := by
  cases h with
  | none => exact hp
  | some h =>
    simp only [sstrRelease]
    split
    · exact hp
    · split
      · have hcase := htRemove_cases p.lawful hp.table (.field h)
        generalize htRemove p.ops p.table (.field h) = r at hcase ⊢
        obtain ⟨st, t⟩ := r
        have hops : (p.setCell h { p.cells h with refcount := 0, live := false }).ops = p.ops :=
          setCell_ops p h _ rfl
        cases hcase with
        | missing => exact setCell_wf hp h _ rfl
        | removed heq hold hwf =>
          refine ⟨?_, fun n hn => ?_, fun n hn => ?_⟩
          · have : t.WF (p.setCell h { p.cells h with refcount := 0, live := false }).ops := by
              rw [hops]
              exact hwf
            exact this
          · exact hp.keys n (hold.mem_iff.mpr (List.mem_cons_of_mem _ hn))
          · exact hp.alloc n (hold.mem_iff.mpr (List.mem_cons_of_mem _ hn))
      · exact setCell_wf hp h _ rfl

theorem release_extends (p : SStrPool) (h : Option Handle) : p.Extends (sstrRelease p h) := by
  cases h with
  | none => exact Extends.refl p
  | some h =>
    simp only [sstrRelease]
    split
    · exact Extends.refl p
    · split
      · have he : p.Extends (p.setCell h { p.cells h with refcount := 0, live := false }) :=
          setCell_extends p h _ rfl
        exact ⟨he.next_le, he.data_eq⟩
      · exact setCell_extends p h _ rfl

theorem intern_spec {p : SStrPool} (hp : p.WF) (text : Str) (a : Alloc) :
    (∃ st, st ≠ .ok ∧ sstrIntern p text a = (.error st, p)) ∨
    ∃ h p', sstrIntern p text a = (.ok h, p') ∧ p'.WF ∧ p.Extends p' ∧ h < p'.next ∧
      (p'.cells h).data = text ∧ p'.initialized = p.initialized := by
  unfold sstrIntern
  split
  · exact Or.inl ⟨_, by decide, rfl⟩
  · split
    · exact Or.inl ⟨_, by decide, rfl⟩
    · cases hg : htGet p.ops p.table (.value text) with
      | ok h =>
        obtain ⟨n, hn, heq, rfl⟩ := htGet_ok hp.table hg
        have hdata : (p.cells n.value).data = text := by
          have hl := KeyRef.ops_eq_iff.mp heq
          rwa [hp.keys n hn] at hl
        refine Or.inr ⟨_, _, rfl, setCell_wf hp _ _ rfl, setCell_extends p _ _ rfl,
          hp.alloc n hn, ?_, rfl⟩
        refine (setCell_data p _ _ ?_ _).trans hdata
        rfl
      | error e =>
        have habs := (htGet_error p.lawful hp.table hg).2
        dsimp only
        split
        · exact Or.inl ⟨_, by decide, rfl⟩
        · split
          · exact Or.inl ⟨_, by decide, rfl⟩
          · have he := mallocString_extends p text
            have hwf := table_extends hp he
            have hcase := htPut_cases (p.mallocString text).lawful hwf (.field p.next) p.next
              false (a.skip 2)
            generalize htPut (p.mallocString text).ops p.table (.field p.next) p.next false
              (a.skip 2) = r at hcase ⊢
            obtain ⟨st, t⟩ := r
            cases hcase with
            | duplicate => exact Or.inl ⟨_, by decide, rfl⟩
            | allocFailed => exact Or.inl ⟨_, by decide, rfl⟩
            | replaced _ _ _ hrep => cases hrep
            | inserted _ _ hnew hwf' =>
              have hmem : ∀ n ∈ t.nodes, n = ⟨.field p.next, p.next,
                  (p.mallocString text).ops.hash (.field p.next)⟩ ∨ n ∈ p.table.nodes :=
                fun n hn => List.mem_cons.mp (hnew.mem_iff.mp hn)
              refine Or.inr ⟨_, _, rfl, ⟨hwf', fun n hn => ?_, fun n hn => ?_⟩,
                ⟨he.next_le, he.data_eq⟩, Nat.lt_succ_self _, ?_, rfl⟩
              · rcases hmem n hn with rfl | hn
                · rfl
                · exact hp.keys n hn
              · rcases hmem n hn with rfl | hn
                · exact Nat.lt_succ_self _
                · exact Nat.lt_succ_of_lt (hp.alloc n hn)
              · simp [mallocString, setCell]

theorem intern_all {p : SStrPool} (hp : p.WF) (hi : p.initialized = true) {text : Str}
    (hpos : 0 < text.length) (hlen : text.length ≤ 255) {a : Alloc} (ha : ∀ i < 4, a i = true) :
    ∃ h, (sstrIntern p text a).1 = .ok h := by
  unfold sstrIntern
  have hl : ¬ (text.length = 0 ∨ 255 < text.length) := by omega
  simp only [hi, Bool.not_true, Bool.false_eq_true, if_false, hl, ha 0 (by decide),
    ha 1 (by decide)]
  cases hg : htGet p.ops p.table (.value text) with
  | ok h => exact ⟨h, rfl⟩
  | error e =>
    have habs := (htGet_error p.lawful hp.table hg).2
    have he := mallocString_extends p text
    have hcase := htPut_cases (p.mallocString text).lawful (table_extends hp he)
      (.field p.next) p.next false (a.skip 2)
    dsimp only
    generalize htPut (p.mallocString text).ops p.table (.field p.next) p.next false (a.skip 2) = r
      at hcase ⊢
    obtain ⟨st, t⟩ := r
    cases hcase with
    | @duplicate n hmem heq =>
      have hl := KeyRef.ops_eq_iff.mp heq
      have hno := KeyRef.ops_eq_false.mp (habs n hmem)
      rw [hp.keys n hmem] at hl hno
      simp only [KeyRef.load] at hl hno
      rw [he.data_eq _ (hp.alloc n hmem)] at hl
      simp [mallocString, setCell] at hl
      exact absurd hl hno
    | allocFailed _ h2 =>
      have h2' : a.skip 2 0 = true := ha 2 (by decide)
      rw [h2'] at h2
      cases h2
    | replaced _ _ _ hrep => cases hrep
    | inserted => exact ⟨_, rfl⟩

/-! ### One call on the pool -/

def TextIs (p : SStrPool) (h : Option Handle) (text : Str) : Prop :=
  ∃ i, h = some i ∧ i < p.next ∧ (p.cells i).data = text

theorem TextIs.mono {p p' : SStrPool} {h : Option Handle} {text : Str} (ht : p.TextIs h text)
    (he : p.Extends p') : p'.TextIs h text := by
  obtain ⟨i, rfl, hi, hd⟩ := ht
  exact ⟨i, rfl, lt_of_lt_of_le hi he.next_le, (he.data_eq i hi).trans hd⟩

theorem TextIs.cstr {p : SStrPool} {h : Option Handle} {text : Str} (ht : p.TextIs h text) :
    sstrCstr p h = text := by
  obtain ⟨i, rfl, -, hd⟩ := ht
  exact hd

end SStrPool

inductive StrOp where
  | init (initialCapacityHint : ℕ) (a : Alloc)
  | shutdown
  | intern (text : Str) (a : Alloc)
  | retain (h : Option Handle)
  | release (h : Option Handle)

def strStep (p : SStrPool) : StrOp → SStrPool
  | .init hint a => (sstrPoolInit p hint a).2
  | .shutdown => sstrPoolShutdown p
  | .intern text a => (sstrIntern p text a).2
  | .retain h => sstrRetain p h
  | .release h => sstrRelease p h

theorem strStep_keeps {p : SStrPool} (hp : p.WF) (op : StrOp) :
    (strStep p op).WF ∧ p.Extends (strStep p op) := by
  cases op with
  | init hint a => exact ⟨SStrPool.init_wf hp hint a, SStrPool.init_extends p hint a⟩
  | shutdown => exact ⟨SStrPool.shutdown_wf hp, SStrPool.shutdown_extends p⟩
  | intern text a =>
    simp only [strStep]
    rcases SStrPool.intern_spec hp text a with ⟨st, -, he⟩ | ⟨h, p', he, hwf, hext, -⟩
    · rw [he]
      exact ⟨hp, SStrPool.Extends.refl p⟩
    · rw [he]
      exact ⟨hwf, hext⟩
  | retain h => exact ⟨SStrPool.retain_wf hp h, SStrPool.retain_extends p h⟩
  | release h => exact ⟨SStrPool.release_wf hp h, SStrPool.release_extends p h⟩

end SubscriberMgmt
