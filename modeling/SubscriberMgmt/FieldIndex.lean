import SubscriberMgmt.HashTableMap

/-!
# Tables that index objects by one of their fields

The keys of such a table are pointers into the objects that are its values.
The object at `p` has the key `read p` in memory as it is now, so that a table
is correct only together with the memory behind its keys.
-/

namespace SubscriberMgmt

variable {P A : Type*} [DecidableEq A]

/-- `t` indexes exactly the objects `live`, each under its own field. -/
structure Indexes (hash : A → UInt64) (read : P → A) (t : HashTable (KeyRef P A) P)
    (live : List P) : Prop where
  wf : t.WF (KeyRef.ops hash read)
  own : ∀ n ∈ t.nodes, n.key = .field n.value
  values : (t.nodes.map HtNode.value).Perm live

namespace Indexes

variable {hash : A → UInt64} {read : P → A} {t : HashTable (KeyRef P A) P} {live : List P}

theorem empty (hash : A → UInt64) (read : P → A) {c : ℕ} (hc : 0 < c) (fk fv : Bool) :
    Indexes hash read (HashTable.fresh c fk fv) [] :=
  ⟨fresh_wf _ hc _ _, by simp [fresh_nodes], by simp [fresh_nodes]⟩

theorem perm (h : Indexes hash read t live) {live' : List P} (hp : live.Perm live') :
    Indexes hash read t live' := ⟨h.wf, h.own, h.values.trans hp⟩

theorem count (h : Indexes hash read t live) : t.count = live.length := by
  rw [h.wf.counted, ← h.values.length_eq, List.length_map]

theorem mem_iff (h : Indexes hash read t live) {p : P} :
    p ∈ live ↔ ∃ n ∈ t.nodes, n.value = p := by
  rw [← h.values.mem_iff, List.mem_map]

theorem load_key (h : Indexes hash read t live) {n : HtNode (KeyRef P A) P} (hn : n ∈ t.nodes) :
    n.key.load read = read n.value := by
  rw [h.own n hn]
  rfl

theorem distinct (h : Indexes hash read t live) :
    live.Pairwise fun p q => read p ≠ read q := by
  have hsymm : ∀ {p q : P}, read p ≠ read q → read q ≠ read p := fun hpq => Ne.symm hpq
  refine (h.values.pairwise_iff hsymm).mp (List.pairwise_map.mpr ?_)
  refine h.wf.keyed.imp_of_mem fun {n m} hn hm hnm => ?_
  have hne := KeyRef.ops_eq_false.mp hnm
  rwa [h.load_key hn, h.load_key hm] at hne

theorem inj (h : Indexes hash read t live) {p q : P} (hp : p ∈ live) (hq : q ∈ live)
    (hpq : read p = read q) : p = q := by
  obtain ⟨n, hn, rfl⟩ := h.mem_iff.mp hp
  obtain ⟨m, hm, rfl⟩ := h.mem_iff.mp hq
  have he : (KeyRef.ops hash read).eq n.key m.key = true :=
    KeyRef.ops_eq_iff.mpr (by rw [h.load_key hn, h.load_key hm, hpq])
  rw [node_unique (KeyRef.lawful _ _) h.wf hn hm he]

theorem get_ok_iff (h : Indexes hash read t live) {k : A} {p : P} :
    htGet (KeyRef.ops hash read) t (.value k) = .ok p ↔ p ∈ live ∧ read p = k := by
  constructor
  · intro hg
    obtain ⟨n, hn, he, rfl⟩ := htGet_ok h.wf hg
    have hl := KeyRef.ops_eq_iff.mp he
    rw [h.load_key hn] at hl
    exact ⟨h.mem_iff.mpr ⟨n, hn, rfl⟩, hl⟩
  · intro h
    obtain ⟨hp, hk⟩ := h
    obtain ⟨n, hn, rfl⟩ := h.mem_iff.mp hp
    refine htGet_of_mem (KeyRef.lawful _ _) h.wf hn (KeyRef.ops_eq_iff.mpr ?_)
    rw [h.load_key hn, hk]
    rfl

theorem get_error_iff (h : Indexes hash read t live) {k : A} {e : SmStatus} :
    htGet (KeyRef.ops hash read) t (.value k) = .error e ↔
      e = .errNotFound ∧ ∀ p ∈ live, read p ≠ k := by
  constructor
  · intro hg
    have he := (htGet_error (KeyRef.lawful _ _) h.wf hg).1
    refine ⟨he, fun p hp hk => ?_⟩
    rw [h.get_ok_iff.mpr ⟨hp, hk⟩] at hg
    cases hg
  · intro h
    obtain ⟨rfl, habs⟩ := h
    cases hg : htGet (KeyRef.ops hash read) t (.value k) with
    | error e => rw [(htGet_error (KeyRef.lawful _ _) h.wf hg).1]
    | ok p => exact absurd (h.get_ok_iff.mp hg).2 (habs p (h.get_ok_iff.mp hg).1)

theorem put (h : Indexes hash read t live) {p : P} (habs : ∀ q ∈ live, read q ≠ read p)
    (a : Alloc) :
    (a 0 = false ∧ htPut (KeyRef.ops hash read) t (.field p) p false a = (.errAllocFailed, t)) ∨
    (a 0 = true ∧ ∃ t', htPut (KeyRef.ops hash read) t (.field p) p false a = (.ok, t') ∧
      Indexes hash read t' (p :: live)) := by
  have hcase := htPut_cases (KeyRef.lawful hash read) h.wf (.field p) p false a
  generalize htPut (KeyRef.ops hash read) t (.field p) p false a = r at hcase ⊢
  obtain ⟨st, t'⟩ := r
  cases hcase with
  | duplicate hmem heq =>
    have hl := KeyRef.ops_eq_iff.mp heq
    rw [h.load_key hmem] at hl
    exact absurd hl (habs _ (h.mem_iff.mpr ⟨_, hmem, rfl⟩))
  | replaced _ _ _ hrep => cases hrep
  | allocFailed _ ha => exact Or.inl ⟨ha, rfl⟩
  | inserted _ ha hnew hwf =>
    refine Or.inr ⟨ha, t', rfl, hwf, fun n hn => ?_, ?_⟩
    · rcases List.mem_cons.mp (hnew.mem_iff.mp hn) with rfl | hn
      · rfl
      · exact h.own n hn
    · exact (hnew.map HtNode.value).trans (h.values.cons p)

theorem remove (h : Indexes hash read t live) {p : P} {rest : List P}
    (hp : live.Perm (p :: rest)) :
    ∃ t', htRemove (KeyRef.ops hash read) t (.field p) = (.ok, t') ∧
      Indexes hash read t' rest := by
  have hlive : p ∈ live := hp.mem_iff.mpr (List.mem_cons_self ..)
  have hcase := htRemove_cases (KeyRef.lawful hash read) h.wf (.field p)
  generalize htRemove (KeyRef.ops hash read) t (.field p) = r at hcase ⊢
  obtain ⟨st, t'⟩ := r
  cases hcase with
  | missing habs =>
    obtain ⟨n, hn, rfl⟩ := h.mem_iff.mp hlive
    have hne := KeyRef.ops_eq_false.mp (habs n hn)
    rw [h.load_key hn] at hne
    exact absurd rfl hne
  | @removed n t' heq hold hwf =>
    have hn : n ∈ t.nodes := hold.mem_iff.mpr (List.mem_cons_self ..)
    have hl := KeyRef.ops_eq_iff.mp heq
    rw [h.load_key hn] at hl
    have hnp : n.value = p := h.inj (h.mem_iff.mpr ⟨n, hn, rfl⟩) hlive hl
    refine ⟨t', rfl, hwf, fun m hm => h.own m (hold.mem_iff.mpr (List.mem_cons_of_mem _ hm)), ?_⟩
    have hv := (hold.map HtNode.value).symm.trans (h.values.trans hp)
    rw [List.map_cons, hnp] at hv
    exact (List.perm_cons p).mp hv

theorem remove_absent (h : Indexes hash read t live) {p : P}
    (habs : ∀ q ∈ live, read q ≠ read p) :
    htRemove (KeyRef.ops hash read) t (.field p) = (.errNotFound, t) := by
  have hcase := htRemove_cases (KeyRef.lawful hash read) h.wf (.field p)
  generalize htRemove (KeyRef.ops hash read) t (.field p) = r at hcase ⊢
  obtain ⟨st, t'⟩ := r
  cases hcase with
  | missing _ => rfl
  | @removed n _ heq hold _ =>
    have hn : n ∈ t.nodes := hold.mem_iff.mpr (List.mem_cons_self ..)
    have hl := KeyRef.ops_eq_iff.mp heq
    rw [h.load_key hn] at hl
    exact absurd hl (habs _ (h.mem_iff.mpr ⟨n, hn, rfl⟩))

theorem congr (h : Indexes hash read t live) {read' : P → A}
    (hread : ∀ p ∈ live, read' p = read p) : Indexes hash read' t live := by
  have hload : ∀ n ∈ t.nodes, n.key.load read' = n.key.load read := by
    intro n hn
    rw [h.own n hn]
    exact hread _ (h.mem_iff.mpr ⟨n, hn, rfl⟩)
  refine ⟨h.wf.congr (fun n hn => ?_) fun n hn m hm => ?_, h.own, h.values⟩
  · simp only [KeyRef.ops, hload n hn]
  · simp only [KeyRef.ops, hload n hn, hload m hm]

end Indexes

end SubscriberMgmt
