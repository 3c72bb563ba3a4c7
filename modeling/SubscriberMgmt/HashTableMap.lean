import SubscriberMgmt.HashTable
import SubscriberMgmt.Lib.Machine
import Mathlib.Data.Nat.Basic

/-!
# The hash table is a finite map

The invariant of a table, what each operation of `hash_table.c` does to its
nodes, and the refinement of runs of the table by runs of a finite map.
-/

namespace SubscriberMgmt
open ListKit

variable {K V σ : Type*}

/-! ### The invariant -/

/-- A table between two calls: each node is on the chain that its cached hash
selects, the cached hash is the hash of the key, equal keys occur once, and
`count` is the number of nodes. -/
structure HashTable.WF (ops : KeyOps K) (t : HashTable K V) : Prop where
  cap_pos : 0 < t.capacity
  placed : ∀ i < t.capacity, ∀ n ∈ t.buckets i, n.hash.toNat % t.capacity = i
  hashed : ∀ n ∈ t.nodes, n.hash = ops.hash n.key
  keyed : t.nodes.Pairwise fun a b => ops.eq a.key b.key = false
  counted : t.count = t.nodes.length

def HashTable.entries (t : HashTable K V) : List (K × V) := t.nodes.map fun n => (n.key, n.value)

theorem mem_bucket {ops : KeyOps K} {t : HashTable K V} (h : t.WF ops) {n : HtNode K V}
    (hn : n ∈ t.nodes) : n ∈ t.buckets (n.hash.toNat % t.capacity) := by
  obtain ⟨i, hi, hni⟩ := mem_chains.mp hn
  rwa [h.placed i hi n hni]

theorem slot_lt {ops : KeyOps K} {t : HashTable K V} (h : t.WF ops) (key : K) :
    t.slot ops key < t.capacity := Nat.mod_lt _ h.cap_pos

theorem lookup_some {ops : KeyOps K} {t : HashTable K V} (h : t.WF ops) {key : K}
    {n : HtNode K V} (hl : t.lookup ops key = some n) :
    n ∈ t.nodes ∧ ops.eq n.key key = true := by
  have hmem := List.mem_of_find?_eq_some hl
  have hhit := List.find?_some hl
  simp only [HtNode.hits, Bool.and_eq_true] at hhit
  exact ⟨mem_chains.mpr ⟨_, slot_lt h key, hmem⟩, hhit.2⟩

theorem lookup_none {ops : KeyOps K} (hops : ops.Lawful) {t : HashTable K V} (h : t.WF ops)
    {key : K} (hl : t.lookup ops key = none) : ∀ n ∈ t.nodes, ops.eq n.key key = false := by
  intro n hn
  by_contra hc
  have heq : ops.eq n.key key = true := by simpa using hc
  have hhash : n.hash = ops.hash key := (h.hashed n hn).trans (hops.hash_eq _ _ heq)
  have hmem : n ∈ t.buckets (t.slot ops key) := by
    have hb := mem_bucket h hn
    rwa [hhash] at hb
  have hno := List.find?_eq_none.mp hl n hmem
  simp [HtNode.hits, hhash, heq] at hno

theorem node_unique {ops : KeyOps K} (hops : ops.Lawful) {t : HashTable K V} (h : t.WF ops)
    {n m : HtNode K V} (hn : n ∈ t.nodes) (hm : m ∈ t.nodes) (he : ops.eq n.key m.key = true) :
    n = m := by
  by_contra hne
  have hsymm : Std.Symm fun a b : HtNode K V => ops.eq a.key b.key = false :=
    ⟨fun a b hab => by rw [KeyMap.eq_comm hops]; exact hab⟩
  have hd := h.keyed.forall hn hm hne
  simp [he] at hd

/-! ### Resize -/

theorem relink_chains {m : ℕ} (hm : 0 < m) (l : List (HtNode K V)) (b : ℕ → List (HtNode K V)) :
    (chains m (l.foldl (relink m) b)).Perm (l ++ chains m b) := by
  induction l generalizing b with
  | nil => exact List.Perm.refl _
  | cons n l ih =>
    have hpush := chains_push (Nat.mod_lt n.hash.toNat hm) b n
    have hrec := ih (relink m b n)
    exact hrec.trans ((hpush.append_left l).trans List.perm_middle)

theorem relink_nodes {m : ℕ} (hm : 0 < m) (l : List (HtNode K V)) :
    (chains m (l.foldl (relink m) fun _ => [])).Perm l := by
  have hr := relink_chains hm l fun _ => []
  rwa [chains_nil, List.append_nil] at hr

theorem relink_placed {m : ℕ} (l : List (HtNode K V)) (b : ℕ → List (HtNode K V))
    (hb : ∀ i, ∀ n ∈ b i, n.hash.toNat % m = i) :
    ∀ i, ∀ n ∈ l.foldl (relink m) b i, n.hash.toNat % m = i := by
  induction l generalizing b with
  | nil => exact hb
  | cons x l ih =>
    apply ih (relink m b x)
    intro i n hn
    by_cases hi : i = x.hash.toNat % m
    · subst hi
      simp only [relink, Function.update_self, List.mem_cons] at hn
      rcases hn with rfl | hn
      · rfl
      · exact hb _ n hn
    · simp only [relink, Function.update_of_ne hi] at hn
      exact hb i n hn

theorem resizeLocked_spec {ops : KeyOps K} (hops : ops.Lawful) {t : HashTable K V}
    (h : t.WF ops) (hint : ℕ) (a : Alloc) :
    (resizeLocked t hint a).2.nodes.Perm t.nodes ∧ (resizeLocked t hint a).2.WF ops := by
  unfold resizeLocked
  cases ha : a 0 with
  | false => exact ⟨List.Perm.refl _, h⟩
  | true =>
    simp only [Bool.not_true, Bool.false_eq_true, if_false]
    have hpos := nextPrime_pos hint
    have hperm : (chains (nextPrime hint)
        (t.nodes.foldl (relink (nextPrime hint)) fun _ => [])).Perm t.nodes :=
      relink_nodes hpos t.nodes
    refine ⟨hperm, hpos, fun i _ => relink_placed t.nodes _ (by simp) i, ?_, ?_, ?_⟩
    · intro n hn
      exact h.hashed n (hperm.mem_iff.mp hn)
    · refine (hperm.pairwise_iff fun {a b} hab => ?_).mpr h.keyed
      rw [KeyMap.eq_comm hops]
      exact hab
    · exact h.counted.trans hperm.length_eq.symm

/-! ### One chain edited -/

theorem placed_update {m i : ℕ} {b : ℕ → List (HtNode K V)} {l : List (HtNode K V)}
    (h : ∀ j < m, ∀ n ∈ b j, n.hash.toNat % m = j) (hl : ∀ n ∈ l, n.hash.toNat % m = i) :
    ∀ j < m, ∀ n ∈ Function.update b i l j, n.hash.toNat % m = j := by
  intro j hj n hn
  by_cases hji : j = i
  · subst hji
    rw [Function.update_self] at hn
    exact hl n hn
  · rw [Function.update_of_ne hji] at hn
    exact h j hj n hn

theorem wf_update {ops : KeyOps K} (hops : ops.Lawful) {t t' : HashTable K V} (h : t.WF ops)
    {i : ℕ} {l : List (HtNode K V)} (hcap : t'.capacity = t.capacity)
    (hb : t'.buckets = Function.update t.buckets i l)
    (hl : ∀ n ∈ l, n.hash.toNat % t.capacity = i) {ns : List (HtNode K V)}
    (hperm : t'.nodes.Perm ns) (hhash : ∀ n ∈ ns, n.hash = ops.hash n.key)
    (hkeyed : ns.Pairwise fun a b => ops.eq a.key b.key = false)
    (hcount : t'.count = ns.length) : t'.WF ops := by
  refine ⟨hcap ▸ h.cap_pos, ?_, ?_, ?_, ?_⟩
  · rw [hcap, hb]
    exact placed_update h.placed hl
  · exact fun n hn => hhash n (hperm.mem_iff.mp hn)
  · refine (hperm.pairwise_iff fun {a b} hab => ?_).mpr hkeyed
    rw [KeyMap.eq_comm hops]
    exact hab
  · exact hcount.trans hperm.length_eq.symm

/-! ### What the operations do -/

inductive PutCase (ops : KeyOps K) (t : HashTable K V) (key : K) (value : V) (replace : Bool)
    (a : Alloc) : SmStatus → HashTable K V → Prop
  | duplicate {n : HtNode K V} (hmem : n ∈ t.nodes) (heq : ops.eq n.key key = true)
      (hrep : replace = false) : PutCase ops t key value replace a .errDuplicate t
  | replaced {n : HtNode K V} {rest : List (HtNode K V)} {newKey : K} {t' : HashTable K V}
      (hold : t.nodes.Perm (n :: rest)) (heq : ops.eq n.key key = true)
      (hkey : newKey = n.key ∨ newKey = key) (hrep : replace = true)
      (hnew : t'.nodes.Perm (⟨newKey, value, n.hash⟩ :: rest)) (hwf : t'.WF ops) :
      PutCase ops t key value replace a .ok t'
  | allocFailed (habs : ∀ n ∈ t.nodes, ops.eq n.key key = false) (ha : a 0 = false) :
      PutCase ops t key value replace a .errAllocFailed t
  | inserted {t' : HashTable K V} (habs : ∀ n ∈ t.nodes, ops.eq n.key key = false)
      (ha : a 0 = true) (hnew : t'.nodes.Perm (⟨key, value, ops.hash key⟩ :: t.nodes))
      (hwf : t'.WF ops) : PutCase ops t key value replace a .ok t'

theorem overwrite_spec {ops : KeyOps K} (hops : ops.Lawful) {t : HashTable K V} (h : t.WF ops)
    {key : K} {n : HtNode K V} (hl : t.lookup ops key = some n) (value : V) :
    ∃ rest newKey, t.nodes.Perm (n :: rest) ∧ (newKey = n.key ∨ newKey = key) ∧
      (t.overwrite ops key value n).nodes.Perm (⟨newKey, value, n.hash⟩ :: rest) ∧
      (t.overwrite ops key value n).WF ops := by
  obtain ⟨hmem, heq⟩ := lookup_some h hl
  have hslot := slot_lt h key
  obtain ⟨rest, hrest⟩ : ∃ rest, t.nodes.Perm (n :: rest) := by
    classical
    exact ⟨_, List.perm_cons_erase hmem⟩
  set newKey := if t.freeKeyFn then n.key else key with hnk
  have hkey : newKey = n.key ∨ newKey = key := by
    rw [hnk]
    cases t.freeKeyFn <;> simp
  have heqNew : ops.eq newKey n.key = true := by
    rcases hkey with hk | hk
    · rw [hk]
      exact hops.refl _
    · rw [hk]
      exact hops.symm _ _ heq
  obtain ⟨r, hr, hr'⟩ := updateFirst_perm (fun m : HtNode K V => ⟨newKey, value, m.hash⟩) hl
  have hex := chains_exchange hslot t.buckets hr (s := [⟨newKey, value, n.hash⟩]) hr'
  have hnew : (t.overwrite ops key value n).nodes.Perm (⟨newKey, value, n.hash⟩ :: rest) := by
    have hx := hex.trans (hrest.append_left [⟨newKey, value, n.hash⟩])
    exact (List.perm_cons n).mp (hx.trans (List.Perm.swap _ _ _))
  have hkeyed := (hrest.pairwise_iff fun {a b} hab => by
    rw [KeyMap.eq_comm hops]; exact hab).mp h.keyed
  obtain ⟨hhead, htail⟩ := List.pairwise_cons.mp hkeyed
  refine ⟨rest, newKey, hrest, hkey, hnew, wf_update hops h rfl rfl ?_ hnew ?_ ?_ ?_⟩
  · intro m hm
    rcases mem_updateFirst hm with hm | ⟨m', hm', -, rfl⟩
    · exact h.placed _ hslot m hm
    · exact h.placed _ hslot m' hm'
  · intro m hm
    rcases List.mem_cons.mp hm with rfl | hm
    · exact (h.hashed n hmem).trans (hops.hash_eq _ _ (hops.symm _ _ heqNew))
    · exact h.hashed m (hrest.mem_iff.mpr (List.mem_cons_of_mem _ hm))
  · refine List.pairwise_cons.mpr ⟨fun m hm => ?_, htail⟩
    rw [KeyMap.eq_comm hops, KeyMap.eq_congr_right hops heqNew, KeyMap.eq_comm hops]
    exact hhead m hm
  · have hc : (t.overwrite ops key value n).count = t.count := rfl
    rw [hc, h.counted, hrest.length_eq, List.length_cons, List.length_cons]

theorem push_spec {ops : KeyOps K} (hops : ops.Lawful) {t : HashTable K V} (h : t.WF ops)
    {key : K} (habs : ∀ n ∈ t.nodes, ops.eq n.key key = false) (value : V) :
    (t.push ops key value).nodes.Perm (⟨key, value, ops.hash key⟩ :: t.nodes) ∧
      (t.push ops key value).WF ops := by
  have hslot := slot_lt h key
  have hperm : (t.push ops key value).nodes.Perm (⟨key, value, ops.hash key⟩ :: t.nodes) :=
    chains_push hslot t.buckets _
  refine ⟨hperm, wf_update hops h rfl rfl ?_ hperm ?_ ?_ ?_⟩
  · intro n hn
    rcases List.mem_cons.mp hn with rfl | hn
    · rfl
    · exact h.placed _ hslot n hn
  · intro n hn
    rcases List.mem_cons.mp hn with rfl | hn
    · rfl
    · exact h.hashed n hn
  · refine List.pairwise_cons.mpr ⟨fun n hn => ?_, h.keyed⟩
    rw [KeyMap.eq_comm hops]
    exact habs n hn
  · have hc : (t.push ops key value).count = t.count + 1 := rfl
    rw [hc, h.counted, List.length_cons]

theorem htPut_cases {ops : KeyOps K} (hops : ops.Lawful) {t : HashTable K V} (h : t.WF ops)
    (key : K) (value : V) (replace : Bool) (a : Alloc) :
    PutCase ops t key value replace a (htPut ops t key value replace a).1
      (htPut ops t key value replace a).2 := by
  unfold htPut
  cases hl : t.lookup ops key with
  | some n =>
    obtain ⟨hmem, heq⟩ := lookup_some h hl
    cases hrep : replace with
    | false => exact .duplicate hmem heq rfl
    | true =>
      obtain ⟨rest, newKey, hold, hkey, hnew, hwf⟩ := overwrite_spec hops h hl value
      exact .replaced hold heq hkey rfl hnew hwf
  | none =>
    have habs := lookup_none hops h hl
    cases ha : a 0 with
    | false => exact .allocFailed habs ha
    | true =>
      obtain ⟨hp1, hwf1⟩ := push_spec hops h habs value
      simp only [Bool.not_true, Bool.false_eq_true, if_false]
      split
      · obtain ⟨hp2, hwf2⟩ := resizeLocked_spec hops hwf1 _ (a.skip 1)
        exact .inserted habs ha (hp2.trans hp1) hwf2
      · exact .inserted habs ha hp1 hwf1

inductive RemoveCase (ops : KeyOps K) (t : HashTable K V) (key : K) :
    SmStatus → HashTable K V → Prop
  | missing (habs : ∀ n ∈ t.nodes, ops.eq n.key key = false) :
      RemoveCase ops t key .errNotFound t
  | removed {n : HtNode K V} {t' : HashTable K V} (heq : ops.eq n.key key = true)
      (hold : t.nodes.Perm (n :: t'.nodes)) (hwf : t'.WF ops) : RemoveCase ops t key .ok t'

theorem htRemove_cases {ops : KeyOps K} (hops : ops.Lawful) {t : HashTable K V} (h : t.WF ops)
    (key : K) : RemoveCase ops t key (htRemove ops t key).1 (htRemove ops t key).2 := by
  unfold htRemove
  cases hl : t.lookup ops key with
  | none => exact .missing (lookup_none hops h hl)
  | some n =>
    obtain ⟨-, heq⟩ := lookup_some h hl
    have hslot := slot_lt h key
    have hex := chains_exchange hslot t.buckets (eraseP_perm hl) (s := []) (List.Perm.refl _)
    have hkeyed := (hex.pairwise_iff fun {a b} hab => by
      rw [KeyMap.eq_comm hops]; exact hab).mpr h.keyed
    refine .removed heq hex.symm (wf_update hops h rfl rfl ?_ (List.Perm.refl _) ?_ ?_ ?_)
    · exact fun m hm => h.placed _ hslot m (List.mem_of_mem_eraseP hm)
    · exact fun m hm => h.hashed m (hex.mem_iff.mp (List.mem_cons_of_mem _ hm))
    · exact (List.pairwise_cons.mp hkeyed).2
    · have hlen := hex.length_eq
      have hcount := h.counted
      simp only [List.length_cons, List.nil_append, HashTable.nodes] at hlen hcount ⊢
      omega

theorem htGet_ok {ops : KeyOps K} {t : HashTable K V} (h : t.WF ops) {key : K} {v : V}
    (hg : htGet ops t key = .ok v) : ∃ n ∈ t.nodes, ops.eq n.key key = true ∧ n.value = v := by
  unfold htGet at hg
  cases hl : t.lookup ops key with
  | none => simp [hl] at hg
  | some n =>
    obtain ⟨hmem, heq⟩ := lookup_some h hl
    simp only [hl, Except.ok.injEq] at hg
    exact ⟨n, hmem, heq, hg⟩

theorem htGet_error {ops : KeyOps K} (hops : ops.Lawful) {t : HashTable K V} (h : t.WF ops)
    {key : K} {e : SmStatus} (hg : htGet ops t key = .error e) :
    e = .errNotFound ∧ ∀ n ∈ t.nodes, ops.eq n.key key = false := by
  unfold htGet at hg
  cases hl : t.lookup ops key with
  | some n => simp [hl] at hg
  | none =>
    simp only [hl, Except.error.injEq] at hg
    exact ⟨hg.symm, lookup_none hops h hl⟩

theorem htGet_of_mem {ops : KeyOps K} (hops : ops.Lawful) {t : HashTable K V} (h : t.WF ops)
    {key : K} {n : HtNode K V} (hn : n ∈ t.nodes) (he : ops.eq n.key key = true) :
    htGet ops t key = .ok n.value := by
  cases hg : htGet ops t key with
  | error e =>
    have habs := (htGet_error hops h hg).2 n hn
    simp [he] at habs
  | ok v =>
    obtain ⟨m, hm, hme, hv⟩ := htGet_ok h hg
    have hnm : n = m := node_unique hops h hn hm (hops.trans _ _ _ he (hops.symm _ _ hme))
    rw [hnm, hv]

theorem HashTable.WF.congr {ops ops' : KeyOps K} {t : HashTable K V} (h : t.WF ops)
    (hhash : ∀ n ∈ t.nodes, ops'.hash n.key = ops.hash n.key)
    (heq : ∀ n ∈ t.nodes, ∀ m ∈ t.nodes, ops'.eq n.key m.key = ops.eq n.key m.key) :
    t.WF ops' := by
  refine ⟨h.cap_pos, h.placed, fun n hn => (h.hashed n hn).trans (hhash n hn).symm, ?_,
    h.counted⟩
  exact h.keyed.imp_of_mem fun hn hm hab => by rw [heq _ hn _ hm]; exact hab

theorem fresh_nodes (c : ℕ) (fk fv : Bool) :
    (HashTable.fresh c fk fv : HashTable K V).nodes = [] := chains_nil c

theorem fresh_wf (ops : KeyOps K) {c : ℕ} (hc : 0 < c) (fk fv : Bool) :
    (HashTable.fresh c fk fv : HashTable K V).WF ops := by
  refine ⟨hc, ?_, ?_, ?_, ?_⟩
  · simp [HashTable.fresh]
  · simp [fresh_nodes]
  · simp [fresh_nodes]
  · rw [fresh_nodes]
    rfl

theorem htCreate_ok {hint : ℕ} {fk fv : Bool} {a : Alloc} {t : HashTable K V}
    (h : htCreate hint fk fv a = .ok t) : t = HashTable.fresh (nextPrime hint) fk fv := by
  unfold htCreate at h
  split at h
  · cases h
  · split at h
    · cases h
    · exact (Except.ok.inj h).symm

/-! ### Walking the table -/

theorem iterateChain_eq (cb : K → V → σ → Bool × σ) (l : List (HtNode K V))
    (rest : List (K × V)) (s : σ) :
    KeyMap.walk cb (l.map (fun n => (n.key, n.value)) ++ rest) s =
      match iterateChain cb l s with
      | (true, s') => KeyMap.walk cb rest s'
      | (false, s') => s' := by
  induction l generalizing s with
  | nil => rfl
  | cons n l ih =>
    simp only [List.map_cons, List.cons_append, KeyMap.walk, iterateChain]
    rcases hcb : cb n.key n.value s with ⟨b, s'⟩
    cases b with
    | true => exact ih s'
    | false => rfl

theorem iterateBuckets_eq (cb : K → V → σ → Bool × σ) (b : ℕ → List (HtNode K V))
    (fuel i : ℕ) (s : σ) : iterateBuckets cb b fuel i s =
      KeyMap.walk cb (((List.range' i fuel).flatMap b).map fun n => (n.key, n.value)) s := by
  induction fuel generalizing i s with
  | zero => rfl
  | succ fuel ih =>
    rw [List.range'_succ, List.flatMap_cons, List.map_append, iterateChain_eq]
    simp only [iterateBuckets]
    rcases iterateChain cb (b i) s with ⟨c, s'⟩
    cases c with
    | true => exact ih (i + 1) s'
    | false => rfl

theorem htIterate_eq (t : HashTable K V) (cb : K → V → σ → Bool × σ) (s : σ) :
    htIterate t cb s = KeyMap.walk cb t.entries s := by
  rw [htIterate, iterateBuckets_eq, HashTable.entries, HashTable.nodes, chains,
    List.range_eq_range']

/-! ### Refinement -/

inductive HtOp (K V σ : Type*) where
  | put (key : K) (value : V) (replaceExisting : Bool) (a : Alloc)
  | get (key : K)
  | remove (key : K)
  | size
  | iterate (cb : K → V → σ → Bool × σ) (userData : σ)

inductive HtRes (V σ : Type*) where
  | status (st : SmStatus)
  | value (v : V)
  | number (n : ℕ)
  | userData (s : σ)
  deriving DecidableEq

def htStep (ops : KeyOps K) (t : HashTable K V) : HtOp K V σ → HashTable K V × HtRes V σ
  | .put key value replace a =>
    let r := htPut ops t key value replace a
    (r.2, .status r.1)
  | .get key =>
    match htGet ops t key with
    | .ok v => (t, .value v)
    | .error e => (t, .status e)
  | .remove key =>
    let r := htRemove ops t key
    (r.2, .status r.1)
  | .size => (t, .number (htSize t))
  | .iterate cb s => (t, .userData (htIterate t cb s))

/-- The finite map: a put without replacement is refused exactly for a bound
key, a new key may be refused for lack of memory, and a walk sees each binding
once, in some order. -/
inductive MapStep (ops : KeyOps K) :
    (K → Option V) → HtOp K V σ → HtRes V σ → (K → Option V) → Prop
  | put {m key value replace a} (h : m key = none ∨ replace = true) :
      MapStep ops m (.put key value replace a) (.status .ok) (KeyMap.insert ops m key value)
  | putDuplicate {m key value a} (h : m key ≠ none) :
      MapStep ops m (.put key value false a) (.status .errDuplicate) m
  | putNoMemory {m key value replace a} (h : m key = none) (ha : a 0 = false) :
      MapStep ops m (.put key value replace a) (.status .errAllocFailed) m
  | get {m key v} (h : m key = some v) : MapStep ops m (.get key) (.value v) m
  | getMissing {m key} (h : m key = none) : MapStep ops m (.get key) (.status .errNotFound) m
  | remove {m key} (h : m key ≠ none) :
      MapStep ops m (.remove key) (.status .ok) (KeyMap.erase ops m key)
  | removeMissing {m key} (h : m key = none) :
      MapStep ops m (.remove key) (.status .errNotFound) m
  | size {m l} (hl : KeyMap.Listing ops l m) : MapStep ops m .size (.number l.length) m
  | iterateAll {m l cb s} (hl : KeyMap.Listing ops l m) (hcb : ∀ k v s, (cb k v s).1 = true) :
      MapStep ops m (.iterate cb s) (.userData (l.foldl (fun s e => (cb e.1 e.2 s).2) s)) m
  | iterateUntil {m l cb s} (hl : KeyMap.Listing ops l m)
      (hcb : ¬ ∀ k v s, (cb k v s).1 = true) :
      MapStep ops m (.iterate cb s) (.userData (KeyMap.walk cb l s)) m

/-- A table represents a map when it is well formed and its entries list it. -/
def Represents (ops : KeyOps K) (t : HashTable K V) (m : K → Option V) : Prop :=
  t.WF ops ∧ KeyMap.Listing ops t.entries m

theorem Represents.bound_iff {ops : KeyOps K} {t : HashTable K V} {m : K → Option V}
    (h : Represents ops t m) (k : K) (v : V) :
    m k = some v ↔ ∃ n ∈ t.nodes, ops.eq n.key k = true ∧ n.value = v := by
  rw [h.2.bound]
  simp [HashTable.entries]

theorem Represents.none_iff {ops : KeyOps K} {t : HashTable K V} {m : K → Option V}
    (h : Represents ops t m) (k : K) : m k = none ↔ ∀ n ∈ t.nodes, ops.eq n.key k = false := by
  rw [h.2.none_iff]
  simp [HashTable.entries]

theorem Represents.ne_none {ops : KeyOps K} {t : HashTable K V} {m : K → Option V}
    (h : Represents ops t m) {k : K} {n : HtNode K V} (hn : n ∈ t.nodes)
    (he : ops.eq n.key k = true) : m k ≠ none := by
  rw [(h.bound_iff k n.value).mpr ⟨n, hn, he, rfl⟩]
  exact Option.some_ne_none _

theorem entries_perm {t : HashTable K V} {l : List (HtNode K V)} (h : t.nodes.Perm l) :
    t.entries.Perm (l.map fun n => (n.key, n.value)) := h.map _

theorem put_step {ops : KeyOps K} (hops : ops.Lawful) {t : HashTable K V} {m : K → Option V}
    (h : Represents ops t m) (key : K) (value : V) (replace : Bool) (a : Alloc) :
    ∃ m', MapStep (σ := σ) ops m (.put key value replace a)
      (.status (htPut ops t key value replace a).1) m' ∧
      Represents ops (htPut ops t key value replace a).2 m' := by
  have hcase := htPut_cases hops h.1 key value replace a
  generalize htPut ops t key value replace a = r at hcase ⊢
  obtain ⟨st, t'⟩ := r
  cases hcase with
  | duplicate hmem heq hrep =>
    subst hrep
    exact ⟨m, .putDuplicate (h.ne_none hmem heq), h⟩
  | @replaced n rest newKey t' hold heq hkey hrep hnew hwf =>
    refine ⟨_, .put (Or.inr hrep), hwf, ?_⟩
    have hl : KeyMap.Listing ops ((n.key, n.value) :: rest.map fun n => (n.key, n.value)) m :=
      h.2.perm hops (entries_perm hold)
    have hkk : ops.eq newKey key = true := by
      rcases hkey with rfl | rfl
      · exact heq
      · exact hops.refl _
    exact (hl.rebind hops heq hkk value).perm hops (entries_perm hnew).symm
  | allocFailed habs ha => exact ⟨m, .putNoMemory ((h.none_iff key).mpr habs) ha, h⟩
  | inserted habs ha hnew hwf =>
    have hnone := (h.none_iff key).mpr habs
    have hl := h.2.cons hops hnone value
    exact ⟨_, .put (Or.inl hnone), hwf, hl.perm hops (entries_perm hnew).symm⟩

theorem remove_step {ops : KeyOps K} (hops : ops.Lawful) {t : HashTable K V} {m : K → Option V}
    (h : Represents ops t m) (key : K) :
    ∃ m', MapStep (σ := σ) ops m (.remove key) (.status (htRemove ops t key).1) m' ∧
      Represents ops (htRemove ops t key).2 m' := by
  have hcase := htRemove_cases hops h.1 key
  generalize htRemove ops t key = r at hcase ⊢
  obtain ⟨st, t'⟩ := r
  cases hcase with
  | missing habs => exact ⟨m, .removeMissing ((h.none_iff key).mpr habs), h⟩
  | @removed n t' heq hold hwf =>
    have hn : n ∈ t.nodes := hold.mem_iff.mpr (List.mem_cons_self ..)
    have hl : KeyMap.Listing ops ((n.key, n.value) :: t'.entries) m :=
      h.2.perm hops (entries_perm hold)
    exact ⟨_, .remove (h.ne_none hn heq), hwf, hl.tail hops heq⟩

theorem ht_step_refines {ops : KeyOps K} (hops : ops.Lawful) (t : HashTable K V)
    (m : K → Option V) (op : HtOp K V σ) (h : Represents ops t m) :
    ∃ m', MapStep ops m op (htStep ops t op).2 m' ∧ Represents ops (htStep ops t op).1 m' := by
  cases op with
  | put key value replace a => exact put_step hops h key value replace a
  | get key =>
    simp only [htStep]
    cases hg : htGet ops t key with
    | ok v => exact ⟨m, .get ((h.bound_iff key v).mpr (htGet_ok h.1 hg)), h⟩
    | error e =>
      obtain ⟨rfl, habs⟩ := htGet_error hops h.1 hg
      exact ⟨m, .getMissing ((h.none_iff key).mpr habs), h⟩
  | remove key => exact remove_step hops h key
  | size =>
    have hlen : htSize t = t.entries.length := by
      simp only [htSize, h.1.counted, HashTable.entries, List.length_map]
    exact ⟨m, by simp only [htStep, hlen]; exact .size h.2, h⟩
  | iterate cb s =>
    refine ⟨m, ?_, h⟩
    simp only [htStep, htIterate_eq]
    by_cases hcb : ∀ k v s, (cb k v s).1 = true
    · rw [KeyMap.walk_all hcb]
      exact .iterateAll h.2 hcb
    · exact .iterateUntil h.2 hcb

/-- Every run on a created table gives the results of a finite map that starts
empty, whatever allocations fail. -/
theorem ht_run_refines_map (ops : KeyOps K) (hops : ops.Lawful) (initialCapacityHint : ℕ)
    (freeKeyFn freeValueFn : Bool) (a : Alloc) (t : HashTable K V)
    (hcreate : htCreate initialCapacityHint freeKeyFn freeValueFn a = .ok t)
    (calls : List (HtOp K V σ)) :
    ∃ m, Machine.Runs (MapStep ops) (fun _ => none) calls
        (Machine.outputs (htStep ops) t calls) m ∧
      KeyMap.Listing ops (Machine.final (htStep ops) t calls).entries m := by
  have ht := htCreate_ok hcreate
  have h0 : Represents ops t fun _ => none := by
    subst ht
    refine ⟨fresh_wf ops (nextPrime_pos _) _ _, ?_⟩
    simp only [HashTable.entries, fresh_nodes, List.map_nil]
    exact KeyMap.Listing.empty ops
  obtain ⟨m, hrun, hm⟩ := Machine.refines (fun t m op => ht_step_refines hops t m op) h0 calls
  exact ⟨m, hrun, hm.2⟩

/-- Two different keys with the same full hash, a node allocation that fails,
and a callback that adds up the values. -/
theorem ht_run_refines_map_clash :
    let ops : KeyOps ℕ := ⟨fun _ => 7, fun a b => a == b⟩
    let t : HashTable ℕ ℕ := HashTable.fresh (nextPrime 4) false false
    let calls : List (HtOp ℕ ℕ ℕ) :=
      [.put 1 10 false Alloc.all, .put 2 20 false Alloc.all, .put 1 30 false Alloc.all,
        .put 3 30 false (fun _ => false), .remove 1, .get 2, .size,
        .iterate (fun _ v s => (true, s + v)) 0]
    Machine.outputs (htStep ops) t calls =
        [.status .ok, .status .ok, .status .errDuplicate, .status .errAllocFailed, .status .ok,
          .value 20, .number 1, .userData 20] ∧
      ∃ m, Machine.Runs (MapStep ops) (fun _ => none) calls
          (Machine.outputs (htStep ops) t calls) m ∧
        KeyMap.Listing ops (Machine.final (htStep ops) t calls).entries m := by
  refine ⟨by decide +kernel, ht_run_refines_map _ ⟨?_, ?_, ?_, ?_⟩ 4 false false Alloc.all _ rfl _⟩
  · exact fun a => beq_self_eq_true a
  · exact fun a b hab => beq_iff_eq.mpr (beq_iff_eq.mp hab).symm
  · exact fun a b c hab hbc => beq_iff_eq.mpr ((beq_iff_eq.mp hab).trans (beq_iff_eq.mp hbc))
  · exact fun _ _ _ => rfl

end SubscriberMgmt
