import SubscriberMgmt.HashTableMap
import Mathlib.Data.List.Count

/-!
# Who frees keys and values (`hash_table.c:99-200`, `hash_table.c:225-253`)

A table with both free functions owns what a successful put hands over. Keys and
values are objects here, and the two free functions never get the same one.
-/

namespace SubscriberMgmt
open ListKit
open scoped List

variable {K V : Type*}

/-! ### The calls -/

/-- The objects that `ht_destroy` and the calls before it have freed, latest first. -/
def htDestroy (t : HashTable K V) : List (K ⊕ V) :=
  t.nodes.foldl (fun freed node =>
    (if t.freeValueFn then [Sum.inr node.value] else []) ++
      ((if t.freeKeyFn then [Sum.inl node.key] else []) ++ freed)) t.freed

/-- Calls that own or free objects; `none` for a NULL key. -/
inductive OwnOp (K V : Type*) where
  | put (key : Option K) (value : V) (replaceExisting lockOk : Bool) (a : Alloc)
  | remove (key : Option K) (lockOk : Bool)

def ownStep (ops : KeyOps K) (t : HashTable K V) : OwnOp K V → HashTable K V × SmStatus
  | .put none _ _ _ _ => (t, .errNullParam)
  | .put (some _) _ _ false _ => (t, .errLockFailed)
  | .put (some key) value replace true a =>
    let r := htPut ops t key value replace a
    (r.2, r.1)
  | .remove none _ => (t, .errNullParam)
  | .remove (some _) false => (t, .errLockFailed)
  | .remove (some key) true =>
    let r := htRemove ops t key
    (r.2, r.1)

def handedOver : OwnOp K V × SmStatus → List (K ⊕ V)
  | (.put (some key) value _ _ _, .ok) => [.inl key, .inr value]
  | _ => []

/-- All that the puts of a run have handed over. -/
def givenBy (ops : KeyOps K) (t : HashTable K V) (calls : List (OwnOp K V)) : List (K ⊕ V) :=
  (calls.zip (Machine.outputs (ownStep ops) t calls)).flatMap handedOver

def OwnOp.objects : OwnOp K V → List (K ⊕ V)
  | .put key value _ _ _ => key.toList.map .inl ++ [.inr value]
  | .remove _ _ => []

/-- Each put passes a key and a value that no other put passes. -/
def FreshObjects (calls : List (OwnOp K V)) : Prop := (calls.flatMap OwnOp.objects).Nodup

def visited (t : HashTable K V) : List (K × V) :=
  htIterate t (fun k v seen => (true, seen ++ [(k, v)])) []

/-- A lookup or an iteration can return the object. -/
def Returns (ops : KeyOps K) (t : HashTable K V) (x : K ⊕ V) : Prop :=
  (∃ key v, htGet ops t key = .ok v ∧ x = .inr v) ∨ ∃ e ∈ visited t, x = .inl e.1 ∨ x = .inr e.2

/-! ### What the nodes hold -/

def HtNode.objects (n : HtNode K V) : List (K ⊕ V) := [.inl n.key, .inr n.value]

def HashTable.held (t : HashTable K V) : List (K ⊕ V) := t.nodes.flatMap HtNode.objects

theorem visited_eq (t : HashTable K V) : visited t = t.entries := by
  have hfold : ∀ (l : List (K × V)) seen,
      l.foldl (fun seen e => seen ++ [(e.1, e.2)]) seen = seen ++ l := by
    intro l
    induction l with
    | nil => simp
    | cons e l ih => simp [ih]
  rw [visited, htIterate_eq, KeyMap.walk_all fun _ _ _ => rfl]
  exact hfold t.entries []

theorem Returns.held {ops : KeyOps K} {t : HashTable K V} (hpos : 0 < t.capacity) {x : K ⊕ V}
    (h : Returns ops t x) : x ∈ t.held := by
  have hnode : ∀ n ∈ t.nodes, ∀ y ∈ n.objects, y ∈ t.held := fun n hn y hy =>
    List.mem_flatMap.mpr ⟨n, hn, hy⟩
  rcases h with ⟨key, v, hget, rfl⟩ | ⟨e, he, hx⟩
  · unfold htGet at hget
    cases hl : t.lookup ops key with
    | none =>
      rw [hl] at hget
      cases hget
    | some n =>
      rw [hl] at hget
      cases hget
      have hn : n ∈ t.nodes :=
        mem_chains.mpr ⟨_, Nat.mod_lt _ hpos, List.mem_of_find?_eq_some hl⟩
      exact hnode n hn _ (List.mem_cons_of_mem _ (List.mem_singleton_self _))
  · rw [visited_eq] at he
    obtain ⟨n, hn, rfl⟩ := List.mem_map.mp he
    rcases hx with rfl | rfl
    · exact hnode n hn _ (List.mem_cons_self ..)
    · exact hnode n hn _ (List.mem_cons_of_mem _ (List.mem_singleton_self _))

theorem htDestroy_perm {t : HashTable K V} (hkey : t.freeKeyFn = true)
    (hvalue : t.freeValueFn = true) : (htDestroy t).Perm (t.freed ++ t.held) := by
  have hfold : ∀ (l : List (HtNode K V)) (freed : List (K ⊕ V)),
      (l.foldl (fun freed node => [Sum.inr node.value] ++ ([Sum.inl node.key] ++ freed))
        freed).Perm (freed ++ l.flatMap HtNode.objects) := by
    intro l
    induction l with
    | nil => simp
    | cons n l ih =>
      intro freed
      have hcomm : (n.objects ++ freed).Perm (freed ++ n.objects) := List.perm_append_comm
      have hnode : ([Sum.inr n.value] ++ ([Sum.inl n.key] ++ freed)).Perm (freed ++ n.objects) :=
        (List.Perm.swap _ _ freed).trans hcomm
      have hrest := (ih _).trans (hnode.append_right (l.flatMap HtNode.objects))
      rw [List.append_assoc freed] at hrest
      exact hrest
  simp only [htDestroy, hkey, hvalue, if_true]
  exact hfold t.nodes t.freed

/-! ### Every object handed over is held or freed -/

/-- A table that owns keys and values, and `given` is what it holds or has freed. -/
structure Owned (t : HashTable K V) (given : List (K ⊕ V)) : Prop where
  cap_pos : 0 < t.capacity
  freesKeys : t.freeKeyFn = true
  freesValues : t.freeValueFn = true
  accounted : (t.freed ++ t.held).Perm given

section Calls

variable {ops : KeyOps K} {t : HashTable K V} {given : List (K ⊕ V)} {key : K} {n : HtNode K V}

/-- A replacing put: the old value and the new key are freed, the old key stays. -/
theorem Owned.overwrite (h : Owned t given) (hl : t.lookup ops key = some n) (value : V) :
    Owned (t.overwrite ops key value n) (given ++ [.inl key, .inr value]) := by
  refine ⟨h.cap_pos, h.freesKeys, h.freesValues, ?_⟩
  have hslot : t.slot ops key < t.capacity := Nat.mod_lt _ h.cap_pos
  obtain ⟨r, hr, hr'⟩ := updateFirst_perm (fun m : HtNode K V => ⟨n.key, value, m.hash⟩) hl
  have hex := chains_exchange hslot t.buckets hr (s := [⟨n.key, value, n.hash⟩]) hr'
  have hheld := hex.flatMap_right HtNode.objects
  have hfreed : (t.overwrite ops key value n).freed = [.inl key, .inr n.value] ++ t.freed := by
    simp [HashTable.overwrite, h.freesKeys, h.freesValues]
  have hnodes : (t.overwrite ops key value n).nodes =
      chains t.capacity (Function.update t.buckets (t.slot ops key)
        (updateFirst (HtNode.hits ops key) (fun m => ⟨n.key, value, m.hash⟩)
          (t.buckets (t.slot ops key)))) := by
    simp [HashTable.overwrite, HashTable.nodes, h.freesKeys]
  have hold := h.accounted
  -- counted, because the old value moves from the node to what is freed
  let : DecidableEq (K ⊕ V) := Classical.decEq _
  rw [List.perm_iff_count] at hheld hold ⊢
  intro x
  have hx := hheld x
  have hgiven := hold x
  simp only [HashTable.held, hnodes, hfreed] at hx hgiven ⊢
  simp only [HashTable.nodes, HtNode.objects, List.flatMap_cons,
    List.flatMap_append, List.flatMap_nil, List.count_append, List.count_cons, List.count_nil,
    List.append_nil] at hx hgiven ⊢
  omega

/-- An inserting put: the new node holds both objects. -/
theorem Owned.push (h : Owned t given) (key : K) (value : V) :
    Owned (t.push ops key value) (given ++ [.inl key, .inr value]) := by
  refine ⟨h.cap_pos, h.freesKeys, h.freesValues, ?_⟩
  have hslot : t.slot ops key < t.capacity := Nat.mod_lt _ h.cap_pos
  have hpush := chains_push hslot t.buckets ⟨key, value, ops.hash key⟩
  have hheld : (t.push ops key value).held.Perm ([.inl key, .inr value] ++ t.held) :=
    hpush.flatMap_right HtNode.objects
  calc (t.push ops key value).freed ++ (t.push ops key value).held
      ~ t.freed ++ ([.inl key, .inr value] ++ t.held) := hheld.append_left _
    _ ~ t.freed ++ (t.held ++ [.inl key, .inr value]) := List.perm_append_comm.append_left _
    _ ~ given ++ [.inl key, .inr value] := by
        rw [← List.append_assoc]
        exact h.accounted.append_right _

/-- A resize moves the nodes and frees none of their objects. -/
theorem Owned.resize (h : Owned t given) (hint : ℕ) (a : Alloc) :
    Owned (resizeLocked t hint a).2 given := by
  unfold resizeLocked
  cases ha : a 0 with
  | false => exact h
  | true =>
    have hpos := nextPrime_pos hint
    refine ⟨hpos, h.freesKeys, h.freesValues, ?_⟩
    have hheld := (relink_nodes hpos t.nodes).flatMap_right HtNode.objects
    exact (hheld.append_left t.freed).trans h.accounted

/-- A removal frees the objects of the node it takes out. -/
theorem Owned.remove (h : Owned t given) (key : K) : Owned (htRemove ops t key).2 given := by
  unfold htRemove
  cases hl : t.lookup ops key with
  | none => exact h
  | some n =>
    refine ⟨h.cap_pos, h.freesKeys, h.freesValues, ?_⟩
    have hslot : t.slot ops key < t.capacity := Nat.mod_lt _ h.cap_pos
    have hex : (n :: chains t.capacity (Function.update t.buckets (t.slot ops key)
        ((t.buckets (t.slot ops key)).eraseP (HtNode.hits ops key)))).Perm t.nodes :=
      chains_exchange hslot t.buckets (eraseP_perm hl) (s := []) (List.Perm.refl _)
    have hheld := hex.flatMap_right HtNode.objects
    refine List.Perm.trans ?_ h.accounted
    simp only [h.freesKeys, h.freesValues, if_true]
    refine List.Perm.trans ?_ (hheld.append_left t.freed)
    let : DecidableEq (K ⊕ V) := Classical.decEq _
    rw [List.perm_iff_count]
    intro x
    simp only [HashTable.held, HashTable.nodes, HtNode.objects, List.flatMap_cons,
      List.count_append, List.count_cons, List.count_nil]
    omega

end Calls

/-! ### What a call can do -/

inductive OwnCase (ops : KeyOps K) (t : HashTable K V) :
    OwnOp K V → HashTable K V → SmStatus → Prop
  | unchanged {op : OwnOp K V} {status : SmStatus} (hnone : handedOver (op, status) = []) :
      OwnCase ops t op t status
  | overwritten {key : K} {value : V} {a : Alloc} {n : HtNode K V}
      (hl : t.lookup ops key = some n) :
      OwnCase ops t (.put (some key) value true true a) (t.overwrite ops key value n) .ok
  | inserted {key : K} {value : V} {replace : Bool} {a : Alloc} :
      OwnCase ops t (.put (some key) value replace true a) (t.push ops key value) .ok
  | grown {key : K} {value : V} {replace : Bool} {a a' : Alloc} {hint : ℕ} :
      OwnCase ops t (.put (some key) value replace true a)
        (resizeLocked (t.push ops key value) hint a').2 .ok
  | removed {key : K} :
      OwnCase ops t (.remove (some key) true) (htRemove ops t key).2 (htRemove ops t key).1

theorem ownStep_cases (ops : KeyOps K) (t : HashTable K V) (op : OwnOp K V) :
    OwnCase ops t op (ownStep ops t op).1 (ownStep ops t op).2 := by
  cases op with
  | put key value replace lockOk a =>
    cases key with
    | none => exact .unchanged rfl
    | some key =>
      cases lockOk with
      | false => exact .unchanged rfl
      | true =>
        simp only [ownStep, htPut]
        cases hl : t.lookup ops key with
        | some n =>
          cases replace with
          | false => exact .unchanged rfl
          | true => exact .overwritten hl
        | none =>
          cases a 0 with
          | false => exact .unchanged rfl
          | true =>
            simp only [Bool.not_true, Bool.false_eq_true, if_false]
            split
            · exact .grown
            · exact .inserted
  | remove key lockOk =>
    cases key with
    | none => exact .unchanged rfl
    | some key =>
      cases lockOk with
      | false => exact .unchanged rfl
      | true => exact .removed

section Cases

variable {ops : KeyOps K} {t t' : HashTable K V} {op : OwnOp K V} {status : SmStatus}

theorem OwnCase.owned {given : List (K ⊕ V)} (hcase : OwnCase ops t op t' status)
    (h : Owned t given) : Owned t' (given ++ handedOver (op, status)) := by
  cases hcase with
  | unchanged hnone => rwa [hnone, List.append_nil]
  | overwritten hl => exact h.overwrite hl _
  | inserted => exact h.push _ _
  | grown => exact (h.push _ _).resize _ _
  | removed =>
    show Owned _ (given ++ [])
    rw [List.append_nil]
    exact h.remove _

theorem resizeLocked_freed (t : HashTable K V) (hint : ℕ) (a : Alloc) :
    (resizeLocked t hint a).2.freed = t.freed := by
  unfold resizeLocked
  cases a 0 <;> rfl

theorem htRemove_freed (ops : KeyOps K) (t : HashTable K V) (key : K) :
    t.freed <:+ (htRemove ops t key).2.freed := by
  unfold htRemove
  cases t.lookup ops key with
  | none => exact List.suffix_refl _
  | some n => exact List.suffix_append _ _

theorem OwnCase.freed (hcase : OwnCase ops t op t' status) : t.freed <:+ t'.freed := by
  cases hcase with
  | unchanged => exact List.suffix_refl _
  | overwritten => exact List.suffix_append _ _
  | inserted => exact List.suffix_refl _
  | grown =>
    rw [resizeLocked_freed]
    exact List.suffix_refl _
  | removed => exact htRemove_freed ops t _

theorem OwnCase.refused {key : Option K} {value : V} {replace lockOk : Bool} {a : Alloc}
    (hcase : OwnCase ops t (.put key value replace lockOk a) t' status) (h : status ≠ .ok) :
    t' = t := by
  cases hcase with
  | unchanged => rfl
  | overwritten => exact absurd rfl h
  | inserted => exact absurd rfl h
  | grown => exact absurd rfl h

end Cases

/-! ### Runs -/

section Runs

variable {ops : KeyOps K} {t : HashTable K V}

theorem Owned.run {given : List (K ⊕ V)} (h : Owned t given) (calls : List (OwnOp K V)) :
    Owned (Machine.final (ownStep ops) t calls) (given ++ givenBy ops t calls) := by
  induction calls generalizing t given with
  | nil => rwa [givenBy, List.zip_nil_left, List.flatMap_nil, List.append_nil]
  | cons op calls ih =>
    have hrest := ih ((ownStep_cases ops t op).owned h)
    rwa [List.append_assoc] at hrest

theorem ownRun_freed (t : HashTable K V) (calls : List (OwnOp K V)) :
    t.freed <:+ (Machine.final (ownStep ops) t calls).freed :=
  Machine.final_invariant (P := fun s => t.freed <:+ s.freed)
    (fun s op h => h.trans (ownStep_cases ops s op).freed) (List.suffix_refl _) calls

theorem handedOver_sublist (op : OwnOp K V) (status : SmStatus) :
    (handedOver (op, status)).Sublist op.objects := by
  cases op with
  | put key value replace lockOk a =>
    cases key with
    | none => exact List.nil_sublist _
    | some key =>
      cases status with
      | ok => exact List.Sublist.refl _
      | _ => exact List.nil_sublist _
  | remove key lockOk => exact List.nil_sublist _

theorem givenBy_sublist (t : HashTable K V) (calls : List (OwnOp K V)) :
    (givenBy ops t calls).Sublist (calls.flatMap OwnOp.objects) := by
  induction calls generalizing t with
  | nil => exact List.nil_sublist _
  | cons op calls ih => exact (handedOver_sublist op _).append (ih _)

end Runs

theorem htCreate_owned {hint : ℕ} {a : Alloc} {t : HashTable K V}
    (hcreate : htCreate hint true true a = .ok t) : Owned t [] := by
  rw [htCreate_ok hcreate]
  have hheld : (HashTable.fresh (nextPrime hint) true true : HashTable K V).held = [] := by
    rw [HashTable.held, HashTable.nodes]
    exact congrArg _ (chains_nil _)
  refine ⟨nextPrime_pos hint, rfl, rfl, ?_⟩
  rw [hheld]
  exact List.Perm.refl _

/-- `ht_destroy` leaves each object of a successful put freed once, and no other object;
what the calls have freed can no longer be looked up or visited; a refused put frees
nothing. -/
theorem freed_exactly_once (ops : KeyOps K) {hint : ℕ} {a : Alloc} {t : HashTable K V}
    (hcreate : htCreate hint true true a = .ok t) {calls : List (OwnOp K V)}
    (hfresh : FreshObjects calls) :
    let run := Machine.final (ownStep ops) t
    ((htDestroy (run calls)).Nodup ∧ ∀ x, x ∈ htDestroy (run calls) ↔ x ∈ givenBy ops t calls) ∧
      (∀ pre post, calls = pre ++ post → ∀ x ∈ (run pre).freed, ¬ Returns ops (run calls) x) ∧
      ∀ pre key value replace lockOk a' post,
        calls = pre ++ .put key value replace lockOk a' :: post →
        (ownStep ops (run pre) (.put key value replace lockOk a')).2 ≠ .ok →
        (ownStep ops (run pre) (.put key value replace lockOk a')).1.freed = (run pre).freed := by
  intro run
  have howned : Owned (run calls) (givenBy ops t calls) := (htCreate_owned hcreate).run calls
  have hdestroy := (htDestroy_perm howned.freesKeys howned.freesValues).trans howned.accounted
  have hnodup : (givenBy ops t calls).Nodup := hfresh.sublist (givenBy_sublist t calls)
  refine ⟨⟨hdestroy.nodup_iff.mpr hnodup, fun x => hdestroy.mem_iff⟩, ?_, ?_⟩
  · rintro pre post rfl x hx hreturns
    have hfreed : x ∈ (run (pre ++ post)).freed := by
      have hgrows : (run pre).freed <:+ (Machine.final (ownStep ops) (run pre) post).freed :=
        ownRun_freed (run pre) post
      rw [← Machine.final_append] at hgrows
      exact hgrows.subset hx
    have hdisjoint := List.disjoint_of_nodup_append (howned.accounted.nodup_iff.mpr hnodup)
    exact hdisjoint hfreed (hreturns.held howned.cap_pos)
  · rintro pre key value replace lockOk a' post - hno
    exact congrArg HashTable.freed ((ownStep_cases ops (run pre) _).refused hno)

/-- Keys that agree modulo 10 are equal: one is replaced, one refused, one removed. -/
theorem freed_exactly_once_replaced :
    let ops : KeyOps ℕ := ⟨fun k => UInt64.ofNat (k % 10), fun a b => a % 10 == b % 10⟩
    let t : HashTable ℕ ℕ := HashTable.fresh (nextPrime 0) true true
    let calls : List (OwnOp ℕ ℕ) :=
      [.put (some 11) 1 true true Alloc.all, .put (some 21) 2 true true Alloc.all,
        .put (some 31) 3 false true Alloc.all, .put (some 4) 5 false true Alloc.all,
        .remove (some 14) true]
    let t' := Machine.final (ownStep ops) t calls
    t'.freed = [.inr 5, .inl 4, .inl 21, .inr 1] ∧ (htDestroy t').Nodup ∧
      ∀ x, x ∈ htDestroy t' ↔ x ∈ ([.inl 11, .inr 1, .inl 21, .inr 2, .inl 4, .inr 5] :
        List (ℕ ⊕ ℕ)) := by
  intro ops t calls t'
  have hcreate : htCreate 0 true true Alloc.all = .ok t := rfl
  have hfresh : FreshObjects calls := by
    unfold FreshObjects
    decide
  have hspec := freed_exactly_once ops hcreate hfresh
  have hgiven : givenBy ops t calls =
      [.inl 11, .inr 1, .inl 21, .inr 2, .inl 4, .inr 5] := by decide +kernel
  have hfreed : t'.freed = [.inr 5, .inl 4, .inl 21, .inr 1] := by decide +kernel
  refine ⟨hfreed, hspec.1.1, fun x => ?_⟩
  rw [← hgiven]
  exact hspec.1.2 x

end SubscriberMgmt
