import Mathlib.Data.List.Perm.Basic
import Mathlib.Data.List.Pairwise
import Mathlib.Tactic.Common

/-!
# Finite maps up to a key equality

Keys are compared by a caller's equality test, so a map from keys to values
is a function that respects that test, and its content is a list with one
entry for each class of equal keys, in any order.
-/

/-- Hash function and equality test of a keyed container. -/
structure KeyOps (K : Type*) where
  hash : K → UInt64
  eq : K → K → Bool

/-- The equality test is an equivalence and equal keys have equal hashes. -/
structure KeyOps.Lawful {K : Type*} (ops : KeyOps K) : Prop where
  refl : ∀ a, ops.eq a a = true
  symm : ∀ a b, ops.eq a b = true → ops.eq b a = true
  trans : ∀ a b c, ops.eq a b = true → ops.eq b c = true → ops.eq a c = true
  hash_eq : ∀ a b, ops.eq a b = true → ops.hash a = ops.hash b

namespace KeyMap

variable {K V : Type*} {ops : KeyOps K}

theorem eq_comm (hops : ops.Lawful) (a b : K) : ops.eq a b = ops.eq b a :=
  Bool.eq_iff_iff.mpr ⟨hops.symm a b, hops.symm b a⟩

theorem eq_congr_right (hops : ops.Lawful) {a b : K} (h : ops.eq a b = true) (c : K) :
    ops.eq c a = ops.eq c b :=
  Bool.eq_iff_iff.mpr ⟨fun hc => hops.trans c a b hc h,
    fun hc => hops.trans c b a hc (hops.symm a b h)⟩

def insert (ops : KeyOps K) (m : K → Option V) (k : K) (v : V) : K → Option V :=
  fun k' => if ops.eq k k' then some v else m k'

def erase (ops : KeyOps K) (m : K → Option V) (k : K) : K → Option V :=
  fun k' => if ops.eq k k' then none else m k'

/-- `l` lists the bindings of `m`, each class of keys once. -/
structure Listing (ops : KeyOps K) (l : List (K × V)) (m : K → Option V) : Prop where
  keyed : l.Pairwise fun a b => ops.eq a.1 b.1 = false
  bound : ∀ k v, m k = some v ↔ ∃ e ∈ l, ops.eq e.1 k = true ∧ e.2 = v

theorem Listing.empty (ops : KeyOps K) : Listing ops ([] : List (K × V)) fun _ => none :=
  ⟨List.Pairwise.nil, by simp⟩

theorem Listing.perm (hops : ops.Lawful) {l l' : List (K × V)} {m : K → Option V}
    (h : Listing ops l m) (hp : l.Perm l') : Listing ops l' m := by
  refine ⟨?_, fun k v => ?_⟩
  · exact (hp.pairwise_iff fun hab => by rw [eq_comm hops]; exact hab).mp h.keyed
  · rw [h.bound]
    constructor <;> rintro ⟨e, he, hr⟩
    · exact ⟨e, hp.mem_iff.mp he, hr⟩
    · exact ⟨e, hp.mem_iff.mpr he, hr⟩

theorem Listing.none_iff {l : List (K × V)} {m : K → Option V} (h : Listing ops l m) (k : K) :
    m k = none ↔ ∀ e ∈ l, ops.eq e.1 k = false := by
  constructor
  · intro hn e he
    by_contra hc
    have hs := (h.bound k e.2).mpr ⟨e, he, by simpa using hc, rfl⟩
    simp [hn] at hs
  · intro hall
    cases hm : m k with
    | none => rfl
    | some v =>
      obtain ⟨e, he, heq, -⟩ := (h.bound k v).mp hm
      simp [hall e he] at heq

theorem Listing.cons (hops : ops.Lawful) {l : List (K × V)} {m : K → Option V}
    (h : Listing ops l m) {k : K} (hk : m k = none) (v : V) :
    Listing ops ((k, v) :: l) (insert ops m k v) := by
  have habs := (h.none_iff k).mp hk
  refine ⟨List.pairwise_cons.mpr ⟨fun e he => ?_, h.keyed⟩, fun k' v' => ?_⟩
  · rw [eq_comm hops]
    exact habs e he
  · simp only [insert, List.mem_cons, exists_eq_or_imp]
    by_cases hkk : ops.eq k k' = true
    · simp only [hkk, if_true, Option.some.injEq, true_and]
      refine ⟨fun hv => Or.inl hv, fun hor => ?_⟩
      rcases hor with hv | ⟨e, he, hek, -⟩
      · exact hv
      · have hek' : ops.eq e.1 k = true := hops.trans _ _ _ hek (hops.symm _ _ hkk)
        simp [habs e he] at hek'
    · simp only [Bool.not_eq_true] at hkk
      simp only [hkk, Bool.false_eq_true, if_false, false_and, false_or]
      exact h.bound k' v'

theorem Listing.tail (hops : ops.Lawful) {l : List (K × V)} {m : K → Option V} {e : K × V}
    (h : Listing ops (e :: l) m) {k : K} (hk : ops.eq e.1 k = true) :
    Listing ops l (erase ops m k) := by
  obtain ⟨hhead, htail⟩ := List.pairwise_cons.mp h.keyed
  refine ⟨htail, fun k' v' => ?_⟩
  simp only [erase]
  by_cases hkk : ops.eq k k' = true
  · simp only [hkk, if_true, reduceCtorEq, false_iff, not_exists, not_and]
    intro d hd hdk
    have hed : ops.eq e.1 d.1 = true :=
      hops.trans _ _ _ (hops.trans _ _ _ hk hkk) (hops.symm _ _ hdk)
    simp [hhead d hd] at hed
  · simp only [hkk, if_false, Bool.false_eq_true]
    rw [h.bound]
    have hek : ¬ ops.eq e.1 k' = true := fun hc => hkk (hops.trans _ _ _ (hops.symm _ _ hk) hc)
    simp [hek]

def walk {σ : Type*} (cb : K → V → σ → Bool × σ) : List (K × V) → σ → σ
  | [], s => s
  | e :: l, s =>
    match cb e.1 e.2 s with
    | (true, s') => walk cb l s'
    | (false, s') => s'

theorem walk_all {σ : Type*} {cb : K → V → σ → Bool × σ} (h : ∀ k v s, (cb k v s).1 = true)
    (l : List (K × V)) (s : σ) : walk cb l s = l.foldl (fun s e => (cb e.1 e.2 s).2) s := by
  induction l generalizing s with
  | nil => rfl
  | cons e l ih =>
    have he : cb e.1 e.2 s = (true, (cb e.1 e.2 s).2) := Prod.ext (h e.1 e.2 s) rfl
    rw [List.foldl_cons, ← ih, walk, he]

theorem insert_erase (m : K → Option V) (k : K) (v : V) :
    insert ops (erase ops m k) k v = insert ops m k v := by
  funext k'
  simp only [insert, erase]
  split <;> rfl

theorem insert_congr (hops : ops.Lawful) (m : K → Option V) {k k' : K}
    (h : ops.eq k k' = true) (v : V) : insert ops m k v = insert ops m k' v := by
  funext j
  have hj : ops.eq k j = ops.eq k' j := by
    rw [eq_comm hops k, eq_comm hops k', eq_congr_right hops h]
  simp only [insert, hj]

theorem Listing.rebind (hops : ops.Lawful) {l : List (K × V)} {m : K → Option V} {e : K × V}
    (h : Listing ops (e :: l) m) {k k' : K} (hk : ops.eq e.1 k = true)
    (hk' : ops.eq k' k = true) (v : V) : Listing ops ((k', v) :: l) (insert ops m k v) := by
  have hkk : ops.eq e.1 k' = true := hops.trans _ _ _ hk (hops.symm _ _ hk')
  have hnone : erase ops m k' k' = none := by simp [erase, hops.refl]
  have hc := (h.tail hops hkk).cons hops hnone v
  rwa [insert_erase, insert_congr hops m hk' v] at hc

end KeyMap

/-! ### Keys held by reference -/

/-- A key given to a table: a pointer to the key field of the object at `p`,
or a value of the caller's own. -/
inductive KeyRef (P A : Type*) where
  | field (p : P)
  | value (a : A)
  deriving DecidableEq

/-- The key behind the pointer, read from the objects as they are now. -/
def KeyRef.load {P A : Type*} (read : P → A) : KeyRef P A → A
  | .field p => read p
  | .value a => a

/-- Hash and equality through the pointer. -/
def KeyRef.ops {P A : Type*} [DecidableEq A] (hash : A → UInt64) (read : P → A) :
    KeyOps (KeyRef P A) where
  hash k := hash (k.load read)
  eq a b := decide (a.load read = b.load read)

theorem KeyRef.lawful {P A : Type*} [DecidableEq A] (hash : A → UInt64) (read : P → A) :
    (KeyRef.ops hash read).Lawful where
  refl a := by simp [KeyRef.ops]
  symm a b h := by
    simp only [KeyRef.ops, decide_eq_true_eq] at h ⊢
    exact h.symm
  trans a b c hab hbc := by
    simp only [KeyRef.ops, decide_eq_true_eq] at hab hbc ⊢
    exact hab.trans hbc
  hash_eq a b h := by
    simp only [KeyRef.ops, decide_eq_true_eq] at h ⊢
    rw [h]

theorem KeyRef.ops_eq_iff {P A : Type*} [DecidableEq A] {hash : A → UInt64} {read : P → A}
    {a b : KeyRef P A} : (KeyRef.ops hash read).eq a b = true ↔ a.load read = b.load read := by
  simp [KeyRef.ops]

theorem KeyRef.ops_eq_false {P A : Type*} [DecidableEq A] {hash : A → UInt64} {read : P → A}
    {a b : KeyRef P A} : (KeyRef.ops hash read).eq a b = false ↔ a.load read ≠ b.load read := by
  simp [KeyRef.ops]
