import SubscriberMgmt.HashTableMap
import SubscriberMgmt.NextPrime

/-!
# The size of the hash table (`hash_table.c:46-97`, `hash_table.c:121-200`)

The capacity is a prime that only grows, each node is in the bucket of its cached
hash, and the load stays below three quarters. The load test is a comparison of
integers here; for tables below `2 ^ 52` buckets it is that of the code.
-/

namespace SubscriberMgmt
open ListKit

variable {K V σ : Type*}

/-! ### The load test -/

/-- `count / capacity > 0.75`, exactly. -/
def exactLoad (count capacity : ℕ) : Bool := decide (3 * capacity < 4 * count)

theorem toDouble_small {n : ℕ} (h : n < 2 ^ 53) : toDouble n = n := by
  have hlog : n.log2 < 53 := by
    rcases Nat.eq_zero_or_pos n with rfl | hpos
    · decide
    · exact (Nat.log2_lt (by omega)).mpr h
  rw [toDouble, Nat.sub_eq_zero_of_le (Nat.le_of_lt_succ hlog)]
  simp [Nat.mod_one]

theorem loadExceeded_eq {count capacity : ℕ} (hcount : count < 2 ^ 53)
    (hcap : capacity < 2 ^ 52) : loadExceeded count capacity = exactLoad count capacity := by
  rw [loadExceeded, exactLoad, toDouble_small hcount, toDouble_small (by omega)]
  refine decide_eq_decide.mpr ⟨fun h => ?_, fun h => ?_⟩ <;> omega

/-- `ht_put` with the load test as a parameter. -/
def htPutBy (exceeded : ℕ → ℕ → Bool) (ops : KeyOps K) (t : HashTable K V) (key : K) (value : V)
    (replaceExisting : Bool) (a : Alloc) : SmStatus × HashTable K V :=
  match t.lookup ops key with
  | some node =>
    if !replaceExisting then (.errDuplicate, t)
    else (.ok, t.overwrite ops key value node)
  | none =>
    if !a 0 then (.errAllocFailed, t)
    else
      let t1 := t.push ops key value
      if exceeded t1.count t1.capacity then
        (.ok, (resizeLocked t1 (t1.capacity * 2 % sizeRange) (a.skip 1)).2)
      else (.ok, t1)

theorem htPut_eq (ops : KeyOps K) (t : HashTable K V) (key : K) (value : V)
    (replaceExisting : Bool) (a : Alloc) :
    htPut ops t key value replaceExisting a =
      htPutBy loadExceeded ops t key value replaceExisting a := rfl

theorem htPut_exact (ops : KeyOps K) {t : HashTable K V} (hcount : t.count + 1 < 2 ^ 53)
    (hcap : t.capacity < 2 ^ 52) (key : K) (value : V) (replaceExisting : Bool) (a : Alloc) :
    htPut ops t key value replaceExisting a =
      htPutBy exactLoad ops t key value replaceExisting a := by
  have hload : loadExceeded (t.push ops key value).count (t.push ops key value).capacity =
      exactLoad (t.push ops key value).count (t.push ops key value).capacity :=
    loadExceeded_eq hcount hcap
  simp only [htPut_eq, htPutBy, hload]

def htStepExact (ops : KeyOps K) (t : HashTable K V) : HtOp K V σ → HashTable K V × HtRes V σ
  | .put key value replace a =>
    let r := htPutBy exactLoad ops t key value replace a
    (r.2, .status r.1)
  | op => htStep ops t op

/-- The exact test makes no difference to tables of up to `2 ^ 52` buckets and `2 ^ 53`
nodes. -/
theorem htRun_exact (ops : KeyOps K) {t : HashTable K V} {calls : List (HtOp K V σ)}
    (h : Machine.Along (htStep ops) (fun t _ => t.count + 1 < 2 ^ 53 ∧ t.capacity < 2 ^ 52) t
      calls) :
    Machine.final (htStep ops) t calls = Machine.final (htStepExact ops) t calls := by
  induction calls generalizing t with
  | nil => rfl
  | cons op calls ih =>
    obtain ⟨⟨hcount, hcap⟩, hrest⟩ := h
    have hop : htStep ops t op = htStepExact ops t op := by
      cases op with
      | put key value replace a => simp only [htStep, htStepExact, htPut_exact ops hcount hcap]
      | _ => rfl
    rw [Machine.final_cons, Machine.final_cons, ← hop]
    exact ih hrest

/-- The call adds a node and needs a larger bucket array, which is not to be had. -/
def ResizeFails (ops : KeyOps K) (t : HashTable K V) : HtOp K V σ → Prop
  | .put key _ _ a => t.lookup ops key = none ∧ a 0 = true ∧
      exactLoad (t.count + 1) t.capacity = true ∧ a 1 = false
  | _ => False

/-! ### Buckets -/

def HashTable.Placed (t : HashTable K V) : Prop :=
  ∀ i < t.capacity, ∀ n ∈ t.buckets i, n.hash.toNat % t.capacity = i

theorem HashTable.Placed.update {t t' : HashTable K V} (h : t.Placed) {i : ℕ}
    {l : List (HtNode K V)} (hcap : t'.capacity = t.capacity)
    (hb : t'.buckets = Function.update t.buckets i l)
    (hl : ∀ n ∈ l, n.hash.toNat % t.capacity = i) : t'.Placed := by
  rw [HashTable.Placed, hcap, hb]
  exact placed_update h hl

section Calls

variable {ops : KeyOps K} {t : HashTable K V}

theorem HashTable.Placed.overwrite (h : t.Placed) (hpos : 0 < t.capacity) (key : K) (value : V)
    (node : HtNode K V) : (t.overwrite ops key value node).Placed := by
  have hslot : t.slot ops key < t.capacity := Nat.mod_lt _ hpos
  refine h.update rfl rfl fun n hn => ?_
  rcases mem_updateFirst hn with hn | ⟨m, hm, -, rfl⟩
  · exact h _ hslot n hn
  · exact h _ hslot m hm

theorem HashTable.Placed.push (h : t.Placed) (hpos : 0 < t.capacity) (key : K) (value : V) :
    (t.push ops key value).Placed := by
  have hslot : t.slot ops key < t.capacity := Nat.mod_lt _ hpos
  refine h.update rfl rfl fun n hn => ?_
  rcases List.mem_cons.mp hn with rfl | hn
  · rfl
  · exact h _ hslot n hn

theorem HashTable.Placed.remove (h : t.Placed) (hpos : 0 < t.capacity) (key : K) :
    (htRemove ops t key).2.Placed := by
  have hslot : t.slot ops key < t.capacity := Nat.mod_lt _ hpos
  unfold htRemove
  cases t.lookup ops key with
  | none => exact h
  | some node => exact h.update rfl rfl fun n hn => h _ hslot n (List.mem_of_mem_eraseP hn)

theorem resizeLocked_placed (t : HashTable K V) (hint : ℕ) {a : Alloc} (ha : a 0 = true) :
    (resizeLocked t hint a).2.Placed := by
  unfold resizeLocked
  simp only [ha, Bool.not_true, Bool.false_eq_true, if_false]
  exact fun i _ => relink_placed t.nodes _ (by simp) i

/-- What a call does to capacity and count, with the nodes where they belong: it adds
none, it adds one with room, without memory for a resize, or with a resize. -/
inductive SizeCase (ops : KeyOps K) (t : HashTable K V) (op : HtOp K V σ) (t' : HashTable K V) :
    Prop
  | noneAdded (hplaced : t'.Placed) (hcap : t'.capacity = t.capacity)
      (hcount : t'.count ≤ t.count)
  | fits (hplaced : t'.Placed) (hcap : t'.capacity = t.capacity)
      (hload : 4 * t'.count ≤ 3 * t'.capacity)
  | crowded (hplaced : t'.Placed) (hcap : t'.capacity = t.capacity) (hfails : ResizeFails ops t op)
  | resized (hplaced : t'.Placed) (hcap : t'.capacity = nextPrime (t.capacity * 2 % sizeRange))
      (hcount : t'.count = t.count + 1)

theorem htStepExact_cases (ops : KeyOps K) {t : HashTable K V} (h : t.Placed)
    (hpos : 0 < t.capacity) (op : HtOp K V σ) : SizeCase ops t op (htStepExact ops t op).1 := by
  cases op with
  | put key value replace a =>
    simp only [htStepExact, htPutBy]
    cases hl : t.lookup ops key with
    | some node =>
      cases replace with
      | false => exact .noneAdded h rfl (Nat.le_refl _)
      | true => exact .noneAdded (h.overwrite hpos key value node) rfl (Nat.le_refl _)
    | none =>
      cases ha : a 0 with
      | false => exact .noneAdded h rfl (Nat.le_refl _)
      | true =>
        simp only [Bool.not_true, Bool.false_eq_true, if_false]
        split
        case isFalse hload =>
          refine .fits (h.push hpos key value) rfl (Nat.le_of_not_lt fun hlt => hload ?_)
          exact decide_eq_true hlt
        case isTrue hload =>
          cases ha1 : a 1 with
          | false =>
            have hsame : (resizeLocked (t.push ops key value)
                ((t.push ops key value).capacity * 2 % sizeRange) (a.skip 1)).2 =
                  t.push ops key value := by
              have hskip : a.skip 1 0 = false := ha1
              simp only [resizeLocked, hskip, Bool.not_false, if_true]
            rw [hsame]
            exact .crowded (h.push hpos key value) rfl ⟨hl, ha, hload, ha1⟩
          | true =>
            have hskip : a.skip 1 0 = true := ha1
            refine .resized (resizeLocked_placed _ _ hskip) ?_ ?_
            · simp only [resizeLocked, hskip, Bool.not_true, Bool.false_eq_true, if_false]
              rfl
            · simp only [resizeLocked, hskip, Bool.not_true, Bool.false_eq_true, if_false]
              rfl
  | get key =>
    have hsame : (htStepExact ops t (.get key : HtOp K V σ)).1 = t := by
      simp only [htStepExact, htStep]
      cases htGet ops t key <;> rfl
    rw [hsame]
    exact .noneAdded h rfl (Nat.le_refl _)
  | remove key =>
    have hcap : (htRemove ops t key).2.capacity = t.capacity ∧
        (htRemove ops t key).2.count ≤ t.count := by
      unfold htRemove
      cases t.lookup ops key with
      | none => exact ⟨rfl, Nat.le_refl _⟩
      | some node => exact ⟨rfl, Nat.sub_le _ _⟩
    exact .noneAdded (h.remove hpos key) hcap.1 hcap.2
  | size => exact .noneAdded h rfl (Nat.le_refl _)
  | iterate cb s => exact .noneAdded h rfl (Nat.le_refl _)

end Calls

/-! ### Runs -/

structure HashTable.Sized (t : HashTable K V) : Prop where
  prime : t.capacity.Prime
  five : 5 ≤ t.capacity
  placed : t.Placed

def HashTable.Roomy (t : HashTable K V) : Prop := 4 * t.count ≤ 3 * t.capacity

theorem grown_spec {c : ℕ} (hc : c < 2 ^ 62) :
    (nextPrime (c * 2 % sizeRange)).Prime ∧ 5 ≤ nextPrime (c * 2 % sizeRange) ∧
      c * 2 ≤ nextPrime (c * 2 % sizeRange) := by
  have hsize : c * 2 < sizeRange := by
    unfold sizeRange
    omega
  rw [Nat.mod_eq_of_lt hsize]
  obtain ⟨hprime, -, hge⟩ := (nextPrime_isLeast (n := c * 2) (by omega)).1
  exact ⟨hprime, by omega, by omega⟩

section Runs

variable {ops : KeyOps K} {t : HashTable K V}

theorem HashTable.Sized.step (h : t.Sized) (hbelow : t.capacity < 2 ^ 62) (ops : KeyOps K)
    (op : HtOp K V σ) :
    (htStepExact ops t op).1.Sized ∧ t.capacity ≤ (htStepExact ops t op).1.capacity ∧
      (¬ ResizeFails ops t op → t.Roomy → (htStepExact ops t op).1.Roomy) := by
  obtain ⟨hprime, hfive, hplaced⟩ := h
  have hcase := htStepExact_cases ops hplaced (by omega) op
  generalize (htStepExact ops t op).1 = t' at hcase ⊢
  unfold Roomy
  cases hcase with
  | noneAdded hplaced' hcap hcount =>
    exact ⟨⟨hcap ▸ hprime, hcap ▸ hfive, hplaced'⟩, by omega, fun _ hroomy => by omega⟩
  | fits hplaced' hcap hload =>
    exact ⟨⟨hcap ▸ hprime, hcap ▸ hfive, hplaced'⟩, by omega, fun _ _ => hload⟩
  | crowded hplaced' hcap hfails =>
    exact ⟨⟨hcap ▸ hprime, hcap ▸ hfive, hplaced'⟩, by omega, fun hno => absurd hfails hno⟩
  | resized hplaced' hcap hcount =>
    obtain ⟨hprime', hfive', hdouble⟩ := grown_spec hbelow
    rw [← hcap] at hprime' hfive' hdouble
    exact ⟨⟨hprime', hfive', hplaced'⟩, by omega, fun _ hroomy => by omega⟩

/-- Each call is made at a capacity below `2 ^ 62`. -/
def BelowBound (ops : KeyOps K) (t : HashTable K V) (calls : List (HtOp K V σ)) : Prop :=
  Machine.Along (htStepExact ops) (fun t _ => t.capacity < 2 ^ 62) t calls

def ResizesSucceed (ops : KeyOps K) (t : HashTable K V) (calls : List (HtOp K V σ)) : Prop :=
  Machine.Along (htStepExact ops) (fun t op => ¬ ResizeFails ops t op) t calls

theorem HashTable.Sized.run (h : t.Sized) {calls : List (HtOp K V σ)}
    (hbelow : BelowBound ops t calls) :
    (Machine.final (htStepExact ops) t calls).Sized ∧
      t.capacity ≤ (Machine.final (htStepExact ops) t calls).capacity ∧
      (ResizesSucceed ops t calls → t.Roomy →
        (Machine.final (htStepExact ops) t calls).Roomy) := by
  induction calls generalizing t with
  | nil => exact ⟨h, Nat.le_refl _, fun _ hroomy => hroomy⟩
  | cons op calls ih =>
    obtain ⟨hsized, hle, hroom⟩ := h.step hbelow.1 ops op
    obtain ⟨hsized', hle', hroom'⟩ := ih hsized hbelow.2
    exact ⟨hsized', hle.trans hle', fun hall hroomy => hroom' hall.2 (hroom hall.1 hroomy)⟩

/-- In every run from a new table the capacity is a prime of at least 5 and never
decreases, the nodes are in the buckets of their hashes, and without a failed resize the
table keeps a quarter of its room. -/
theorem table_sizing {hint : ℕ} (hhint : hint < 2 ^ 62) {freeKeyFn freeValueFn : Bool} {a : Alloc}
    (hcreate : htCreate hint freeKeyFn freeValueFn a = .ok t) {calls : List (HtOp K V σ)}
    (hbelow : BelowBound ops t calls) :
    let t' := Machine.final (htStepExact ops) t calls
    (t'.capacity.Prime ∧ 5 ≤ t'.capacity) ∧
      (∀ pre post, calls = pre ++ post →
        (Machine.final (htStepExact ops) t pre).capacity ≤ t'.capacity) ∧
      (∀ i < t'.capacity, ∀ n ∈ t'.buckets i, n.hash.toNat % t'.capacity = i) ∧
      (ResizesSucceed ops t calls → 4 * t'.count ≤ 3 * t'.capacity) := by
  have hnew := htCreate_ok hcreate
  obtain ⟨hprime, -, hge⟩ := (nextPrime_isLeast (n := hint) (by omega)).1
  have hstart : t.Sized := by
    rw [hnew]
    exact ⟨hprime, (Nat.le_max_right _ _).trans hge, fun i _ n hn => by cases hn⟩
  have hroomy : t.Roomy := by
    rw [hnew]
    exact Nat.zero_le _
  obtain ⟨hsized, -, hroom⟩ := hstart.run hbelow
  refine ⟨⟨hsized.prime, hsized.five⟩, ?_, hsized.placed, fun hall => hroom hall hroomy⟩
  rintro pre post rfl
  rw [Machine.final_append]
  exact ((hstart.run hbelow.front).1.run hbelow.rest).2.1

end Runs

/-- Four keys in a table of five buckets: the fourth one makes it grow. -/
theorem table_sizing_four :
    let ops : KeyOps ℕ := ⟨fun k => UInt64.ofNat k, fun a b => a == b⟩
    let t : HashTable ℕ ℕ := HashTable.fresh (nextPrime 4) false false
    let calls : List (HtOp ℕ ℕ ℕ) :=
      [.put 1 10 false Alloc.all, .put 2 20 false Alloc.all, .put 3 30 false Alloc.all,
        .put 4 40 false Alloc.all]
    let t' := Machine.final (htStepExact ops) t calls
    t'.capacity = 11 ∧ t'.capacity.Prime ∧ 4 * t'.count ≤ 3 * t'.capacity := by
  intro ops t calls t'
  have hbelow : BelowBound ops t calls := by
    show _ ∧ _ ∧ _ ∧ _ ∧ True
    decide +kernel
  have hall : ResizesSucceed ops t calls := by
    refine ⟨?_, ?_, ?_, ?_, trivial⟩ <;> exact fun h => by cases h.2.2.2
  have hcreate : htCreate 4 false false Alloc.all = .ok t := rfl
  have hspec := table_sizing (by decide) hcreate hbelow
  exact ⟨by decide +kernel, hspec.1.1, hspec.2.2.2 hall⟩

end SubscriberMgmt
