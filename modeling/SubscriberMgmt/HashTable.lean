import SubscriberMgmt.Common
import SubscriberMgmt.Lib.Lists
import SubscriberMgmt.Lib.KeyMap

/-!
# Separate-chaining hash table (`hash_table.c`)

The chains are lists, walked from the head. The lock calls are left out: each
operation holds the table's lock from its first read to its last write, and
taking it is assumed to succeed. Hash and equality are parameters of each
operation, because the keys of some tables point into records and are
compared through the memory at that time.
-/

namespace SubscriberMgmt
open ListKit

/-! ### Ready-made hash functions (`hash_table.c:14-42`) -/

/-- FNV-1a over the bytes of a string (`sm_hash_str`). -/
def smHashStr (s : Str) : UInt64 :=
  s.foldl (fun hash b => (hash ^^^ b.toUInt64) * 1099511628211) 1469598103934665603

/-- SplitMix64 finalizer (`sm_hash_u64`). -/
def smHashU64 (key : UInt64) : UInt64 :=
  let x := (key ^^^ (key >>> 30)) * 0xbf58476d1ce4e5b9
  let x := (x ^^^ (x >>> 27)) * 0x94d049bb133111eb
  x ^^^ (x >>> 31)

/-! ### Prime capacities (`hash_table.c:46-64`) -/

/-- The trial division loop of `is_prime`, with `i * i` taken in `size_t`. No
odd `i` beyond an odd `n` is reached, since `i = n` divides `n`. -/
def isPrimeLoop (n i : ℕ) : Bool :=
  if (i * i) % sizeRange ≤ n ∧ i ≤ n then
    if n % i = 0 then false else isPrimeLoop n (i + 2)
  else true
termination_by n + 1 - i

def isPrime (n : ℕ) : Bool :=
  if n < 2 then false
  else if n % 2 = 0 then decide (n = 2)
  else isPrimeLoop n 3

/-- Steps of 2 in `size_t` from `n` to the prime of its parity. -/
def wrapDistance (n : ℕ) : ℕ :=
  if n % 2 = 1 then (sizeRange + 3 - n) % sizeRange else (sizeRange + 2 - n) % sizeRange

theorem isPrime_two : isPrime 2 = true := by simp [isPrime]

theorem isPrime_three : isPrime 3 = true := by
  unfold isPrime isPrimeLoop
  simp [sizeRange]

/-- `while (!is_prime(n)) n += 2U;` with the addition in `size_t`. -/
def nextPrimeLoop (n : ℕ) : ℕ :=
  if n < sizeRange ∧ isPrime n = false then nextPrimeLoop ((n + 2) % sizeRange) else n
termination_by wrapDistance n
decreasing_by
  rename_i h
  obtain ⟨hn, hp⟩ := h
  have h2 : n ≠ 2 := fun he => by simp [he, isPrime_two] at hp
  have h3 : n ≠ 3 := fun he => by simp [he, isPrime_three] at hp
  have hpar : (n + 2) % sizeRange % 2 = n % 2 := by simp only [sizeRange] at hn ⊢; omega
  simp only [wrapDistance, hpar]
  simp only [sizeRange] at hn ⊢
  rcases Nat.mod_two_eq_zero_or_one n with he | he
  · simp only [he, if_neg (by decide : ¬ (0 = 1))]
    omega
  · simp only [he, if_true]
    omega

def nextPrime (n : ℕ) : ℕ :=
  let n := if n < 5 then 5 else n
  let n := if n % 2 = 0 then (n + 1) % sizeRange else n
  nextPrimeLoop n

theorem isPrime_ge_two {n : ℕ} (h : isPrime n = true) : 2 ≤ n := by
  by_contra hn
  simp [isPrime, Nat.lt_of_not_le hn] at h

theorem nextPrimeLoop_pos (n : ℕ) : 0 < nextPrimeLoop n := by
  fun_induction nextPrimeLoop n with
  | case1 n _ ih => exact ih
  | case2 n h =>
    by_cases hn : n < sizeRange
    · have hp : isPrime n = true := by simpa [hn] using h
      have h2 := isPrime_ge_two hp
      omega
    · simp only [sizeRange] at hn
      omega

theorem nextPrime_pos (n : ℕ) : 0 < nextPrime n := nextPrimeLoop_pos _

/-! ### Load factor (`hash_table.c:190`) -/

/-- The IEEE double nearest to an integer below `2 ^ 64`, ties to even. -/
def toDouble (n : ℕ) : ℕ :=
  let e := n.log2 - 52
  let q := n / 2 ^ e
  let r := n % 2 ^ e
  if 2 * r > 2 ^ e ∨ (2 * r = 2 ^ e ∧ q % 2 = 1) then (q + 1) * 2 ^ e else q * 2 ^ e

/-- `(double)count / (double)capacity > 0.75`. The quotient is rounded to the
nearest double, and the next double above 0.75 is `0.75 + 2 ^ -53`, so it is
greater when the exact quotient is above `0.75 + 2 ^ -54`. -/
def loadExceeded (count capacity : ℕ) : Bool :=
  decide (toDouble capacity * (3 * 2 ^ 52 + 1) < toDouble count * 2 ^ 54)

/-! ### The table -/

structure HtNode (K V : Type*) where
  key : K
  value : V
  hash : UInt64

/-- `sm_hash_table_t`. `buckets i` is the chain of bucket `i < capacity`. The
free functions are recorded by whether they are set, and `freed` lists the
objects they were called on, latest first. -/
structure HashTable (K V : Type*) where
  buckets : ℕ → List (HtNode K V)
  capacity : ℕ
  count : ℕ
  freeKeyFn : Bool
  freeValueFn : Bool
  resizeCount : ℕ
  collisionCount : ℕ
  freed : List (K ⊕ V)

variable {K V σ : Type*}

def HashTable.nodes (t : HashTable K V) : List (HtNode K V) := chains t.capacity t.buckets

def HashTable.fresh (capacity : ℕ) (freeKeyFn freeValueFn : Bool) : HashTable K V where
  buckets := fun _ => []
  capacity := capacity
  count := 0
  freeKeyFn := freeKeyFn
  freeValueFn := freeValueFn
  resizeCount := 0
  collisionCount := 0
  freed := []

/-- `ht_create`; allocation 0 is the table, allocation 1 its buckets. -/
def htCreate (initialCapacityHint : ℕ) (freeKeyFn freeValueFn : Bool) (a : Alloc) :
    Except SmStatus (HashTable K V) :=
  if !a 0 then .error .errAllocFailed
  else if !a 1 then .error .errAllocFailed
  else .ok (HashTable.fresh (nextPrime initialCapacityHint) freeKeyFn freeValueFn)

def relink (newCapacity : ℕ) (b : ℕ → List (HtNode K V)) (node : HtNode K V) :
    ℕ → List (HtNode K V) :=
  let idx := node.hash.toNat % newCapacity
  Function.update b idx (node :: b idx)

/-- `resize_locked`; the one allocation is the new bucket array. -/
def resizeLocked (t : HashTable K V) (newCapacityHint : ℕ) (a : Alloc) :
    SmStatus × HashTable K V :=
  let newCapacity := nextPrime newCapacityHint
  if !a 0 then (.errAllocFailed, t)
  else (.ok,
    { t with
      buckets := t.nodes.foldl (relink newCapacity) fun _ => []
      capacity := newCapacity
      resizeCount := t.resizeCount + 1 })

/-- `node->hash == hash && key_eq_fn(node->key, key)` -/
def HtNode.hits (ops : KeyOps K) (key : K) (node : HtNode K V) : Bool :=
  node.hash == ops.hash key && ops.eq node.key key

def HashTable.slot (t : HashTable K V) (ops : KeyOps K) (key : K) : ℕ :=
  (ops.hash key).toNat % t.capacity

def HashTable.lookup (t : HashTable K V) (ops : KeyOps K) (key : K) : Option (HtNode K V) :=
  (t.buckets (t.slot ops key)).find? (HtNode.hits ops key)

/-- The hit of `ht_put` with `replace_existing`: value exchanged in place. With
a key destructor the node keeps its key and the new one is freed. -/
def HashTable.overwrite (t : HashTable K V) (ops : KeyOps K) (key : K) (value : V)
    (node : HtNode K V) : HashTable K V :=
  let idx := t.slot ops key
  let newKey := if t.freeKeyFn then node.key else key
  { t with
    buckets := Function.update t.buckets idx
      (updateFirst (HtNode.hits ops key) (fun n => ⟨newKey, value, n.hash⟩) (t.buckets idx))
    freed := (if t.freeKeyFn then [Sum.inl key] else []) ++
      (if t.freeValueFn then [Sum.inr node.value] else []) ++ t.freed }

def HashTable.push (t : HashTable K V) (ops : KeyOps K) (key : K) (value : V) : HashTable K V :=
  let idx := t.slot ops key
  { t with
    buckets := Function.update t.buckets idx (⟨key, value, ops.hash key⟩ :: t.buckets idx)
    collisionCount :=
      if (t.buckets idx).isEmpty then t.collisionCount else t.collisionCount + 1
    count := t.count + 1 }

/-- `ht_put`; allocation 0 is the node, allocation 1 the resize. -/
def htPut (ops : KeyOps K) (t : HashTable K V) (key : K) (value : V) (replaceExisting : Bool)
    (a : Alloc) : SmStatus × HashTable K V :=
  match t.lookup ops key with
  | some node =>
    if !replaceExisting then (.errDuplicate, t)
    else (.ok, t.overwrite ops key value node)
  | none =>
    if !a 0 then (.errAllocFailed, t)
    else
      let t1 := t.push ops key value
      if loadExceeded t1.count t1.capacity then
        -- a failed resize only costs speed: the put has succeeded
        (.ok, (resizeLocked t1 (t1.capacity * 2 % sizeRange) (a.skip 1)).2)
      else (.ok, t1)

def htGet (ops : KeyOps K) (t : HashTable K V) (key : K) : Except SmStatus V :=
  match t.lookup ops key with
  | some node => .ok node.value
  | none => .error .errNotFound

def htRemove (ops : KeyOps K) (t : HashTable K V) (key : K) : SmStatus × HashTable K V :=
  let idx := t.slot ops key
  match t.lookup ops key with
  | some node =>
    let freedKey := if t.freeKeyFn then [Sum.inl node.key] else []
    let freedValue := if t.freeValueFn then [Sum.inr node.value] else []
    (.ok,
      { t with
        buckets := Function.update t.buckets idx ((t.buckets idx).eraseP (HtNode.hits ops key))
        count := t.count - 1
        freed := freedValue ++ freedKey ++ t.freed })
  | none => (.errNotFound, t)

def htSize (t : HashTable K V) : ℕ := t.count

def iterateChain (cb : K → V → σ → Bool × σ) : List (HtNode K V) → σ → Bool × σ
  | [], s => (true, s)
  | n :: ns, s =>
    match cb n.key n.value s with
    | (true, s') => iterateChain cb ns s'
    | (false, s') => (false, s')

/-- Walk the chains `i, i + 1, …` for `fuel` buckets. -/
def iterateBuckets (cb : K → V → σ → Bool × σ) (b : ℕ → List (HtNode K V)) :
    ℕ → ℕ → σ → σ
  | 0, _, s => s
  | fuel + 1, i, s =>
    match iterateChain cb (b i) s with
    | (true, s') => iterateBuckets cb b fuel (i + 1) s'
    | (false, s') => s'

def htIterate (t : HashTable K V) (cb : K → V → σ → Bool × σ) (s : σ) : σ :=
  iterateBuckets cb t.buckets t.capacity 0 s

end SubscriberMgmt
