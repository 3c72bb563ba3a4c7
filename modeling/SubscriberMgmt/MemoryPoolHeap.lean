import SubscriberMgmt.MemoryPool
import SubscriberMgmt.Lib.ByteMemory
import SubscriberMgmt.Lib.Lists
import SubscriberMgmt.Lib.Machine
import Mathlib.Data.Finset.Card
import Mathlib.Order.Interval.Finset.Nat

/-!
# The slab allocator on a flat memory (`memory_pool.c`)

Here blocks are addresses, the free list is threaded through the first bytes of
the free blocks, and sizes and addresses are computed modulo `2 ^ 64`. What
`malloc` returns is part of the input of a call. Taking a lock succeeds.
-/

namespace SubscriberMgmt
open ByteMemory

/-- `sm_pool_slab_t`, with the number of bytes asked for. -/
structure PoolSlab where
  memory : ℕ
  bytes : ℕ

/-- `sm_memory_pool_t`; the newest slab comes first. -/
structure SmMemoryPool where
  blockSize : ℕ
  blocksPerSlab : ℕ
  freeList : ℕ
  slabs : List PoolSlab
  totalBlocks : ℕ
  usedBlocks : ℕ
  peakBlocks : ℕ
  allocCount : UInt64
  freeCount : UInt64
  allocFailures : UInt64

/-- The two allocations of `grow_pool`: the slab header and its memory. -/
structure GrowInput where
  slab : Bool
  memory : Option ℕ

namespace SmMemoryPool

def slabBytes (pool : SmMemoryPool) : ℕ := pool.blockSize * pool.blocksPerSlab % 2 ^ 64

def blockAt (pool : SmMemoryPool) (memory : ℕ) (i : ℕ) : ℕ :=
  (memory + i * pool.blockSize) % 2 ^ 64

def linkBlock (pool : SmMemoryPool) (memory : ℕ) (r : Memory × ℕ) (i : ℕ) :
    Memory × ℕ :=
  (store r.1 (pool.blockAt memory i) r.2 pointerSize, pool.blockAt memory i)

def growPool (heap : Memory) (pool : SmMemoryPool) (g : GrowInput) :
    SmStatus × Memory × SmMemoryPool :=
  if !g.slab then (.errAllocFailed, heap, pool)
  else
    match g.memory with
    | none => (.errAllocFailed, heap, pool)
    | some memory =>
      let r := (List.range pool.blocksPerSlab).foldl (pool.linkBlock memory) (heap, pool.freeList)
      (.ok, r.1,
        { pool with
          freeList := r.2
          slabs := ⟨memory, pool.slabBytes⟩ :: pool.slabs
          totalBlocks := (pool.totalBlocks + pool.blocksPerSlab) % 2 ^ 64 })

/-- The pool before its first slab. -/
def empty (blockSize blocksPerSlab : ℕ) : SmMemoryPool :=
  ⟨blockSize, blocksPerSlab, 0, [], 0, 0, 0, 0, 0, 0⟩

/-- `mempool_create`; `outPool` says whether `out_pool` is non-NULL, `poolOk` and `lockOk`
whether the pool is allocated and its lock initialised. -/
def mempoolCreate (heap : Memory) (blockSize blocksPerSlab : ℕ) (outPool poolOk lockOk : Bool)
    (g : GrowInput) : Except SmStatus (Memory × SmMemoryPool) :=
  if !outPool then .error .errNullParam
  else if blockSize < pointerSize ∨ blocksPerSlab = 0 then .error .errInvalidArg
  else if !poolOk then .error .errAllocFailed
  else if !lockOk then .error .errInternal
  else
    match growPool heap (empty blockSize blocksPerSlab) g with
    | (.ok, r) => .ok r
    | (st, _) => .error st

def takeBlock (heap : Memory) (pool : SmMemoryPool) : Memory × SmMemoryPool :=
  let used := (pool.usedBlocks + 1) % 2 ^ 64
  (fill heap pool.freeList pool.blockSize 0,
    { pool with
      freeList := load heap pool.freeList pointerSize
      usedBlocks := used
      allocCount := pool.allocCount + 1
      peakBlocks := if pool.peakBlocks < used then used else pool.peakBlocks })

/-- `mempool_alloc`; NULL is `none`. -/
def mempoolAlloc (heap : Memory) (pool : SmMemoryPool) (g : GrowInput) :
    Option ℕ × Memory × SmMemoryPool :=
  if pool.freeList = 0 then
    match growPool heap pool g with
    | (.ok, heap, pool) => (some pool.freeList, takeBlock heap pool)
    | (_, heap, pool) => (none, heap, { pool with allocFailures := pool.allocFailures + 1 })
  else (some pool.freeList, takeBlock heap pool)

def mempoolFree (heap : Memory) (pool : SmMemoryPool) (ptr : ℕ) : Memory × SmMemoryPool :=
  if ptr = 0 then (heap, pool)
  else
    (store (fill heap ptr pool.blockSize 0xDD) ptr pool.freeList pointerSize,
      { pool with
        freeList := ptr
        usedBlocks := if 0 < pool.usedBlocks then pool.usedBlocks - 1 else pool.usedBlocks
        freeCount := pool.freeCount + 1 })

/-! ### Where the blocks are -/

/-- The blocks that `grow_pool` makes of a slab. -/
def carve (pool : SmMemoryPool) (s : PoolSlab) : List ℕ :=
  (List.range pool.blocksPerSlab).map (pool.blockAt s.memory)

def carved (pool : SmMemoryPool) : List ℕ := pool.slabs.flatMap pool.carve

def withSlab (pool : SmMemoryPool) (s : PoolSlab) : SmMemoryPool :=
  { pool with slabs := s :: pool.slabs }

/-- The address of a block that is named by its slab and its position. -/
def addr (pool : SmMemoryPool) (b : Block) : ℕ :=
  (pool.slabs.reverse[b.slab]?).elim 0 fun s => pool.blockAt s.memory b.index

end SmMemoryPool

def PoolSlab.Apart (s t : PoolSlab) : Prop :=
  s.memory + s.bytes ≤ t.memory ∨ t.memory + t.bytes ≤ s.memory

/-- What `malloc` promises about the memory of a new slab. -/
def GrowInput.Fresh (g : GrowInput) (pool : SmMemoryPool) : Prop :=
  ∀ memory, g.memory = some memory → 0 < memory ∧ memory + pool.slabBytes ≤ 2 ^ 64 ∧
    ∀ s ∈ pool.slabs, PoolSlab.Apart ⟨memory, pool.slabBytes⟩ s

/-- Slabs of their full size, at places of their own. -/
structure SmMemoryPool.Layout (pool : SmMemoryPool) : Prop where
  size : pointerSize ≤ pool.blockSize
  fits : pool.blockSize * pool.blocksPerSlab < 2 ^ 64
  placed : ∀ s ∈ pool.slabs, s.bytes = pool.blockSize * pool.blocksPerSlab ∧ 0 < s.memory ∧
    s.memory + s.bytes ≤ 2 ^ 64
  apart : pool.slabs.Pairwise PoolSlab.Apart

/-- A block ends before the next one. -/
theorem block_end (blockSize : ℕ) {i j : ℕ} (hij : i < j) :
    i * blockSize + blockSize ≤ j * blockSize := by
  have hmul := Nat.mul_le_mul_right blockSize (Nat.succ_le_of_lt hij)
  rwa [Nat.succ_mul] at hmul

namespace SmMemoryPool.Layout

theorem congr {c c' : SmMemoryPool} (h : c.Layout) (hsize : c'.blockSize = c.blockSize)
    (hper : c'.blocksPerSlab = c.blocksPerSlab) (hslabs : c'.slabs = c.slabs) : c'.Layout := by
  refine ⟨?_, ?_, ?_, ?_⟩
  · rw [hsize]
    exact h.size
  · rw [hsize, hper]
    exact h.fits
  · rw [hsize, hper, hslabs]
    exact h.placed
  · rw [hslabs]
    exact h.apart

variable {pool : SmMemoryPool}

theorem slabBytes_eq (h : pool.Layout) :
    pool.slabBytes = pool.blockSize * pool.blocksPerSlab := Nat.mod_eq_of_lt h.fits

theorem blockAt_eq (h : pool.Layout) {s : PoolSlab} (hs : s ∈ pool.slabs) {i : ℕ}
    (hi : i < pool.blocksPerSlab) :
    pool.blockAt s.memory i = s.memory + i * pool.blockSize ∧
      s.memory + i * pool.blockSize + pool.blockSize ≤ s.memory + s.bytes := by
  obtain ⟨hbytes, hpos, hend⟩ := h.placed s hs
  have hblock := block_end pool.blockSize hi
  have hsize : 8 ≤ pool.blockSize := h.size
  rw [Nat.mul_comm] at hbytes
  have hlast : s.memory + i * pool.blockSize + pool.blockSize ≤ s.memory + s.bytes := by omega
  exact ⟨Nat.mod_eq_of_lt (by omega), hlast⟩

theorem apart_of (h : pool.Layout) {i j : ℕ} {s t : PoolSlab}
    (hs : pool.slabs.reverse[i]? = some s) (ht : pool.slabs.reverse[j]? = some t) (hij : i < j) :
    s.Apart t ∨ t.Apart s := by
  obtain ⟨hi, rfl⟩ := List.getElem?_eq_some_iff.mp hs
  obtain ⟨hj, rfl⟩ := List.getElem?_eq_some_iff.mp ht
  exact Or.inr (List.pairwise_iff_getElem.mp (List.pairwise_reverse.mpr h.apart) i j hi hj hij)

theorem addr_spec (h : pool.Layout) {b : Block} (hslab : b.slab < pool.slabs.length)
    (hindex : b.index < pool.blocksPerSlab) :
    ∃ s ∈ pool.slabs, pool.slabs.reverse[b.slab]? = some s ∧
      pool.addr b = s.memory + b.index * pool.blockSize ∧
      s.memory + b.index * pool.blockSize + pool.blockSize ≤ s.memory + s.bytes := by
  have hlt : b.slab < pool.slabs.reverse.length := by rwa [List.length_reverse]
  have hget := List.getElem?_eq_getElem hlt
  have hs : pool.slabs.reverse[b.slab] ∈ pool.slabs :=
    List.mem_reverse.mp (List.getElem_mem hlt)
  obtain ⟨hat, hend⟩ := h.blockAt_eq hs hindex
  refine ⟨_, hs, hget, ?_, hend⟩
  rw [addr, hget, Option.elim_some, hat]

theorem addr_bounds (h : pool.Layout) {b : Block} (hslab : b.slab < pool.slabs.length)
    (hindex : b.index < pool.blocksPerSlab) :
    0 < pool.addr b ∧ pool.addr b + pool.blockSize ≤ 2 ^ 64 := by
  obtain ⟨s, hs, -, haddr, hend⟩ := h.addr_spec hslab hindex
  obtain ⟨-, hpos, hlast⟩ := h.placed s hs
  omega

/-- Two blocks do not overlap. -/
theorem addr_apart (h : pool.Layout) {b c : Block} (hb : b.slab < pool.slabs.length)
    (hi : b.index < pool.blocksPerSlab) (hc : c.slab < pool.slabs.length)
    (hj : c.index < pool.blocksPerSlab) (hne : b ≠ c) :
    pool.addr b + pool.blockSize ≤ pool.addr c ∨
      pool.addr c + pool.blockSize ≤ pool.addr b := by
  obtain ⟨s, hs, hgs, hsb, hse⟩ := h.addr_spec hb hi
  obtain ⟨t, ht, hgt, htc, hte⟩ := h.addr_spec hc hj
  rcases Nat.lt_trichotomy b.slab c.slab with hlt | heq | hlt
  · have hst : s.Apart t ∨ t.Apart s := h.apart_of hgs hgt hlt
    unfold PoolSlab.Apart at hst
    omega
  · rw [heq, hgt] at hgs
    cases hgs
    have hindex : b.index ≠ c.index := fun he => hne (by
      cases b
      cases c
      simp_all)
    rcases Nat.lt_or_gt_of_ne hindex with hlt | hlt
    · have hend := block_end pool.blockSize hlt
      omega
    · have hend := block_end pool.blockSize hlt
      omega
  · have hst : t.Apart s ∨ s.Apart t := h.apart_of hgt hgs hlt
    unfold PoolSlab.Apart at hst
    omega

/-- The pool with one more slab. -/
theorem grown (h : pool.Layout) {memory : ℕ} (hpos : 0 < memory)
    (hend : memory + pool.slabBytes ≤ 2 ^ 64)
    (hapart : ∀ s ∈ pool.slabs, PoolSlab.Apart ⟨memory, pool.slabBytes⟩ s) :
    (pool.withSlab ⟨memory, pool.slabBytes⟩).Layout := by
  refine ⟨h.size, h.fits, fun s hs => ?_, List.pairwise_cons.mpr ⟨hapart, h.apart⟩⟩
  cases List.mem_cons.mp hs with
  | inl hs =>
    subst hs
    exact ⟨h.slabBytes_eq, hpos, hend⟩
  | inr hs => exact h.placed s hs

end SmMemoryPool.Layout

/-- An older block stays where it is. -/
theorem SmMemoryPool.addr_old (pool : SmMemoryPool) (s : PoolSlab) {b : Block}
    (hb : b.slab < pool.slabs.length) :
    (pool.withSlab s).addr b = pool.addr b := by
  have hlt : b.slab < pool.slabs.reverse.length := by rwa [List.length_reverse]
  simp only [addr, withSlab, List.reverse_cons, List.getElem?_append_left hlt]
  rfl

theorem SmMemoryPool.addr_new (pool : SmMemoryPool) (s : PoolSlab) (i : ℕ) :
    (pool.withSlab s).addr ⟨pool.slabs.length, i⟩ = pool.blockAt s.memory i := by
  have hge : pool.slabs.reverse.length ≤ pool.slabs.length := by rw [List.length_reverse]
  simp only [addr, withSlab, List.reverse_cons, List.getElem?_append_right hge, List.length_reverse,
    Nat.sub_self, List.getElem?_cons_zero, Option.elim_some]
  rfl

/-! ### The named blocks and the addresses -/

/-- The allocations of the pool of named blocks. -/
def GrowInput.alloc (g : GrowInput) : Alloc := fun i => if i = 0 then g.slab else g.memory.isSome

/-- The pool `c` on the memory `heap` is the pool `p` of named blocks. -/
structure Refines (heap : Memory) (c : SmMemoryPool) (p : MemPool) : Prop where
  layout : c.Layout
  blockSize : c.blockSize = p.blockSize
  blocksPerSlab : c.blocksPerSlab = p.blocksPerSlab
  slabs : c.slabs.length = p.slabs
  freeList : Linked pointerSize heap c.freeList (p.freeList.map c.addr)
  total : c.totalBlocks = p.totalBlocks
  used : c.usedBlocks = p.usedBlocks
  peak : c.peakBlocks = p.peakBlocks
  allocs : c.allocCount = UInt64.ofNat p.allocCount
  frees : c.freeCount = UInt64.ofNat p.freeCount
  failures : c.allocFailures = UInt64.ofNat p.allocFailures

/-- The counters of a pool agree with each other. -/
structure MemPool.Counted (p : MemPool) : Prop where
  total : p.totalBlocks = p.slabs * p.blocksPerSlab
  used : p.allocCount = p.freeCount + p.usedBlocks

theorem MemPool.blocks_length (p : MemPool) : p.blocks.length = p.slabs * p.blocksPerSlab := by
  simp only [MemPool.blocks, slabBlocks, List.length_flatMap, List.length_map, List.length_range,
    List.map_const', List.sum_replicate_nat]

/-- All blocks are in the address space, so there are few of them. -/
theorem SmMemoryPool.Layout.few {c : SmMemoryPool} (h : c.Layout) {p : MemPool}
    (hslabs : c.slabs.length = p.slabs) (hper : c.blocksPerSlab = p.blocksPerSlab) :
    p.slabs * p.blocksPerSlab < 2 ^ 64 := by
  have hvalid : ∀ b ∈ p.blocks, b.slab < c.slabs.length ∧ b.index < c.blocksPerSlab := by
    intro b hb
    rw [hslabs, hper]
    exact mem_blocks.mp hb
  have hsize : 8 ≤ c.blockSize := h.size
  have hnodup : (p.blocks.map c.addr).Nodup := by
    apply (blocks_nodup p).map_on
    intro a ha b hb heq
    by_contra hne
    have hapart := h.addr_apart (hvalid a ha).1 (hvalid a ha).2 (hvalid b hb).1 (hvalid b hb).2 hne
    omega
  have hsub : (p.blocks.map c.addr).toFinset ⊆ Finset.Ico 1 (2 ^ 64) := by
    intro x hx
    obtain ⟨b, hb, rfl⟩ := List.mem_map.mp (List.mem_toFinset.mp hx)
    obtain ⟨hpos, hend⟩ := h.addr_bounds (hvalid b hb).1 (hvalid b hb).2
    exact Finset.mem_Ico.mpr ⟨hpos, by omega⟩
  have hcard := Finset.card_le_card hsub
  rw [List.toFinset_card_of_nodup hnodup, List.length_map, Nat.card_Ico, p.blocks_length] at hcard
  omega

namespace Refines

variable {heap : Memory} {c : SmMemoryPool} {p : MemPool} {held : List Block}

theorem valid (h : Refines heap c p) {b : Block} (hb : b ∈ p.blocks) :
    b.slab < c.slabs.length ∧ b.index < c.blocksPerSlab := by
  rw [h.slabs, h.blocksPerSlab]
  exact mem_blocks.mp hb

theorem apart (h : Refines heap c p) {a b : Block} (ha : a ∈ p.blocks) (hb : b ∈ p.blocks)
    (hne : a ≠ b) : c.addr a + c.blockSize ≤ c.addr b ∨ c.addr b + c.blockSize ≤ c.addr a := by
  obtain ⟨ha1, ha2⟩ := h.valid ha
  obtain ⟨hb1, hb2⟩ := h.valid hb
  exact h.layout.addr_apart ha1 ha2 hb1 hb2 hne

theorem bounds (h : Refines heap c p) {b : Block} (hb : b ∈ p.blocks) :
    0 < c.addr b ∧ c.addr b + c.blockSize ≤ 2 ^ 64 := by
  obtain ⟨h1, h2⟩ := h.valid hb
  exact h.layout.addr_bounds h1 h2

theorem size (h : Refines heap c p) : 8 ≤ c.blockSize := h.layout.size

theorem addr_inj (h : Refines heap c p) {a b : Block} (ha : a ∈ p.blocks) (hb : b ∈ p.blocks)
    (heq : c.addr a = c.addr b) : a = b := by
  by_contra hne
  have hapart := h.apart ha hb hne
  have hsize := h.size
  omega

/-- All blocks are in the address space, so there are few of them. -/
theorem few (h : Refines heap c p) : p.slabs * p.blocksPerSlab < 2 ^ 64 :=
  h.layout.few h.slabs h.blocksPerSlab

theorem free_mem (ho : p.Owned held) {b : Block} (hb : b ∈ p.freeList) : b ∈ p.blocks :=
  ho.parts.mem_iff.mp (List.mem_append_left _ hb)

theorem held_mem (ho : p.Owned held) {b : Block} (hb : b ∈ held) : b ∈ p.blocks :=
  ho.parts.mem_iff.mp (List.mem_append_right _ hb)

/-- The blocks of a new slab are linked one after the other. -/
theorem linkBlocks (h : Refines heap c p) (ho : p.Owned held) {memory : ℕ}
    (hl : (c.withSlab ⟨memory, c.slabBytes⟩).Layout) {n : ℕ} (hn : n ≤ c.blocksPerSlab) :
    let r := (List.range n).foldl (c.linkBlock memory) (heap, c.freeList)
    Linked pointerSize r.1 r.2 ((threadBlocks p.slabs n p.freeList).map
      (c.withSlab ⟨memory, c.slabBytes⟩).addr) := by
  have hnew := c.addr_new ⟨memory, c.slabBytes⟩
  have hold := fun b => c.addr_old ⟨memory, c.slabBytes⟩ (b := b)
  have hlen : (c.withSlab ⟨memory, c.slabBytes⟩).slabs.length = c.slabs.length + 1 := rfl
  have hper : (c.withSlab ⟨memory, c.slabBytes⟩).blocksPerSlab = c.blocksPerSlab := rfl
  have hsize : 8 ≤ (c.withSlab ⟨memory, c.slabBytes⟩).blockSize := h.size
  generalize c.withSlab ⟨memory, c.slabBytes⟩ = c' at hl hnew hold hlen hper hsize ⊢
  rw [← h.slabs]
  induction n with
  | zero =>
    have hmap : p.freeList.map c'.addr = p.freeList.map c.addr :=
      List.map_congr_left fun b hb => hold b (h.valid (free_mem ho hb)).1
    have hlist := h.freeList
    rwa [← hmap] at hlist
  | succ n ih =>
    have ih := ih (by omega)
    -- the blocks that are linked already
    have hvalid : ∀ b ∈ threadBlocks c.slabs.length n p.freeList, b.slab < c'.slabs.length ∧
        b.index < c'.blocksPerSlab ∧ b ≠ ⟨c.slabs.length, n⟩ := by
      intro b hb
      have hmem := (threadBlocks_perm c.slabs.length n p.freeList).mem_iff.mp hb
      rw [hlen, hper]
      cases List.mem_append.mp hmem with
      | inl hb =>
        obtain ⟨h1, h2⟩ := h.valid (free_mem ho hb)
        refine ⟨by omega, h2, fun he => ?_⟩
        rw [he] at h1
        exact lt_irrefl _ h1
      | inr hb =>
        obtain ⟨i, hi, rfl⟩ := List.mem_map.mp hb
        have hlt := List.mem_range.mp hi
        refine ⟨Nat.lt_succ_self _, by dsimp only; omega, fun he => ?_⟩
        cases he
        exact lt_irrefl _ hlt
    have hslab : c.slabs.length < c'.slabs.length := by omega
    have hindex : n < c'.blocksPerSlab := by omega
    have hpos := (hl.addr_bounds (b := ⟨c.slabs.length, n⟩) hslab hindex).1
    have hhead : ∀ head, Linked pointerSize
        ((List.range n).foldl (c.linkBlock memory) (heap, c.freeList)).1 head
        ((threadBlocks c.slabs.length n p.freeList).map c'.addr) → head < 256 ^ pointerSize := by
      intro head hlinked
      have hpow : 256 ^ pointerSize = 2 ^ 64 := rfl
      rw [hpow]
      by_cases hzero : head = 0
      · omega
      · obtain ⟨b, hb, rfl⟩ := List.mem_map.mp (hlinked.head_mem hzero)
        obtain ⟨h1, h2, -⟩ := hvalid b hb
        have hend := (hl.addr_bounds h1 h2).2
        omega
    have hdisj : ∀ a ∈ (threadBlocks c.slabs.length n p.freeList).map c'.addr,
        a + pointerSize ≤ c'.addr ⟨c.slabs.length, n⟩ ∨
          c'.addr ⟨c.slabs.length, n⟩ + pointerSize ≤ a := by
      intro a ha
      obtain ⟨b, hb, rfl⟩ := List.mem_map.mp ha
      obtain ⟨h1, h2, hne⟩ := hvalid b hb
      have hapart := hl.addr_apart h1 h2 hslab hindex hne
      simp only [pointerSize]
      omega
    have hpush := ih.push hpos.ne' (hhead _ ih) hdisj
    rw [hnew] at hpush
    simp only [List.range_succ, List.foldl_append, List.foldl_cons, List.foldl_nil,
      threadBlocks_succ, List.map_cons, hnew]
    exact hpush

/-- A slab is added in both pools, or in none. -/
theorem grow (h : Refines heap c p) (ho : p.Owned held) (hc : p.Counted) {g : GrowInput}
    (hg : g.Fresh c) :
    let r := c.growPool heap g
    let q := growPool p g.alloc
    r.1 = q.1 ∧ Refines r.2.1 r.2.2 q.2 ∧ q.2.Counted ∧
      (∀ b ∈ p.blocks, r.2.2.addr b = c.addr b) ∧ (q.1 = .ok → q.2.freeList ≠ []) ∧
      (q.1 ≠ .ok → (g.slab = false ∨ g.memory = none) ∧ r.2 = (heap, c) ∧ q.2 = p) := by
  intro r q
  obtain ⟨slab, memory⟩ := g
  cases slab with
  | false =>
    exact ⟨rfl, h, hc, fun _ _ => rfl, fun hok => (by cases hok),
      fun _ => ⟨Or.inl rfl, rfl, rfl⟩⟩
  | true =>
    cases memory with
    | none =>
      exact ⟨rfl, h, hc, fun _ _ => rfl, fun hok => (by cases hok),
        fun _ => ⟨Or.inr rfl, rfl, rfl⟩⟩
    | some memory =>
      obtain ⟨hpos, hend, hapart⟩ := hg memory rfl
      have hl := h.layout.grown hpos hend hapart
      have hlink := h.linkBlocks ho hl le_rfl
      have hslabs : (c.withSlab ⟨memory, c.slabBytes⟩).slabs.length = q.2.slabs :=
        congrArg (· + 1) h.slabs
      have hfew := hl.few hslabs h.blocksPerSlab
      have hcounted : q.2.Counted := by
        refine ⟨?_, hc.used⟩
        have htotal : q.2.totalBlocks = p.totalBlocks + p.blocksPerSlab := rfl
        have hmul : (p.slabs + 1) * p.blocksPerSlab =
            p.slabs * p.blocksPerSlab + p.blocksPerSlab := Nat.succ_mul _ _
        rw [htotal, hc.total]
        exact hmul.symm
      refine ⟨rfl, ⟨⟨hl.size, hl.fits, hl.placed, hl.apart⟩, h.blockSize, h.blocksPerSlab, hslabs,
        ?_, ?_, h.used, h.peak, h.allocs, h.frees, h.failures⟩, hcounted, fun b hb => ?_,
        fun _ => ?_, fun hne => absurd rfl hne⟩
      · have hfree : q.2.freeList = threadBlocks p.slabs c.blocksPerSlab p.freeList := by
          rw [h.blocksPerSlab]
          rfl
        rw [hfree]
        exact hlink
      · have htotal : q.2.totalBlocks = p.totalBlocks + p.blocksPerSlab := rfl
        have hnew : r.2.2.totalBlocks = (c.totalBlocks + c.blocksPerSlab) % 2 ^ 64 := rfl
        have hcount := hcounted.total
        rw [htotal] at hcount
        rw [hnew, htotal, h.total, h.blocksPerSlab]
        exact Nat.mod_eq_of_lt (by omega)
      · exact c.addr_old ⟨memory, c.slabBytes⟩ (h.valid hb).1
      · have hne : threadBlocks p.slabs p.blocksPerSlab p.freeList ≠ [] := by
          intro hnil
          have hperm := threadBlocks_perm p.slabs p.blocksPerSlab p.freeList
          rw [hnil] at hperm
          have hlen := hperm.length_eq
          have hpos := ho.nonempty
          simp only [slabBlocks, List.length_nil, List.length_append, List.length_map,
            List.length_range] at hlen
          omega
        exact hne

theorem head_lt (h : Refines heap c p) (ho : p.Owned held) : c.freeList < 256 ^ pointerSize := by
  have hpow : 256 ^ pointerSize = 2 ^ 64 := rfl
  rw [hpow]
  by_cases hzero : c.freeList = 0
  · omega
  · obtain ⟨b, hb, he⟩ := List.mem_map.mp (h.freeList.head_mem hzero)
    have hend := (h.bounds (free_mem ho hb)).2
    have hsize := h.size
    omega

/-- A held block may change, as no free block lies in it. -/
theorem held_agree (h : Refines heap c p) (ho : p.Owned held) {b : Block} (hb : b ∈ held) {x : ℕ}
    (hx : x ∈ p.freeList.map c.addr) :
    x + pointerSize ≤ c.addr b ∨ c.addr b + c.blockSize ≤ x := by
  obtain ⟨f, hf, rfl⟩ := List.mem_map.mp hx
  have hne : f ≠ b := fun he => ho.not_free hb (he ▸ hf)
  have hapart := h.apart (free_mem ho hf) (held_mem ho hb) hne
  have hsize := h.size
  simp only [pointerSize]
  omega

theorem write (h : Refines heap c p) (ho : p.Owned held) {b : Block} (hb : b ∈ held) {a : ℕ}
    (hlo : c.addr b ≤ a) (hhi : a < c.addr b + c.blockSize) (v : UInt8) :
    Refines (Function.update heap a v) c p := by
  refine { h with freeList := h.freeList.keep fun x hx => update_agree heap v ?_ }
  have hapart := h.held_agree ho hb hx
  omega

/-- What a block that is given out leaves as it is. -/
theorem takeBlock_frame (c : SmMemoryPool) (heap : Memory) :
    (c.takeBlock heap).2.blockSize = c.blockSize ∧
      (c.takeBlock heap).2.blocksPerSlab = c.blocksPerSlab ∧
      (c.takeBlock heap).2.slabs = c.slabs ∧
      (c.takeBlock heap).2.totalBlocks = c.totalBlocks ∧
      (c.takeBlock heap).2.freeCount = c.freeCount ∧
      (c.takeBlock heap).2.allocFailures = c.allocFailures := by
  simp only [SmMemoryPool.takeBlock, and_self]

theorem addr_takeBlock (c : SmMemoryPool) (heap : Memory) (b : Block) :
    (c.takeBlock heap).2.addr b = c.addr b := by
  simp only [SmMemoryPool.addr, SmMemoryPool.takeBlock, SmMemoryPool.blockAt]

theorem take (h : Refines heap c p) (ho : p.Owned held) (hc : p.Counted)
    (hne : p.freeList ≠ []) :
    ∃ b ∈ p.freeList, (takeBlock p).1 = some b ∧ c.freeList = c.addr b ∧
      Refines (c.takeBlock heap).1 (c.takeBlock heap).2 (takeBlock p).2 ∧
      (takeBlock p).2.Counted := by
  obtain ⟨b, rest, hfree⟩ := List.exists_cons_of_ne_nil hne
  have hb : b ∈ p.freeList := by
    rw [hfree]
    exact List.mem_cons_self ..
  have hlist := h.freeList
  rw [hfree, List.map_cons] at hlist
  obtain ⟨hhead, hpos, hrest⟩ := hlist
  have hnodup := ho.nodup
  rw [hfree, List.cons_append] at hnodup
  have hsize := h.size
  -- a free block is left, so fewer than all are in use
  have hused : p.usedBlocks + 1 < 2 ^ 64 := by
    have hlen := ho.parts.length_eq
    have hfew := h.few
    rw [List.length_append, p.blocks_length, ← ho.used, hfree, List.length_cons] at hlen
    omega
  have hkeep : Linked pointerSize (fill heap c.freeList c.blockSize 0)
      (load heap c.freeList pointerSize) (rest.map c.addr) := by
    rw [hhead]
    refine hrest.keep fun x hx => fill_agree heap 0 ?_
    obtain ⟨f, hf, rfl⟩ := List.mem_map.mp hx
    have hmem : f ∈ p.freeList := by
      rw [hfree]
      exact List.mem_cons_of_mem _ hf
    have hfb : f ≠ b := fun he =>
      (List.nodup_cons.mp hnodup).1 (List.mem_append_left _ (he ▸ hf))
    have hapart := h.apart (free_mem ho hmem) (free_mem ho hb) hfb
    simp only [pointerSize]
    omega
  have htake : takeBlock p = (some b, { p with
      freeList := rest
      usedBlocks := p.usedBlocks + 1
      allocCount := p.allocCount + 1
      peakBlocks := max p.peakBlocks (p.usedBlocks + 1) }) := by
    simp only [takeBlock, hfree]
  have hcount : (c.usedBlocks + 1) % 2 ^ 64 = p.usedBlocks + 1 := by
    rw [h.used]
    exact Nat.mod_eq_of_lt hused
  refine ⟨b, hb, by rw [htake], hhead, ?_, ?_⟩
  · rw [htake]
    obtain ⟨hsz, hper, hslabs, htotal, hfrees, hfails⟩ := takeBlock_frame c heap
    refine ⟨h.layout.congr hsz hper hslabs, hsz.trans h.blockSize, hper.trans h.blocksPerSlab,
      (congrArg _ hslabs).trans h.slabs, ?_, htotal.trans h.total, ?_, ?_, ?_,
      hfrees.trans h.frees, hfails.trans h.failures⟩
    · simp only [List.map_congr_left fun f _ => addr_takeBlock c heap f]
      exact hkeep
    · simp only [SmMemoryPool.takeBlock, hcount]
    · simp only [SmMemoryPool.takeBlock, h.peak, hcount]
      split <;> omega
    · simp only [SmMemoryPool.takeBlock, h.allocs, UInt64.ofNat_add]
      rfl
  · rw [htake]
    refine ⟨hc.total, ?_⟩
    have hused' := hc.used
    dsimp only
    omega

theorem release (h : Refines heap c p) (ho : p.Owned held) (hc : p.Counted) {b : Block}
    {rest : List Block} (hb : held.Perm (b :: rest)) :
    let r := c.mempoolFree heap (c.addr b)
    Refines r.1 r.2 (mempoolFree p b) ∧ (mempoolFree p b).Counted := by
  intro r
  have hmem : b ∈ held := hb.mem_iff.mpr (List.mem_cons_self ..)
  have hpos := (h.bounds (held_mem ho hmem)).1
  have hr : r = (store (fill heap (c.addr b) c.blockSize 0xDD) (c.addr b) c.freeList pointerSize,
      { c with
        freeList := c.addr b
        usedBlocks := if 0 < c.usedBlocks then c.usedBlocks - 1 else c.usedBlocks
        freeCount := c.freeCount + 1 }) := if_neg hpos.ne'
  have hfilled : Linked pointerSize (fill heap (c.addr b) c.blockSize 0xDD) c.freeList
      (p.freeList.map c.addr) :=
    h.freeList.keep fun x hx => fill_agree heap 0xDD (h.held_agree ho hmem hx)
  have hpush := hfilled.push hpos.ne' (h.head_lt ho) fun x hx => by
    have hapart := h.held_agree ho hmem hx
    have hsize := h.size
    simp only [pointerSize] at hapart ⊢
    omega
  have hused : 0 < p.usedBlocks := by
    rw [ho.used, hb.length_eq, List.length_cons]
    omega
  rw [hr]
  refine ⟨⟨h.layout.congr rfl rfl rfl, h.blockSize, h.blocksPerSlab, h.slabs, hpush, h.total, ?_,
    h.peak, h.allocs, ?_, h.failures⟩, hc.total, ?_⟩
  · simp only [mempoolFree, h.used]
  · simp only [mempoolFree, h.frees, UInt64.ofNat_add]
    rfl
  · have hcount := hc.used
    simp only [mempoolFree, if_pos hused]
    omega

theorem failed (h : Refines heap c p) :
    Refines heap { c with allocFailures := c.allocFailures + 1 }
      { p with allocFailures := p.allocFailures + 1 } := by
  refine ⟨h.layout.congr rfl rfl rfl, h.blockSize, h.blocksPerSlab, h.slabs, h.freeList, h.total,
    h.used, h.peak, h.allocs, h.frees, ?_⟩
  simp only [h.failures, UInt64.ofNat_add]
  rfl

/-- `mempool_alloc` gives out the address of the block that the pool of named blocks gives out. -/
theorem alloc (h : Refines heap c p) (ho : p.Owned held) (hc : p.Counted) {g : GrowInput}
    (hg : g.Fresh c) :
    let r := c.mempoolAlloc heap g
    let q := mempoolAlloc p g.alloc
    r.1 = q.1.map r.2.2.addr ∧ Refines r.2.1 r.2.2 q.2 ∧ q.2.Counted ∧
      (∀ b ∈ p.blocks, r.2.2.addr b = c.addr b) ∧
      (r.1 = none → c.freeList = 0 ∧ (g.slab = false ∨ g.memory = none) ∧
        r.2 = (heap, { c with allocFailures := c.allocFailures + 1 })) := by
  intro r q
  have hempty : c.freeList = 0 ↔ p.freeList = [] := by
    rw [h.freeList.head_zero, List.map_eq_nil_iff]
  by_cases hzero : c.freeList = 0
  · have hnil := hempty.mp hzero
    have hr : r = match c.growPool heap g with
        | (.ok, heap, pool) => (some pool.freeList, pool.takeBlock heap)
        | (_, heap, pool) => (none, heap, { pool with allocFailures := pool.allocFailures + 1 }) :=
      if_pos hzero
    have hgrown := ho.grow g.alloc
    obtain ⟨hst, href, hcount, hsame, hne, hfail⟩ := h.grow ho hc hg
    rw [hr]
    rcases hgc : c.growPool heap g with ⟨st, heap', c'⟩
    rcases hgp : growPool p g.alloc with ⟨st', p'⟩
    rw [hgc] at hst href hsame hfail
    rw [hgp] at hst href hcount hne hfail hgrown
    dsimp only at hst href hcount hne hfail hgrown hsame
    subst hst
    by_cases hok : st = .ok
    · subst hok
      have hq : q = takeBlock p' := mempoolAlloc_grown hnil hgp
      rw [hq]
      obtain ⟨b, -, hb, hhead, htake, hcount'⟩ := href.take hgrown hcount (hne rfl)
      refine ⟨?_, htake, hcount', fun x hx => ?_, fun hnone => by cases hnone⟩
      · simp only [hb, hhead, Option.map_some, addr_takeBlock]
      · exact (addr_takeBlock c' heap' x).trans (hsame x hx)
    · obtain ⟨hwhy, hsame', rfl⟩ := hfail hok
      cases hsame'
      have hq : q = (none, { p' with allocFailures := p'.allocFailures + 1 }) :=
        mempoolAlloc_failed hnil hgp hok
      rw [hq]
      cases st with
      | ok => exact absurd rfl hok
      | _ =>
        exact ⟨rfl, h.failed, ⟨hc.total, hc.used⟩, fun _ _ => rfl, fun _ => ⟨hzero, hwhy, rfl⟩⟩
  · have hne : p.freeList ≠ [] := fun hnil => hzero (hempty.mpr hnil)
    obtain ⟨b, -, hb, hhead, htake, hcount⟩ := h.take ho hc hne
    have hr : r = (some c.freeList, c.takeBlock heap) := if_neg hzero
    have hq : q = takeBlock p := by
      simp only [q, mempoolAlloc, List.isEmpty_iff, if_neg hne]
    rw [hr, hq]
    refine ⟨?_, htake, hcount, fun x _ => addr_takeBlock c heap x, fun hnone => by cases hnone⟩
    simp only [hb, hhead, Option.map_some, addr_takeBlock]

end Refines

end SubscriberMgmt
