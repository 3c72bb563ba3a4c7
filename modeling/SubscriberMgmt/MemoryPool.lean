import SubscriberMgmt.Common
import Mathlib.Data.List.Perm.Basic
import Mathlib.Data.List.Nodup
import Mathlib.Data.List.ProdSigma

/-!
# Slab allocator (`memory_pool.c`)

A block is named by its slab and its position in the slab, the slabs being
numbered in the order of allocation. The intrusive free list is a list of
blocks. The contents of the blocks belong to the users of the pool.
-/

namespace SubscriberMgmt

structure Block where
  slab : ℕ
  index : ℕ
  deriving DecidableEq, Repr

structure MemPool where
  blockSize : ℕ
  blocksPerSlab : ℕ
  freeList : List Block
  slabs : ℕ
  totalBlocks : ℕ
  usedBlocks : ℕ
  peakBlocks : ℕ
  allocCount : ℕ
  freeCount : ℕ
  allocFailures : ℕ

def threadBlocks (slab n : ℕ) (freeList : List Block) : List Block :=
  (List.range n).foldl (fun fl i => ⟨slab, i⟩ :: fl) freeList

/-- `grow_pool`; allocation 0 is the slab header, allocation 1 its memory. -/
def growPool (pool : MemPool) (a : Alloc) : SmStatus × MemPool :=
  if !a 0 then (.errAllocFailed, pool)
  else if !a 1 then (.errAllocFailed, pool)
  else (.ok,
    { pool with
      freeList := threadBlocks pool.slabs pool.blocksPerSlab pool.freeList
      slabs := pool.slabs + 1
      totalBlocks := pool.totalBlocks + pool.blocksPerSlab })

/-- `sizeof(void *)` -/
def pointerSize : ℕ := 8

/-- `mempool_create`; allocation 0 is the pool, then those of `grow_pool`. -/
def mempoolCreate (blockSize blocksPerSlab : ℕ) (a : Alloc) : Except SmStatus MemPool :=
  if blockSize < pointerSize ∨ blocksPerSlab = 0 then .error .errInvalidArg
  else if !a 0 then .error .errAllocFailed
  else
    let pool : MemPool := ⟨blockSize, blocksPerSlab, [], 0, 0, 0, 0, 0, 0, 0⟩
    match growPool pool (a.skip 1) with
    | (.ok, pool) => .ok pool
    | (st, _) => .error st

def takeBlock (pool : MemPool) : Option Block × MemPool :=
  match pool.freeList with
  | [] => (none, pool)
  | blk :: rest =>
    (some blk,
      { pool with
        freeList := rest
        usedBlocks := pool.usedBlocks + 1
        allocCount := pool.allocCount + 1
        peakBlocks := max pool.peakBlocks (pool.usedBlocks + 1) })

/-- `mempool_alloc`; the allocations are those of `grow_pool`. -/
def mempoolAlloc (pool : MemPool) (a : Alloc) : Option Block × MemPool :=
  if pool.freeList.isEmpty then
    match growPool pool a with
    | (.ok, pool) => takeBlock pool
    | (_, pool) => (none, { pool with allocFailures := pool.allocFailures + 1 })
  else takeBlock pool

theorem mempoolAlloc_grown {pool pool' : MemPool} {a : Alloc} (hempty : pool.freeList = [])
    (h : growPool pool a = (.ok, pool')) : mempoolAlloc pool a = takeBlock pool' := by
  simp only [mempoolAlloc, hempty, List.isEmpty_nil, if_true, h]

theorem mempoolAlloc_failed {pool pool' : MemPool} {a : Alloc} {st : SmStatus}
    (hempty : pool.freeList = []) (h : growPool pool a = (st, pool')) (hst : st ≠ .ok) :
    mempoolAlloc pool a = (none, { pool' with allocFailures := pool'.allocFailures + 1 }) := by
  simp only [mempoolAlloc, hempty, List.isEmpty_nil, if_true, h]

def mempoolFree (pool : MemPool) (blk : Block) : MemPool :=
  { pool with
    freeList := blk :: pool.freeList
    usedBlocks := if 0 < pool.usedBlocks then pool.usedBlocks - 1 else pool.usedBlocks
    freeCount := pool.freeCount + 1 }

/-! ### Ownership of the blocks -/

def slabBlocks (n slab : ℕ) : List Block := (List.range n).map fun i => ⟨slab, i⟩

def MemPool.blocks (pool : MemPool) : List Block :=
  (List.range pool.slabs).flatMap (slabBlocks pool.blocksPerSlab)

/-- Every block is either free or held by a client, and none is both. -/
structure MemPool.Owned (pool : MemPool) (held : List Block) : Prop where
  nonempty : 0 < pool.blocksPerSlab
  parts : (pool.freeList ++ held).Perm pool.blocks
  used : pool.usedBlocks = held.length

theorem blocks_nodup (pool : MemPool) : pool.blocks.Nodup := by
  refine List.nodup_flatMap.mpr ⟨fun s _ => ?_, ?_⟩
  · exact List.nodup_range.map fun i j h => (Block.mk.inj h).2
  · refine List.nodup_range.imp fun {s t} hst => ?_
    simp only [Function.onFun, List.disjoint_left, slabBlocks, List.mem_map]
    intro b h h'
    obtain ⟨i, -, rfl⟩ := h
    obtain ⟨j, -, h⟩ := h'
    exact hst (Block.mk.inj h).1.symm

theorem mem_blocks {pool : MemPool} {b : Block} :
    b ∈ pool.blocks ↔ b.slab < pool.slabs ∧ b.index < pool.blocksPerSlab := by
  simp only [MemPool.blocks, slabBlocks, List.mem_flatMap, List.mem_map, List.mem_range]
  constructor
  · intro h
    obtain ⟨s, hs, i, hi, rfl⟩ := h
    exact ⟨hs, hi⟩
  · intro h
    exact ⟨b.slab, h.1, b.index, h.2, rfl⟩

theorem threadBlocks_succ (slab n : ℕ) (fl : List Block) :
    threadBlocks slab (n + 1) fl = ⟨slab, n⟩ :: threadBlocks slab n fl := by
  simp [threadBlocks, List.range_succ]

theorem threadBlocks_perm (slab n : ℕ) (fl : List Block) :
    (threadBlocks slab n fl).Perm (fl ++ slabBlocks n slab) := by
  induction n with
  | zero => simp [threadBlocks, slabBlocks]
  | succ n ih =>
    have h1 := threadBlocks_succ slab n fl
    have h2 : slabBlocks (n + 1) slab = slabBlocks n slab ++ [⟨slab, n⟩] := by
      simp [slabBlocks, List.range_succ]
    rw [h1, h2, ← List.append_assoc]
    exact (ih.cons _).trans (List.perm_append_singleton _ _).symm

namespace MemPool.Owned

variable {pool : MemPool} {held : List Block}

theorem perm (h : pool.Owned held) {held' : List Block} (hp : held.Perm held') :
    pool.Owned held' :=
  ⟨h.nonempty, (hp.symm.append_left _).trans h.parts, h.used.trans hp.length_eq⟩

theorem nodup (h : pool.Owned held) : (pool.freeList ++ held).Nodup :=
  h.parts.nodup_iff.mpr (blocks_nodup pool)

theorem held_nodup (h : pool.Owned held) : held.Nodup := (List.nodup_append.mp h.nodup).2.1

theorem not_free (h : pool.Owned held) {b : Block} (hb : b ∈ held) : b ∉ pool.freeList :=
  fun hf => (List.nodup_append.mp h.nodup).2.2 b hf b hb rfl

theorem grow (h : pool.Owned held) (a : Alloc) : (growPool pool a).2.Owned held := by
  unfold growPool
  split
  · exact h
  · split
    · exact h
    · refine ⟨h.nonempty, ?_, h.used⟩
      have hb : (pool.blocks ++ slabBlocks pool.blocksPerSlab pool.slabs) =
          (List.range (pool.slabs + 1)).flatMap (slabBlocks pool.blocksPerSlab) := by
        simp [MemPool.blocks, List.range_succ]
      have ht := (threadBlocks_perm pool.slabs pool.blocksPerSlab pool.freeList).append_right held
      apply ht.trans
      simp only [MemPool.blocks] at hb ⊢
      rw [← hb, List.append_assoc]
      have hc : (pool.freeList ++ (slabBlocks pool.blocksPerSlab pool.slabs ++ held)).Perm
          ((pool.freeList ++ held) ++ slabBlocks pool.blocksPerSlab pool.slabs) := by
        rw [List.append_assoc]
        exact List.perm_append_comm.append_left _
      exact hc.trans (h.parts.append_right _)

theorem take (h : pool.Owned held) {b : Block} (hb : (takeBlock pool).1 = some b) :
    (takeBlock pool).2.Owned (b :: held) := by
  unfold takeBlock at hb ⊢
  cases hf : pool.freeList with
  | nil => simp [hf] at hb
  | cons c rest =>
    simp only [hf, Option.some.injEq] at hb
    subst hb
    have hp := h.parts
    rw [hf] at hp
    refine ⟨h.nonempty, ?_, ?_⟩
    · exact List.perm_middle.trans hp
    · simp only [h.used, List.length_cons]

theorem release (h : pool.Owned held) {b : Block} {rest : List Block}
    (hb : held.Perm (b :: rest)) : (mempoolFree pool b).Owned rest := by
  refine ⟨h.nonempty, ?_, ?_⟩
  · exact List.perm_middle.symm.trans ((hb.symm.append_left _).trans h.parts)
  · have hlen := hb.length_eq
    have hu := h.used
    simp only [mempoolFree, List.length_cons] at hlen ⊢
    split <;> omega

end MemPool.Owned

theorem mempoolAlloc_spec {pool : MemPool} {held : List Block} (h : pool.Owned held) (a : Alloc) :
    ((mempoolAlloc pool a).1 = none ∧ (mempoolAlloc pool a).2.Owned held) ∨
    ∃ b, (mempoolAlloc pool a).1 = some b ∧ (mempoolAlloc pool a).2.Owned (b :: held) := by
  have htake : ∀ p : MemPool, p.Owned held →
      ((takeBlock p).1 = none ∧ (takeBlock p).2.Owned held) ∨
      ∃ b, (takeBlock p).1 = some b ∧ (takeBlock p).2.Owned (b :: held) := by
    intro p hp
    cases hb : (takeBlock p).1 with
    | some b => exact Or.inr ⟨b, rfl, hp.take hb⟩
    | none =>
      refine Or.inl ⟨rfl, ?_⟩
      unfold takeBlock at hb ⊢
      cases hf : p.freeList with
      | nil => exact hp
      | cons c rest => simp [hf] at hb
  have hg := h.grow a
  unfold mempoolAlloc
  split
  · rcases hgr : growPool pool a with ⟨st, p⟩
    rw [hgr] at hg
    cases st with
    | ok => exact htake p hg
    | _ => exact Or.inl ⟨rfl, hg.nonempty, hg.parts, hg.used⟩
  · exact htake pool h

theorem mempoolAlloc_all {pool : MemPool} (hn : 0 < pool.blocksPerSlab) {a : Alloc}
    (ha : ∀ i < 2, a i = true) : ∃ b, (mempoolAlloc pool a).1 = some b := by
  unfold mempoolAlloc
  cases hf : pool.freeList with
  | cons c rest => simp [takeBlock, hf]
  | nil =>
    obtain ⟨n, hn⟩ : ∃ n, pool.blocksPerSlab = n + 1 := ⟨pool.blocksPerSlab - 1, by omega⟩
    simp [growPool, takeBlock, threadBlocks, hn, List.range_succ, ha 0, ha 1]

theorem mempoolCreate_owned {blockSize blocksPerSlab : ℕ} {a : Alloc} {pool : MemPool}
    (h : mempoolCreate blockSize blocksPerSlab a = .ok pool) : pool.Owned [] := by
  unfold mempoolCreate at h
  split at h
  · cases h
  · rename_i hargs
    split at h
    · cases h
    · have h0 : MemPool.Owned ⟨blockSize, blocksPerSlab, [], 0, 0, 0, 0, 0, 0, 0⟩ [] :=
        ⟨by dsimp only; omega, List.Perm.refl _, rfl⟩
      have hg := h0.grow (a.skip 1)
      dsimp only at h
      split at h
      · rename_i p hgp
        cases h
        rwa [hgp] at hg
      · cases h

end SubscriberMgmt
