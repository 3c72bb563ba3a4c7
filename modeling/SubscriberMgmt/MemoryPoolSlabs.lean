import SubscriberMgmt.MemoryPoolHeap

/-!
# The layout of a slab (`memory_pool.c:12-70`)

`grow_pool` asks for `block_size * blocks_per_slab` bytes and links a block at every
multiple of `block_size`, both computed in `size_t`.
-/

namespace SubscriberMgmt
open ByteMemory

namespace SmMemoryPool

/-- `i * pool->block_size` -/
def blockOffset (pool : SmMemoryPool) (i : ℕ) : ℕ := i * pool.blockSize % 2 ^ 64

theorem blockAt_offset (pool : SmMemoryPool) (memory i : ℕ) :
    pool.blockAt memory i = (memory + pool.blockOffset i) % 2 ^ 64 :=
  (Nat.add_mod_mod ..).symm

theorem growPool_slab {heap heap' : Memory} {pool pool' : SmMemoryPool} {g : GrowInput}
    (h : growPool heap pool g = (.ok, heap', pool')) :
    ∃ memory, g.memory = some memory ∧ pool'.slabs = ⟨memory, pool.slabBytes⟩ :: pool.slabs ∧
      pool'.blockSize = pool.blockSize ∧ pool'.blocksPerSlab = pool.blocksPerSlab := by
  unfold growPool at h
  split at h
  · cases h
  · cases hm : g.memory with
    | none =>
      rw [hm] at h
      cases h
    | some memory =>
      rw [hm] at h
      cases h
      exact ⟨memory, rfl, rfl, rfl, rfl⟩

/-- The arguments that `mempool_create` accepts; both are of type `size_t`. -/
structure Accepted (pool : SmMemoryPool) : Prop where
  size : pointerSize ≤ pool.blockSize
  per : 0 < pool.blocksPerSlab
  sizeLt : pool.blockSize < 2 ^ 64
  perLt : pool.blocksPerSlab < 2 ^ 64

theorem mempoolCreate_accepted {heap : Memory} {blockSize blocksPerSlab : ℕ}
    {outPool poolOk lockOk : Bool} {g : GrowInput} {r : Memory × SmMemoryPool}
    (h : mempoolCreate heap blockSize blocksPerSlab outPool poolOk lockOk g = .ok r)
    (hsize : blockSize < 2 ^ 64) (hper : blocksPerSlab < 2 ^ 64) : r.2.Accepted := by
  unfold mempoolCreate at h
  split at h
  · cases h
  · split at h
    · cases h
    · case isFalse hargs =>
      rw [not_or] at hargs
      split at h
      · cases h
      · split at h
        · cases h
        · split at h
          · case h_1 r' hgrow =>
            cases h
            obtain ⟨-, -, -, hbs, hbps⟩ := growPool_slab hgrow
            exact ⟨by rw [hbs]; exact Nat.le_of_not_lt hargs.1,
              by rw [hbps]; exact Nat.pos_of_ne_zero hargs.2, by rw [hbs]; exact hsize,
              by rw [hbps]; exact hper⟩
          · cases h

/-- The blocks that are linked lie in the memory of the slab, apart from each other, and
where a pointer can stand. -/
structure LaidOut (pool : SmMemoryPool) (s : PoolSlab) : Prop where
  inside : ∀ i < pool.blocksPerSlab, pool.blockOffset i + pool.blockSize ≤ s.bytes
  apart : ∀ i < pool.blocksPerSlab, ∀ j < pool.blocksPerSlab, i ≠ j →
    pool.blockOffset i + pool.blockSize ≤ pool.blockOffset j ∨
      pool.blockOffset j + pool.blockSize ≤ pool.blockOffset i
  aligned : ∀ i < pool.blocksPerSlab, pointerSize ∣ pool.blockOffset i

/-- A slab is laid out well exactly when its size does not wrap around and its blocks
are multiples of a pointer, or it has only one. -/
theorem laidOut_iff {pool : SmMemoryPool} (h : pool.Accepted) (memory : ℕ) :
    pool.LaidOut ⟨memory, pool.slabBytes⟩ ↔
      pool.blockSize * pool.blocksPerSlab < 2 ^ 64 ∧
        (pointerSize ∣ pool.blockSize ∨ pool.blocksPerSlab = 1) := by
  constructor
  · rintro ⟨hinside, hapart, haligned⟩
    have hfits : pool.blockSize * pool.blocksPerSlab < 2 ^ 64 := by
      have hle : pool.blocksPerSlab * pool.blockSize ≤ pool.slabBytes := ranges_le hinside hapart
      rw [Nat.mul_comm] at hle
      exact Nat.lt_of_le_of_lt hle (Nat.mod_lt _ (by decide))
    refine ⟨hfits, ?_⟩
    by_contra hno
    rw [not_or] at hno
    have hper := h.per
    have hsecond := haligned 1 (by omega)
    rw [blockOffset, Nat.one_mul, Nat.mod_eq_of_lt h.sizeLt] at hsecond
    exact hno.1 hsecond
  · rintro ⟨hfits, halign⟩
    have hsize : 8 ≤ pool.blockSize := h.size
    have hbytes : pool.slabBytes = pool.blocksPerSlab * pool.blockSize := by
      rw [slabBytes, Nat.mod_eq_of_lt hfits, Nat.mul_comm]
    have hend : ∀ i < pool.blocksPerSlab,
        i * pool.blockSize + pool.blockSize ≤ pool.blocksPerSlab * pool.blockSize :=
      fun i hi => block_end pool.blockSize hi
    have hoffset : ∀ i < pool.blocksPerSlab, pool.blockOffset i = i * pool.blockSize := by
      intro i hi
      have hlast := hend i hi
      rw [Nat.mul_comm] at hfits
      exact Nat.mod_eq_of_lt (by omega)
    refine ⟨fun i hi => ?_, fun i hi j hj hij => ?_, fun i hi => ?_⟩
    · rw [hoffset i hi, hbytes]
      exact hend i hi
    · rw [hoffset i hi, hoffset j hj]
      rcases Nat.lt_or_gt_of_ne hij with hlt | hlt
      · exact Or.inl (block_end pool.blockSize hlt)
      · exact Or.inr (block_end pool.blockSize hlt)
    · rw [hoffset i hi]
      rcases halign with hdvd | hone
      · exact Dvd.dvd.mul_left hdvd i
      · rw [show i = 0 by omega, Nat.zero_mul]
        exact Nat.dvd_zero _

/-- Whatever pool of accepted sizes `grow_pool` gives a slab: the blocks of the slab lie
inside it, apart and aligned exactly when its size does not wrap around and the block
size is a multiple of that of a pointer, or there is one block. -/
theorem slab_layout_iff {pool : SmMemoryPool} (h : pool.Accepted) {heap heap' : Memory}
    {pool' : SmMemoryPool} {g : GrowInput} (hgrow : growPool heap pool g = (.ok, heap', pool')) :
    ∃ s, pool'.slabs = s :: pool.slabs ∧
      (∀ i, pool.blockAt s.memory i = (s.memory + pool.blockOffset i) % 2 ^ 64) ∧
      (pool.LaidOut s ↔ pool.blockSize * pool.blocksPerSlab < 2 ^ 64 ∧
        (pointerSize ∣ pool.blockSize ∨ pool.blocksPerSlab = 1)) := by
  obtain ⟨memory, -, hslabs, -, -⟩ := growPool_slab hgrow
  exact ⟨_, hslabs, pool.blockAt_offset memory, laidOut_iff h memory⟩

/-- A pool of three blocks of 24 bytes gets a second slab. -/
theorem slab_layout_good : ∃ r heap' pool' s,
    mempoolCreate (fun _ => 0) 24 3 true true true ⟨true, some 4096⟩ = .ok r ∧
      growPool r.1 r.2 ⟨true, some 8192⟩ = (.ok, heap', pool') ∧
      pool'.slabs = s :: r.2.slabs ∧ r.2.LaidOut s := by
  obtain ⟨r, hr⟩ : ∃ r, mempoolCreate (fun _ => 0) 24 3 true true true ⟨true, some 4096⟩ = .ok r :=
    ⟨_, rfl⟩
  have haccepted := mempoolCreate_accepted hr (by decide) (by decide)
  obtain ⟨hsize, hper⟩ : r.2.blockSize = 24 ∧ r.2.blocksPerSlab = 3 := by
    cases hr
    exact ⟨rfl, rfl⟩
  obtain ⟨heap', pool', hgrow⟩ : ∃ heap' pool',
      growPool r.1 r.2 ⟨true, some 8192⟩ = (.ok, heap', pool') := by
    cases hr
    exact ⟨_, _, rfl⟩
  obtain ⟨s, hslabs, -, hiff⟩ := slab_layout_iff haccepted hgrow
  refine ⟨r, heap', pool', s, hr, hgrow, hslabs, hiff.mpr ?_⟩
  rw [hsize, hper]
  decide

/-- Blocks of 12 bytes: the second one is not aligned. And `2 ^ 32` blocks of `2 ^ 32`
bytes in a slab of no bytes. -/
theorem slab_layout_bad :
    (∃ heap' pool' s, growPool (fun _ => 0) (empty 12 2) ⟨true, some 4096⟩ = (.ok, heap', pool') ∧
      pool'.slabs = [s] ∧ ¬ (empty 12 2).LaidOut s) ∧
    ∃ heap' pool' s,
      growPool (fun _ => 0) (empty (2 ^ 32) (2 ^ 32)) ⟨true, some 4096⟩ = (.ok, heap', pool') ∧
        pool'.slabs = [s] ∧ s.bytes = 0 ∧ ¬ (empty (2 ^ 32) (2 ^ 32)).LaidOut s := by
  have hsmall : (empty 12 2).Accepted := ⟨by decide, by decide, by decide, by decide⟩
  have hlarge : (empty (2 ^ 32) (2 ^ 32)).Accepted := ⟨by decide, by decide, by decide, by decide⟩
  refine ⟨⟨_, _, _, rfl, rfl, fun h => ?_⟩, ⟨_, _, _, rfl, rfl, rfl, fun h => ?_⟩⟩
  · exact absurd ((laidOut_iff hsmall 4096).mp h) (by decide)
  · exact absurd ((laidOut_iff hlarge 4096).mp h) (by decide)

end SmMemoryPool

end SubscriberMgmt
