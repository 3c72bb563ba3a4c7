import SubscriberMgmt.MemoryPoolHeap

/-!
# Every run of the slab allocator (`memory_pool.c:90-156`)

The blocks that clients hold are a ghost list beside the pool. Clients free
blocks that they hold, write where they like in them, and `malloc` may fail at
any growth of the pool.
-/

namespace SubscriberMgmt
open ByteMemory

/-- `held` are the blocks handed out and not freed yet, and `most` is the largest
`used_blocks` so far. -/
structure PoolRun where
  heap : Memory
  pool : SmMemoryPool
  held : List ℕ
  most : ℕ

inductive PoolOp where
  | alloc (g : GrowInput)
  | free (ptr : ℕ)
  | write (a : ℕ) (v : UInt8)

namespace PoolRun

def step (s : PoolRun) : PoolOp → PoolRun
  | .alloc g =>
    let r := s.pool.mempoolAlloc s.heap g
    ⟨r.2.1, r.2.2, r.1.toList ++ s.held, max s.most r.2.2.usedBlocks⟩
  | .free ptr =>
    let r := s.pool.mempoolFree s.heap ptr
    ⟨r.1, r.2, s.held.erase ptr, max s.most r.2.usedBlocks⟩
  | .write a v => { s with heap := Function.update s.heap a v }

def May (s : PoolRun) : PoolOp → Prop
  | .alloc g => g.Fresh s.pool
  | .free ptr => ptr ∈ s.held
  | .write a _ => ∃ b ∈ s.held, b ≤ a ∧ a < b + s.pool.blockSize

/-- The state after `mempool_create`. -/
def created (r : Memory × SmMemoryPool) : PoolRun := ⟨r.1, r.2, [], 0⟩

/-- The pool accounts for all its blocks. -/
structure Exact (s : PoolRun) : Prop where
  blocks : ∃ l, Linked pointerSize s.heap s.pool.freeList l ∧ (l ++ s.held).Nodup ∧
    (l ++ s.held).Perm s.pool.carved
  inSlab : ∀ t ∈ s.pool.slabs, ∀ b ∈ s.pool.carve t,
    t.memory ≤ b ∧ b + s.pool.blockSize ≤ t.memory + t.bytes
  total : s.pool.totalBlocks = s.pool.slabs.length * s.pool.blocksPerSlab
  used : s.pool.usedBlocks = s.held.length
  counts : s.pool.usedBlocks = (s.pool.allocCount - s.pool.freeCount).toNat
  peak : s.pool.peakBlocks = s.most
  given : ∀ g : GrowInput, g.Fresh s.pool → ∀ b, (s.pool.mempoolAlloc s.heap g).1 = some b →
    b ∉ s.held ∧ ∀ c ∈ s.held, b + s.pool.blockSize ≤ c ∨ c + s.pool.blockSize ≤ b
  refused : ∀ g : GrowInput, g.Fresh s.pool → (s.pool.mempoolAlloc s.heap g).1 = none →
    s.pool.freeList = 0 ∧ (g.slab = false ∨ g.memory = none) ∧
      (s.pool.mempoolAlloc s.heap g).2 =
        (s.heap, { s.pool with allocFailures := s.pool.allocFailures + 1 })

/-- The pool is one of named blocks, of which clients hold `names`. -/
structure Inv (s : PoolRun) (p : MemPool) (names : List Block) : Prop where
  refines : Refines s.heap s.pool p
  owned : p.Owned names
  counted : p.Counted
  held : s.held.Perm (names.map s.pool.addr)
  most : s.pool.peakBlocks = s.most
  below : s.pool.usedBlocks ≤ s.pool.peakBlocks

end PoolRun

/-! ### The addresses of all blocks -/

theorem SmMemoryPool.blocks_perm {heap : Memory} {c : SmMemoryPool} {p : MemPool}
    (h : Refines heap c p) : (p.blocks.map c.addr).Perm c.carved := by
  have hall : p.blocks.map c.addr = c.slabs.reverse.flatMap c.carve := by
    rw [← ListKit.flatMap_range c.slabs.reverse c.carve, List.length_reverse, h.slabs,
      MemPool.blocks, List.map_flatMap]
    apply List.flatMap_congr
    intro k hk
    have hlt : k < c.slabs.reverse.length := by
      rw [List.length_reverse, h.slabs]
      exact List.mem_range.mp hk
    simp only [slabBlocks, List.map_map, List.getElem?_eq_getElem hlt, Option.elim_some,
      SmMemoryPool.carve, h.blocksPerSlab]
    apply List.map_congr_left
    intro i _
    simp only [Function.comp_apply, SmMemoryPool.addr, List.getElem?_eq_getElem hlt,
      Option.elim_some]
  rw [hall]
  exact c.slabs.reverse_perm.flatMap_right _

theorem SmMemoryPool.addr_congr {c d : SmMemoryPool} (hsize : d.blockSize = c.blockSize)
    (hslabs : d.slabs = c.slabs) (b : Block) : d.addr b = c.addr b := by
  simp only [SmMemoryPool.addr, SmMemoryPool.blockAt, hsize, hslabs]

theorem SmMemoryPool.mempoolFree_frame (heap : Memory) (c : SmMemoryPool) (ptr : ℕ) :
    (c.mempoolFree heap ptr).2.blockSize = c.blockSize ∧
      (c.mempoolFree heap ptr).2.slabs = c.slabs ∧
      (c.mempoolFree heap ptr).2.peakBlocks = c.peakBlocks ∧
      (c.mempoolFree heap ptr).2.usedBlocks ≤ c.usedBlocks := by
  unfold SmMemoryPool.mempoolFree
  split
  · exact ⟨rfl, rfl, rfl, Nat.le_refl _⟩
  · refine ⟨rfl, rfl, rfl, ?_⟩
    dsimp only
    split <;> omega

theorem SmMemoryPool.growPool_frame (heap : Memory) (c : SmMemoryPool) (g : GrowInput) :
    (c.growPool heap g).2.2.blockSize = c.blockSize ∧
      (c.growPool heap g).2.2.usedBlocks = c.usedBlocks ∧
      (c.growPool heap g).2.2.peakBlocks = c.peakBlocks := by
  unfold SmMemoryPool.growPool
  split
  · exact ⟨rfl, rfl, rfl⟩
  · split <;> exact ⟨rfl, rfl, rfl⟩

theorem SmMemoryPool.mempoolAlloc_size (heap : Memory) (c : SmMemoryPool) (g : GrowInput) :
    (c.mempoolAlloc heap g).2.2.blockSize = c.blockSize := by
  have hgrow := (c.growPool_frame heap g).1
  unfold SmMemoryPool.mempoolAlloc
  split
  · generalize c.growPool heap g = r at hgrow
    obtain ⟨st, heap', d⟩ := r
    cases st with
    | ok => exact (Refines.takeBlock_frame d heap').1.trans hgrow
    | _ => exact hgrow
  · exact (Refines.takeBlock_frame c heap).1

theorem SmMemoryPool.mempoolAlloc_peak (heap : Memory) (c : SmMemoryPool) (g : GrowInput)
    (hle : c.usedBlocks ≤ c.peakBlocks) :
    (c.mempoolAlloc heap g).2.2.peakBlocks =
        max c.peakBlocks (c.mempoolAlloc heap g).2.2.usedBlocks := by
  have htake : ∀ heap (d : SmMemoryPool), (d.takeBlock heap).2.peakBlocks =
      max d.peakBlocks (d.takeBlock heap).2.usedBlocks := by
    intro heap d
    simp only [SmMemoryPool.takeBlock]
    split <;> omega
  obtain ⟨-, hused, hpeak⟩ := c.growPool_frame heap g
  unfold SmMemoryPool.mempoolAlloc
  split
  · generalize c.growPool heap g = r at hused hpeak
    obtain ⟨st, heap', d⟩ := r
    dsimp only at hused hpeak
    cases st with
    | ok =>
      dsimp only
      rw [htake, hpeak]
    | _ =>
      dsimp only
      omega
  · exact htake heap c

/-! ### What every run keeps -/

namespace PoolRun.Inv

variable {s : PoolRun} {p : MemPool} {names : List Block}

theorem alloc (h : s.Inv p names) {g : GrowInput} (hg : g.Fresh s.pool) :
    ∃ names', (s.step (.alloc g)).Inv (mempoolAlloc p g.alloc).2 names' ∧
      ∀ x, (s.pool.mempoolAlloc s.heap g).1 = some x → ∃ b, x = (s.step (.alloc g)).pool.addr b ∧
        names' = b :: names := by
  obtain ⟨hr, href, hcount, hsame, -⟩ := h.refines.alloc h.owned h.counted hg
  have hpeak := s.pool.mempoolAlloc_peak s.heap g h.below
  have hheld : names.map s.pool.addr = names.map (s.step (.alloc g)).pool.addr :=
    List.map_congr_left fun b hb => (hsame b (Refines.held_mem h.owned hb)).symm
  have hmost := h.most
  rcases mempoolAlloc_spec h.owned g.alloc with ⟨hnone, howned⟩ | ⟨b, hsome, howned⟩
  · rw [hnone] at hr
    refine ⟨names, ⟨href, howned, hcount, ?_, ?_, ?_⟩, fun x hx => ?_⟩
    · simp only [step, hr, Option.map_none, Option.toList_none, List.nil_append]
      exact hheld ▸ h.held
    · simp only [step, ← hmost]
      exact hpeak
    · simp only [step]
      omega
    · rw [hr] at hx
      cases hx
  · rw [hsome] at hr
    refine ⟨b :: names, ⟨href, howned, hcount, ?_, ?_, ?_⟩, fun x hx => ⟨b, ?_, rfl⟩⟩
    · simp only [step, hr, Option.map_some, Option.toList_some, List.singleton_append,
        List.map_cons]
      exact (hheld ▸ h.held).cons _
    · simp only [step, ← hmost]
      exact hpeak
    · simp only [step]
      omega
    · rw [hr] at hx
      cases hx
      rfl

theorem free (h : s.Inv p names) {ptr : ℕ} (hptr : ptr ∈ s.held) :
    ∃ p' names', (s.step (.free ptr)).Inv p' names' := by
  obtain ⟨b, hb, rfl⟩ := List.mem_map.mp (h.held.mem_iff.mp hptr)
  have hperm := List.perm_cons_erase hb
  obtain ⟨href, hcount⟩ := h.refines.release h.owned h.counted hperm
  have howned := h.owned.release hperm
  obtain ⟨hsize, hslabs, hpeak, hused⟩ :=
    s.pool.mempoolFree_frame s.heap (s.pool.addr b)
  have hmost := h.most
  have hbelow := h.below
  refine ⟨_, _, href, howned, hcount, ?_, ?_, ?_⟩
  · have hmap : (names.erase b).map (s.pool.mempoolFree s.heap (s.pool.addr b)).2.addr =
        (names.erase b).map s.pool.addr := 
      List.map_congr_left fun c _ => SmMemoryPool.addr_congr hsize hslabs c
    simp only [step, hmap]
    have hheld := (h.held.trans (hperm.map s.pool.addr)).erase (s.pool.addr b)
    rwa [List.map_cons, List.erase_cons_head] at hheld
  · simp only [step]
    omega
  · simp only [step]
    omega

theorem write (h : s.Inv p names) {a : ℕ} {v : UInt8}
    (ha : ∃ b ∈ s.held, b ≤ a ∧ a < b + s.pool.blockSize) : (s.step (.write a v)).Inv p names := by
  obtain ⟨x, hx, hlo, hhi⟩ := ha
  obtain ⟨b, hb, rfl⟩ := List.mem_map.mp (h.held.mem_iff.mp hx)
  exact { h with refines := h.refines.write h.owned hb hlo hhi v }

theorem step (h : s.Inv p names) {op : PoolOp} (hop : s.May op) :
    ∃ p' names', (s.step op).Inv p' names' := by
  cases op with
  | alloc g =>
    obtain ⟨names', hinv, -⟩ := h.alloc hop
    exact ⟨_, names', hinv⟩
  | free ptr => exact h.free hop
  | write a v => exact ⟨p, names, h.write hop⟩

theorem exact (h : s.Inv p names) : s.Exact := by
  have hnodup := h.owned.nodup
  have hmem : ∀ b ∈ p.freeList ++ names, b ∈ p.blocks := fun b hb =>
    h.owned.parts.mem_iff.mp hb
  have hperm : (p.freeList.map s.pool.addr ++ s.held).Perm
      ((p.freeList ++ names).map s.pool.addr) := by
    rw [List.map_append]
    exact h.held.append_left _
  have hused : s.pool.usedBlocks = s.held.length := by
    rw [h.refines.used, h.owned.used, h.held.length_eq, List.length_map]
  refine ⟨⟨p.freeList.map s.pool.addr, h.refines.freeList, ?_, ?_⟩, ?_, ?_, hused, ?_, h.most,
    fun g hg x hx => ?_, fun g hg hnone => ?_⟩
  · exact hperm.nodup_iff.mpr (hnodup.map_on fun a ha b hb he =>
      h.refines.addr_inj (hmem a ha) (hmem b hb) he)
  · exact (hperm.trans (h.owned.parts.map _)).trans (SmMemoryPool.blocks_perm h.refines)
  · intro t ht b hb
    obtain ⟨i, hi, rfl⟩ := List.mem_map.mp hb
    obtain ⟨hat, hend⟩ := h.refines.layout.blockAt_eq ht (List.mem_range.mp hi)
    rw [hat]
    exact ⟨Nat.le_add_right _ _, hend⟩
  · rw [h.refines.total, h.counted.total, h.refines.slabs, h.refines.blocksPerSlab]
  · have hsmall : s.pool.usedBlocks < 2 ^ 64 := by
      have hfew := h.refines.few
      have hlen := h.owned.parts.length_eq
      rw [List.length_append, p.blocks_length, ← h.owned.used, ← h.refines.used] at hlen
      omega
    rw [h.refines.allocs, h.refines.frees, h.counted.used, ← h.refines.used, UInt64.ofNat_add,
      UInt64.add_comm, UInt64.add_sub_cancel, UInt64.toNat_ofNat_of_lt' hsmall]
  · obtain ⟨names', hinv, hgiven⟩ := h.alloc hg
    obtain ⟨b, rfl, rfl⟩ := hgiven x hx
    have hb : b ∈ (mempoolAlloc p g.alloc).2.blocks :=
      Refines.held_mem hinv.owned (List.mem_cons_self ..)
    have hnot := (List.nodup_cons.mp hinv.owned.held_nodup).1
    have hsize : (s.step (.alloc g)).pool.blockSize = s.pool.blockSize :=
      s.pool.mempoolAlloc_size s.heap g
    have hsame := (h.refines.alloc h.owned h.counted hg).2.2.2.1
    have hapart : ∀ c ∈ s.held, (s.step (.alloc g)).pool.addr b + s.pool.blockSize ≤ c ∨
        c + s.pool.blockSize ≤ (s.step (.alloc g)).pool.addr b := by
      intro c hc
      obtain ⟨n, hn, rfl⟩ := List.mem_map.mp (h.held.mem_iff.mp hc)
      have hnew : n ∈ (mempoolAlloc p g.alloc).2.blocks :=
        Refines.held_mem hinv.owned (List.mem_cons_of_mem _ hn)
      have hdisj := hinv.refines.apart hb hnew fun he => hnot (he ▸ hn)
      have hold : (s.step (.alloc g)).pool.addr n = s.pool.addr n :=
        hsame n (Refines.held_mem h.owned hn)
      rwa [hsize, hold] at hdisj
    refine ⟨fun hm => ?_, hapart⟩
    have hself := hapart _ hm
    have hpos := h.refines.size
    omega
  · exact (h.refines.alloc h.owned h.counted hg).2.2.2.2 hnone

end PoolRun.Inv

theorem PoolRun.created_inv {heap : Memory} {blockSize blocksPerSlab : ℕ}
    {outPool poolOk lockOk : Bool} {g : GrowInput} {r : Memory × SmMemoryPool}
    (hfits : blockSize * blocksPerSlab < 2 ^ 64)
    (hg : g.Fresh (SmMemoryPool.empty blockSize blocksPerSlab))
    (h : SmMemoryPool.mempoolCreate heap blockSize blocksPerSlab outPool poolOk lockOk g = .ok r) :
    ∃ p, (PoolRun.created r).Inv p [] := by
  unfold SmMemoryPool.mempoolCreate at h
  split at h
  · cases h
  split at h
  · cases h
  rename_i hargs
  split at h
  · cases h
  split at h
  · cases h
  have hstart : Refines heap (SmMemoryPool.empty blockSize blocksPerSlab)
      ⟨blockSize, blocksPerSlab, [], 0, 0, 0, 0, 0, 0, 0⟩ :=
    ⟨⟨Nat.le_of_not_lt fun hlt => hargs (Or.inl hlt), hfits, fun s hs => (by cases hs),
      List.Pairwise.nil⟩, rfl, rfl, rfl, rfl, rfl, rfl, rfl, rfl, rfl, rfl⟩
  have howned : MemPool.Owned ⟨blockSize, blocksPerSlab, [], 0, 0, 0, 0, 0, 0, 0⟩ [] :=
    ⟨by dsimp only; omega, List.Perm.refl _, rfl⟩
  have hcounted : MemPool.Counted ⟨blockSize, blocksPerSlab, [], 0, 0, 0, 0, 0, 0, 0⟩ :=
    ⟨(Nat.zero_mul _).symm, rfl⟩
  obtain ⟨-, href, hcount, -⟩ := hstart.grow howned hcounted hg
  obtain ⟨-, hused, hpeak⟩ := (SmMemoryPool.empty blockSize blocksPerSlab).growPool_frame heap g
  split at h
  case h_2 => cases h
  case h_1 r' heq =>
    cases h
    rw [heq] at href hused hpeak
    refine ⟨_, href, howned.grow g.alloc, hcount, List.Perm.refl _, hpeak, ?_⟩
    exact hused.le.trans (Nat.zero_le _)

/-! ### The statement for every run -/

/-- When the number of bytes of a slab is cut to `size_t`, the slab at address 1 does not hold
all of its blocks. -/
theorem created_outside {blockSize blocksPerSlab : ℕ} (hsize : pointerSize ≤ blockSize)
    (hper : 0 < blocksPerSlab) (hover : 2 ^ 64 ≤ blockSize * blocksPerSlab) :
    (⟨true, some 1⟩ : GrowInput).Fresh (SmMemoryPool.empty blockSize blocksPerSlab) ∧
      ∃ r, SmMemoryPool.mempoolCreate (fun _ => 0) blockSize blocksPerSlab true true true
        ⟨true, some 1⟩ = .ok r ∧ ¬ (PoolRun.created r).Exact := by
  have hbytes : blockSize * blocksPerSlab % 2 ^ 64 < 2 ^ 64 := Nat.mod_lt _ (by decide)
  have hok : ∃ r, SmMemoryPool.mempoolCreate (fun _ => 0) blockSize blocksPerSlab true true true
      ⟨true, some 1⟩ = .ok r ∧
        r.2.slabs = [⟨1, blockSize * blocksPerSlab % 2 ^ 64⟩] ∧
        r.2.blockSize = blockSize ∧ r.2.blocksPerSlab = blocksPerSlab := by
    have hargs : ¬ (blockSize < pointerSize ∨ blocksPerSlab = 0) := by omega
    refine ⟨(SmMemoryPool.growPool (fun _ => 0) (SmMemoryPool.empty blockSize blocksPerSlab)
      ⟨true, some 1⟩).2, ?_, rfl, rfl, rfl⟩
    simp only [SmMemoryPool.mempoolCreate, if_neg hargs, Bool.not_true, Bool.false_eq_true,
      if_false, SmMemoryPool.growPool]
  obtain ⟨r, hr, hslabs, hbs, hbps⟩ := hok
  constructor
  · intro memory hm
    cases hm
    refine ⟨Nat.one_pos, ?_, fun s hs => by cases hs⟩
    simp only [SmMemoryPool.slabBytes, SmMemoryPool.empty]
    omega
  · refine ⟨r, hr, fun hexact => ?_⟩
    -- the first block that does not lie in the bytes that are left
    have hsmall : blockSize * blocksPerSlab % 2 ^ 64 / blockSize < blocksPerSlab := by
      apply Nat.div_lt_of_lt_mul
      omega
    have hin := hexact.inSlab ⟨1, blockSize * blocksPerSlab % 2 ^ 64⟩
      (by simp only [PoolRun.created, hslabs, List.mem_singleton])
      (r.2.blockAt 1 (blockSize * blocksPerSlab % 2 ^ 64 / blockSize))
      (List.mem_map.mpr ⟨_, List.mem_range.mpr (by
        simp only [PoolRun.created, hbps]
        exact hsmall), rfl⟩)
    simp only [PoolRun.created, SmMemoryPool.blockAt, hbs] at hin
    have hdiv := Nat.div_add_mod (blockSize * blocksPerSlab % 2 ^ 64) blockSize
    have hrest :=
      Nat.mod_lt (blockSize * blocksPerSlab % 2 ^ 64) (Nat.lt_of_lt_of_le (by decide) hsize)
    rw [Nat.mul_comm blockSize (_ / _)] at hdiv
    generalize blockSize * blocksPerSlab % 2 ^ 64 = bytes at *
    generalize bytes / blockSize * blockSize = start at *
    omega

/-- A pool accounts for all its blocks in every run exactly when the number of bytes of a slab
fits in `size_t`. -/
theorem mempool_exact_iff (blockSize blocksPerSlab : ℕ) (hsize : pointerSize ≤ blockSize)
    (hper : 0 < blocksPerSlab) :
    (∀ heap outPool poolOk lockOk g r, g.Fresh (SmMemoryPool.empty blockSize blocksPerSlab) →
      SmMemoryPool.mempoolCreate heap blockSize blocksPerSlab outPool poolOk lockOk g = .ok r →
      ∀ s, Machine.Reach PoolRun.step PoolRun.May (PoolRun.created r) s → s.Exact) ↔
      blockSize * blocksPerSlab < 2 ^ 64 := by
  constructor
  · intro hall
    by_contra hover
    obtain ⟨hfresh, r, hr, hno⟩ := created_outside hsize hper (Nat.le_of_not_lt hover)
    exact hno (hall _ _ _ _ _ r hfresh hr (PoolRun.created r) .start)
  · intro hfits heap outPool poolOk lockOk g r hg hr s hs
    obtain ⟨p, hinv⟩ := PoolRun.created_inv hfits hg hr
    have hrun := hs.invariant (P := fun s => ∃ p names, s.Inv p names) ⟨p, [], hinv⟩
      fun t op ht hop => by
        obtain ⟨q, names, hq⟩ := ht
        exact hq.step hop
    obtain ⟨q, names, hq⟩ := hrun
    exact hq.exact

/-- The pool of subscriber records. -/
theorem mempool_exact_subscribers : pointerSize ≤ 88 ∧ 88 * 256 < 2 ^ 64 ∧
    ∀ heap outPool poolOk lockOk g r, g.Fresh (SmMemoryPool.empty 88 256) →
      SmMemoryPool.mempoolCreate heap 88 256 outPool poolOk lockOk g = .ok r →
      ∀ s, Machine.Reach PoolRun.step PoolRun.May (PoolRun.created r) s → s.Exact :=
  ⟨by decide, by decide, (mempool_exact_iff 88 256 (by decide) (by decide)).mpr (by decide)⟩

/-- Four blocks of `2 ^ 63` bytes. The product is 0 in `size_t`, the blocks are at two addresses
only, and the third one given out is still held. -/
theorem mempool_exact_fails :
    ∃ r, (⟨true, some 16⟩ : GrowInput).Fresh (SmMemoryPool.empty (2 ^ 63) 4) ∧
      SmMemoryPool.mempoolCreate (fun _ => 0) (2 ^ 63) 4 true true true ⟨true, some 16⟩ = .ok r ∧
      ∃ s, Machine.Reach PoolRun.step PoolRun.May (PoolRun.created r) s ∧
        ∃ b ∈ s.held, (s.pool.mempoolAlloc s.heap ⟨false, none⟩).1 = some b := by
  have hfresh : (⟨true, some 16⟩ : GrowInput).Fresh (SmMemoryPool.empty (2 ^ 63) 4) := by
    intro memory hm
    cases hm
    exact ⟨by decide, by decide +kernel, fun s hs => by cases hs⟩
  have hfail : ∀ t : PoolRun, t.May (.alloc ⟨false, none⟩) := fun _ _ hm => by cases hm
  refine ⟨_, hfresh, rfl, _, Machine.Reach.step (Machine.Reach.step .start (hfail _)) (hfail _),
    16 + 2 ^ 63, ?_, ?_⟩
  · decide +kernel
  · decide +kernel

end SubscriberMgmt
