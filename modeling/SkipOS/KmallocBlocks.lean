import SkipOS.KmallocRun

/-! Blocks and free chunks of the heap never overlap while clients write only what they
asked for. -/

namespace SkipOS

open Mem Exec

/-- Sizes for which the pages of a block can be counted without wrapping. -/
def BoundedSize (size : Word) : Prop := 0 < size ∧ size.toNat < 2 ^ 64 - 4112

/-- The bytes asked for. -/
def Alloc.requested (a : Alloc) : Set Word := span a.ptr a.size.toNat

variable {arr : PoolArr} {s s0 : Kernel Flat} {out : List Alloc} {freed : Fin 7 → Nat}
  {free : FreeLists} {i : Fin 7} {a : Alloc} {b c : Word} {x : HeapState}

theorem getBestPool_fits (h : getBestPool b = some i) : b.toNat ≤ (maxSize i).toNat := by
  have hle := List.find?_some h
  exact BitVec.le_def.mp (of_decide_eq_true hle)

theorem le_newPageCnt_bytes (hb : b ≠ 0) : b.toNat ≤ 4096 * (newPageCnt b).toNat := by
  have hdiv : ((b - 1) / pageSize).toNat = (b - 1).toNat / 4096 := by
    rw [BitVec.toNat_udiv]
    rfl
  have hone : (1 : Word).toNat = 1 := rfl
  have hpos : b.toNat ≠ 0 := fun hz => hb (BitVec.eq_of_toNat_eq hz)
  have hpred : (b - 1).toNat = b.toNat - 1 := by bv_omega
  have hlt := b.isLt
  rw [newPageCnt, BitVec.toNat_add, hdiv, hone, hpred]
  omega

theorem Alloc.size_le_block (h : BoundedSize a.size) : a.size.toNat + 16 ≤ a.block.len := by
  obtain ⟨-, hlt⟩ := h
  have hh : sizeofHeader.toNat = 16 := rfl
  have hbytes : a.bytesNeeded.toNat = a.size.toNat + 16 := by
    rw [Alloc.bytesNeeded, BitVec.toNat_add, hh, Nat.mod_eq_of_lt (by omega)]
  rw [← hbytes]
  cases hpool : a.pool with
  | some i =>
    rw [Alloc.block_of_pool hpool]
    exact getBestPool_fits hpool
  | none =>
    rw [Alloc.block_of_large hpool]
    refine le_newPageCnt_bytes fun hz => ?_
    have hzero : a.bytesNeeded.toNat = 0 := congrArg BitVec.toNat hz
    omega

theorem Alloc.requested_subset (h : BoundedSize a.size) : a.requested ⊆ a.data := by
  have hle := Alloc.size_le_block h
  have hptr : a.base + sizeofHeader = a.ptr := BitVec.sub_add_cancel a.ptr sizeofHeader
  rw [Alloc.requested, Alloc.data, hptr]
  exact span_mono (by omega)

theorem HeapInv.ptr_aligned (h : HeapInv arr s out freed free) (ha : a ∈ out) :
    a.ptr.toNat % 16 = 0 := by
  have hbase : a.base.toNat % 16 = 0 := by
    cases hpool : a.pool with
    | some i =>
      obtain ⟨page, k, hmem, -, hk⟩ := h.out_on_page a ha i hpool
      have hal := (h.added_ok _ hmem).2
      have hsize := (maxSize_bounds i).2.1
      have hmul : (maxSize i).toNat * k % 16 = 0 := by
        rw [Nat.mul_mod, hsize, Nat.zero_mul, Nat.zero_mod]
      simp only at hal
      omega
    | none =>
      have := (h.large a ha hpool).2.2
      omega
  have hfits : a.base.toNat + a.block.len ≤ 2 ^ 64 := (h.housed _ (block_mem ha)).fits
  have hlen := a.le_block_len
  have hptr : a.base + sizeofHeader = a.ptr := BitVec.sub_add_cancel a.ptr sizeofHeader
  have hh : sizeofHeader.toNat = 16 := rfl
  have hlt : a.base.toNat + 16 < 2 ^ 64 := by omega
  rw [← hptr, BitVec.toNat_add, hh, Nat.mod_eq_of_lt hlt]
  omega

/-- In every run with bounded sizes, clients writing only what they asked for: blocks and
free chunks are pairwise disjoint, the free lists end and hold only chunks of pages added to
their own pool, pointers are aligned and headers are as `kmalloc` wrote them. -/
theorem heap_blocks_disjoint (hinit : Initialized s0)
    (hrun : HeapRun arr BoundedSize Alloc.requested (heapStart s0) x) :
    ∃ free : FreeLists,
      ((blocks x.out free).map Region.bytes).Pairwise Disjoint ∧
      (∀ i, LinkedList x.kernel.mmu.mem.load64 0 (x.kernel.pools i).head (free i) ∧
        (0 < (x.kernel.pools i).avail → (x.kernel.pools i).head ≠ 0) ∧
        ∀ c ∈ free i, OnPage x.kernel.added i c) ∧
      ∀ a ∈ x.out, a.ptr.toNat % 16 = 0 ∧ HasHeader arr x.kernel.mmu.mem a := by
  obtain ⟨⟨free, h⟩, -⟩ := HeapRun.inv hinit (fun _ => Alloc.requested_subset) hrun
  refine ⟨free, ?_, fun i => ⟨h.linked i, fun havail hz => ?_, h.free_on_page i⟩,
    fun a ha => ⟨h.ptr_aligned ha, h.header a ha⟩⟩
  · rw [List.pairwise_map]
    refine List.Pairwise.imp_of_mem ?_ h.apart
    intro r t hr ht hapart
    exact hapart.disjoint (h.housed r hr).fits (h.housed t ht).fits
  · have hcount := h.count i
    rw [(h.linked i).eq_null_iff.mp hz, List.length_nil] at hcount
    bv_omega

/-- One block of one byte, and the 127 chunks left beside it. -/
theorem heap_blocks_disjoint_taken : ∃ free : FreeLists,
    ((blocks [oneBlock] free).map Region.bytes).Pairwise Disjoint ∧
      oneBlock.ptr.toNat % 16 = 0 ∧ HasHeader samplePools oneTaken.mmu.mem oneBlock := by
  have hsize : BoundedSize 1 := ⟨by decide, by decide⟩
  obtain ⟨free, hdisjoint, -, hout⟩ := heap_blocks_disjoint readyKernel_initialized
    (oneTaken_run BoundedSize Alloc.requested hsize)
  exact ⟨free, hdisjoint, hout oneBlock (List.mem_singleton_self _)⟩

end SkipOS
