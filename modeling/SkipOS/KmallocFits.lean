import SkipOS.KmallocBlocks

/-! The bytes that `kmalloc` reserves against the bytes asked for. The header is added in 64 bits, so
the largest sizes wrap to a request that the smallest pool can meet. -/

namespace SkipOS

open Mem Exec

/-- The pool that handed out a chunk: its counter has changed. -/
def takenPool (s s' : Kernel Flat) : Option (Fin 7) :=
  (List.finRange 7).find? fun i => (s'.pools i).avail ≠ (s.pools i).avail

/-- The bytes reserved, header included: a chunk of that pool, or else the pages handed out. -/
def takenBytes (s s' : Kernel Flat) : Nat :=
  match takenPool s s', s'.mmu.ranges with
  | some i, _ => (maxSize i).toNat
  | none, r :: _ => 4096 * r.2.toNat
  | none, [] => 0

/-- The first pool whose chunks hold `size` bytes and the header. -/
def SmallestFit (size : Word) (i : Fin 7) : Prop :=
  size.toNat + 16 ≤ (maxSize i).toNat ∧ ∀ j, size.toNat + 16 ≤ (maxSize j).toNat → i ≤ j

variable {arr : PoolArr} {s s' s1 : Kernel Flat} {i j : Fin 7} {size ptr b : Word} {p : Placement}
  {place : Flat → Word → Placement} {num : Word}

theorem takenPool_eq_some (hi : (s'.pools i).avail ≠ (s.pools i).avail)
    (hj : ∀ j ≠ i, (s'.pools j).avail = (s.pools j).avail) : takenPool s s' = some i := by
  rw [takenPool]
  cases h : (List.finRange 7).find? fun i => (s'.pools i).avail ≠ (s.pools i).avail with
  | none =>
    have hnone := List.find?_eq_none.mp h i (List.mem_finRange i)
    exact absurd (decide_eq_true hi) hnone
  | some j =>
    have hne : (s'.pools j).avail ≠ (s.pools j).avail := by simpa using List.find?_some h
    by_contra hij
    exact hne (hj j fun he => hij (congrArg some he))

theorem takenPool_pagesTaken : takenPool s (pagesTaken s p num) = none := by
  refine List.find?_eq_none.mpr fun i _ => ?_
  simp [pagesTaken, Kernel.withRange, Kernel.withMem]

theorem takenBytes_pagesTaken : takenBytes s (pagesTaken s p num) = 4096 * num.toNat := by
  rw [takenBytes, takenPool_pagesTaken]
  rfl

theorem takenPool_chunkTaken (h : (s.pools i).avail ≠ 0 ∧ s1 = s ∨
    (s.pools i).avail = 0 ∧ ∃ p : Placement, s.mmu.Fresh p.base 1 ∧ s1 = pageAdded s i p) :
    takenPool s (chunkTaken arr s1 i b) = some i := by
  have hself : ((chunkTaken arr s1 i b).pools i).avail = (s1.pools i).avail - 1 := by
    simp [chunkTaken, Kernel.withPool, Kernel.withMem]
  have hother : ∀ j ≠ i, (chunkTaken arr s1 i b).pools j = s1.pools j := by
    intro j hj
    simp [chunkTaken, Kernel.withPool, Kernel.withMem, Function.update_of_ne hj]
  have hpred : ∀ a : Word, a - 1 ≠ a := by
    intro a
    bv_omega
  rcases h with ⟨-, rfl⟩ | ⟨havail, p, -, rfl⟩
  · refine takenPool_eq_some ?_ fun j hj => by rw [hother j hj]
    rw [hself]
    exact hpred _
  · refine takenPool_eq_some ?_ fun j hj => ?_
    · have hchunks := (numChunks_bounds i).2.1
      have hadded : ((pageAdded s i p).pools i).avail = (s.pools i).avail + numChunks i := by
        simp [pageAdded]
      rw [hself, hadded, havail]
      bv_omega
    · rw [hother j hj]
      simp [pageAdded, Function.update_of_ne hj]

/-- What was reserved is the chunk or the pages that `get_best_pool` decides on, with the pointer
behind the header: the first chunk that the pool has, or that of the page it gets. -/
theorem kmalloc_taken (hrun : kmalloc (flatMmu place) arr size s = .ok ptr s') :
    takenPool s s' = getBestPool (size + sizeofHeader) ∧
    ((∃ i, takenPool s s' = some i ∧ takenBytes s s' = (maxSize i).toNat ∧
        ((s.pools i).avail ≠ 0 ∧ ptr = (s.pools i).head + sizeofHeader ∨
          (s.pools i).avail = 0 ∧ s'.mmu.ranges = (ptr - sizeofHeader, 1) :: s.mmu.ranges)) ∨
      takenPool s s' = none ∧
        takenBytes s s' = 4096 * (newPageCnt (size + sizeofHeader)).toNat ∧
        s'.mmu.ranges = (ptr - sizeofHeader, newPageCnt (size + sizeofHeader)) :: s.mmu.ranges) := by
  have hback (a : Word) : a + sizeofHeader - sizeofHeader = a := BitVec.add_sub_cancel _ _
  rcases kmalloc_eq_ok hrun with ⟨hbest, p, -, rfl, rfl⟩ | ⟨i, s1, hbest, hadd, rfl, rfl⟩
  · rw [hbest]
    refine ⟨takenPool_pagesTaken, Or.inr ⟨takenPool_pagesTaken, takenBytes_pagesTaken, ?_⟩⟩
    rw [hback]
    rfl
  · have htaken : takenPool s (chunkTaken arr s1 i (size + sizeofHeader)) = some i :=
      takenPool_chunkTaken hadd
    rw [hbest]
    refine ⟨htaken, Or.inl ⟨i, htaken, by simp only [takenBytes, htaken], ?_⟩⟩
    rcases hadd with ⟨havail, rfl⟩ | ⟨havail, p, -, rfl⟩
    · exact Or.inl ⟨havail, rfl⟩
    · refine Or.inr ⟨havail, ?_⟩
      rw [hback]
      simp [chunkTaken, pageAdded, Kernel.withPool, Kernel.withMem, Kernel.withRange]

theorem getBestPool_smallest (h : getBestPool b = some i) (hj : b.toNat ≤ (maxSize j).toNat) :
    i ≤ j := by
  obtain ⟨-, k, hk, hik, hbefore⟩ := List.find?_eq_some_iff_getElem.mp h
  by_contra hlt
  have hlt' : j.val < k := by
    have hi : i.val = k := by
      rw [← hik, List.getElem_finRange]
      rfl
    omega
  have hnot := hbefore j.val hlt'
  rw [List.getElem_finRange] at hnot
  simp [BitVec.le_def, hj] at hnot

theorem getBestPool_none (h : getBestPool b = none) (j : Fin 7) : (maxSize j).toNat < b.toNat := by
  have hnot := List.find?_eq_none.mp h j (List.mem_finRange j)
  simpa [BitVec.le_def] using hnot

theorem bytesNeeded_toNat (h : size.toNat + 16 < 2 ^ 64) :
    (size + sizeofHeader).toNat = size.toNat + 16 := by
  have hh : sizeofHeader.toNat = 16 := rfl
  rw [BitVec.toNat_add, hh, Nat.mod_eq_of_lt h]

theorem maxSize_le (i : Fin 7) : (maxSize i).toNat ≤ 2048 := by
  revert i
  decide

/-- A wrapped request is for at most 15 bytes and gets a chunk. -/
theorem takenBytes_wrapped (hrun : kmalloc (flatMmu place) arr size s = .ok ptr s')
    (h : 2 ^ 64 ≤ size.toNat + 16) : takenBytes s s' ≤ 2048 := by
  rcases kmalloc_taken hrun with ⟨hpool, ⟨i, -, hbytes, -⟩ | ⟨hnone, -, -⟩⟩
  · rw [hbytes]
    exact maxSize_le i
  · have hsmall := getBestPool_none (hpool.symm.trans hnone) 0
    have hh : sizeofHeader.toNat = 16 := rfl
    have h32 : (maxSize 0).toNat = 32 := rfl
    have hlt := size.isLt
    rw [BitVec.toNat_add, hh, h32] at hsmall
    omega

/-- What `kmalloc` reserves holds the bytes asked for, and comes from the smallest pool whose chunks
do, exactly when the size and the header together do not wrap. -/
theorem block_fits_iff (hrun : kmalloc (flatMmu place) arr size s = .ok ptr s') :
    (size.toNat + 16 ≤ takenBytes s s' ∧ ∀ i, SmallestFit size i → takenPool s s' = some i) ↔
      size.toNat + 16 < 2 ^ 64 := by
  constructor
  · rintro ⟨hfits, -⟩
    by_contra hwrap
    have hshort := takenBytes_wrapped hrun (by omega)
    omega
  · intro hlt
    have hn := bytesNeeded_toNat hlt
    rcases kmalloc_taken hrun with ⟨hpool, ⟨i, htaken, hbytes, -⟩ | ⟨hnone, hbytes, -⟩⟩
    · have hbest : getBestPool (size + sizeofHeader) = some i := hpool.symm.trans htaken
      have hfits := getBestPool_fits hbest
      rw [hn] at hfits
      refine ⟨hbytes ▸ hfits, fun j hj => ?_⟩
      have hij : i ≤ j := getBestPool_smallest hbest (hn ▸ hj.1)
      rw [htaken, le_antisymm hij (hj.2 i hfits)]
    · have hbest : getBestPool (size + sizeofHeader) = none := hpool.symm.trans hnone
      refine ⟨?_, fun j hj => ?_⟩
      · rw [hbytes, ← hn]
        refine le_newPageCnt_bytes fun hz => ?_
        rw [hz] at hn
        exact absurd hn (by simp)
      · have hbig := getBestPool_none hbest j
        have hj1 := hj.1
        omega

theorem block_fits_one : 17 ≤ takenBytes readyKernel oneTaken ∧ takenPool readyKernel oneTaken = some 0 := by
  obtain ⟨hfits, hpool⟩ := (block_fits_iff oneTaken_returned).mpr (by decide)
  exact ⟨hfits, hpool 0 ⟨by decide, fun j _ => Fin.zero_le j⟩⟩

/-- The largest size gets a chunk of 32 bytes. -/
theorem block_fits_fails : ¬ ∀ (place : Flat → Word → Placement) (arr : PoolArr) (s s' : Kernel Flat)
    (size ptr : Word), 0 < size → kmalloc (flatMmu place) arr size s = .ok ptr s' →
    size.toNat ≤ takenBytes s s' - 16 := by
  intro h
  have hrun : ∃ s', kmalloc (flatMmu pagesUpwards) samplePools 0xFFFFFFFFFFFFFFFF readyKernel =
      .ok 0x10000000010 s' := by
    delta readyKernel
    exact ⟨_, eq_ok_of_returned (by decide +kernel)⟩
  obtain ⟨s', hrun⟩ := hrun
  have hfits := h pagesUpwards samplePools readyKernel s' 0xFFFFFFFFFFFFFFFF 0x10000000010 (by decide) hrun
  have hshort := takenBytes_wrapped hrun (by decide)
  have hsize : (0xFFFFFFFFFFFFFFFF : Word).toNat = 2 ^ 64 - 1 := rfl
  omega

end SkipOS
