import SkipOS.KmallocPage

/-! `kmalloc` and `kfree` on a heap that meets the invariant, and clients writing. -/

namespace SkipOS

open Mem Exec

/-- The state after the first chunk of pool `i` has been handed out. -/
def chunkTaken (arr : PoolArr) (s : Kernel Flat) (i : Fin 7) (bytesNeeded : Word) : Kernel Flat :=
  let newMem := (s.pools i).head
  (s.withPool i ⟨(s.pools i).avail - 1, s.mmu.mem.load64 newMem⟩).withMem
    ((s.mmu.mem.store64 newMem (arr.ptr i)).store64 (newMem + 8) bytesNeeded)

/-- The state after `num` fresh pages have been handed out as one block. -/
def pagesTaken (s : Kernel Flat) (p : Placement) (num : Word) : Kernel Flat :=
  (s.withRange p num).withMem
    (((s.withRange p num).mmu.mem.store64 p.base 0).store64 (p.base + 8) (num * pageSize))

/-- The state after a chunk has gone to the front of the list of its pool. -/
def chunkFreed (s : Kernel Flat) (i : Fin 7) (c : Word) : Kernel Flat :=
  (s.withMem (s.mmu.mem.store64 c (s.pools i).head)).withPool i ⟨(s.pools i).avail, c⟩

/-- The state after the pages of a block have been given back. -/
def pagesFreed (s : Kernel Flat) (a : Alloc) : Kernel Flat :=
  { s with mmu := { s.mmu with ranges := s.mmu.ranges.erase (a.base, a.pageCnt) } }

/-- The chunks given back after one more `kfree`. -/
def freedAfter (freed : Fin 7 → Nat) (a : Alloc) : Fin 7 → Nat :=
  match a.pool with
  | some i => Function.update freed i (freed i + 1)
  | none => freed

/-- The bytes behind the header. -/
def Alloc.data (a : Alloc) : Set Word := span (a.base + sizeofHeader) (a.block.len - 16)

variable {arr : PoolArr} {s s' : Kernel Flat} {out : List Alloc} {freed : Fin 7 → Nat}
  {free : FreeLists} {a : Alloc} {i : Fin 7} {b c v w size ptr : Word} {r : Region} {m : Mem}
  {p : Placement} {place : Flat → Word → Placement}

@[simp] theorem withPool_withPool (s : Kernel Flat) (i : Fin 7) (p q : KmallocPool) :
    (s.withPool i p).withPool i q = s.withPool i q := by
  simp [Kernel.withPool]

@[simp] theorem withPool_pools_self (s : Kernel Flat) (i : Fin 7) (p : KmallocPool) :
    (s.withPool i p).pools i = p := by
  simp [Kernel.withPool]

theorem kmalloc_eq_ok (h : kmalloc (flatMmu place) arr size s = .ok ptr s') :
    (getBestPool (size + sizeofHeader) = none ∧ ∃ p : Placement,
      s.mmu.Fresh p.base (newPageCnt (size + sizeofHeader)) ∧ ptr = p.base + sizeofHeader ∧
      s' = pagesTaken s p (newPageCnt (size + sizeofHeader))) ∨
    ∃ i s1, getBestPool (size + sizeofHeader) = some i ∧
      ((s.pools i).avail ≠ 0 ∧ s1 = s ∨
        (s.pools i).avail = 0 ∧ ∃ p : Placement, s.mmu.Fresh p.base 1 ∧ s1 = pageAdded s i p) ∧
      ptr = (s1.pools i).head + sizeofHeader ∧ s' = chunkTaken arr s1 i (size + sizeofHeader) := by
  obtain ⟨_, s0, hassert, hrun⟩ := bind_eq_ok.mp h
  obtain ⟨-, rfl⟩ := assert_eq_ok.mp hassert
  cases hbest : getBestPool (size + sizeofHeader) with
  | none =>
    left
    simp only [hbest] at hrun
    obtain ⟨v, s1, halloc, hrest⟩ := bind_eq_ok.mp hrun
    obtain ⟨p, rfl, hfresh, rfl⟩ := allocPages_eq_ok halloc
    rw [bind_of_ok (store_apply _ _ _ _), bind_of_ok (store_apply _ _ _ _), pure_apply,
      EStateM.Result.ok.injEq] at hrest
    obtain ⟨rfl, rfl⟩ := hrest
    exact ⟨rfl, p, hfresh, rfl, rfl⟩
  | some i =>
    right
    simp only [hbest, bind_get] at hrun
    obtain ⟨_, s1, hadd, hrest⟩ := bind_eq_ok.mp hrun
    rw [bind_get, bind_of_ok (load_apply _ _ _), bind_of_ok (setPool_apply _ _ _),
      bind_of_ok (setPool_apply _ _ _), bind_of_ok (store_apply _ _ _ _),
      bind_of_ok (store_apply _ _ _ _), pure_apply, EStateM.Result.ok.injEq] at hrest
    obtain ⟨rfl, rfl⟩ := hrest
    refine ⟨i, s1, rfl, ?_, rfl, ?_⟩
    · by_cases havail : (s.pools i).avail = 0
      · rw [if_pos havail] at hadd
        exact Or.inr ⟨havail, addPage_eq_ok hadd⟩
      · rw [if_neg havail, pure_apply, EStateM.Result.ok.injEq] at hadd
        exact Or.inl ⟨havail, hadd.2.symm⟩
    · simp only [withPool_pools_self, withPool_withPool]
      rfl

theorem Alloc.block_of_pool (h : a.pool = some i) : a.block = chunk i a.base := by
  simp only [Alloc.block, h, chunk]

theorem Alloc.block_of_large (h : a.pool = none) : a.block = rangeRegion (a.base, a.pageCnt) := by
  simp only [Alloc.block, h, rangeRegion]

theorem Alloc.base_mk (c size : Word) : (Alloc.mk (c + sizeofHeader) size).base = c :=
  BitVec.add_sub_cancel c sizeofHeader

theorem header_loads (hfits : c.toNat + 16 ≤ 2 ^ 64) :
    ((m.store64 c v).store64 (c + 8) w).load64 c = v ∧
      ((m.store64 c v).store64 (c + 8) w).load64 (c + 8) = w := by
  have h8 : (c + 8).toNat = c.toNat + 8 := by bv_omega
  refine ⟨?_, load64_store64_self _ _ _⟩
  rw [load64_store64_of_disjoint (span_disjoint (by omega) (by omega)).symm, load64_store64_self]

theorem header_eqOn (hlen : 16 ≤ r.len) :
    Set.EqOn ((m.store64 r.base v).store64 (r.base + 8) w) m r.bytesᶜ := by
  have h8 : (8 : Word).toNat = 8 := rfl
  have hfirst : span r.base 8 ⊆ r.bytes := Region.span_base_subset_bytes (by omega)
  have hsecond : span (r.base + 8) 8 ⊆ r.bytes := span_offset_subset (by omega)
  intro x hx
  rw [store64_eqOn_compl _ _ _ fun hs => hx (hsecond hs),
    store64_eqOn_compl _ _ _ fun hs => hx (hfirst hs)]

theorem HeapInv.exists_head (h : HeapInv arr s out freed free) (havail : (s.pools i).avail ≠ 0) :
    ∃ l, free i = (s.pools i).head :: l := by
  have hcount := h.count i
  have hne : (s.pools i).head ≠ 0 := by
    intro hz
    rw [(h.linked i).eq_null_iff.mp hz, List.length_nil] at hcount
    exact havail (BitVec.eq_of_toNat_eq (Nat.eq_zero_of_add_eq_zero hcount).1)
  obtain ⟨l, hl, -⟩ := (h.linked i).exists_cons hne
  exact ⟨l, hl⟩

theorem HeapInv.chunkTaken (h : HeapInv arr s out freed free) (havail : (s.pools i).avail ≠ 0)
    (hbest : getBestPool (size + sizeofHeader) = some i) :
    ∃ free', HeapInv arr (chunkTaken arr s i (size + sizeofHeader))
      (⟨(s.pools i).head + sizeofHeader, size⟩ :: out) freed free' := by
  obtain ⟨l, hl⟩ := h.exists_head havail
  set c := (s.pools i).head with hc
  obtain ⟨hrest, hhole, hpage⟩ := h.take_chunk hl havail
  have hlen := (maxSize_bounds i).1
  have hfits : c.toNat + (maxSize i).toNat ≤ 2 ^ 64 := hhole.housed.fits
  have heq : Set.EqOn ((s.mmu.mem.store64 c (arr.ptr i)).store64 (c + 8) (size + sizeofHeader))
      s.mmu.mem (chunk i c).bytesᶜ := header_eqOn (r := chunk i c) (by simp only [chunk]; omega)
  have hwritten := hrest.write_hole (r := chunk i c) ⟨hhole.housed, hhole.apart⟩ heq
  have hbase := Alloc.base_mk c size
  have hpool : (Alloc.mk (c + sizeofHeader) size).pool = some i := hbest
  have hblock : (Alloc.mk (c + sizeofHeader) size).block = chunk i c := by
    rw [Alloc.block_of_pool hpool, hbase]
  refine ⟨_, hwritten.hand_out (a := ⟨c + sizeofHeader, size⟩) ?_ ?_ ?_ ?_⟩
  · rw [hblock]
    exact ⟨hhole.housed, hhole.apart⟩
  · intro j hj
    obtain rfl : i = j := Option.some.inj (hpool.symm.trans hj)
    rw [hbase]
    exact hpage
  · intro hnone
    rw [hpool] at hnone
    exact absurd hnone (Option.some_ne_none i)
  · obtain ⟨hfirst, hsecond⟩ := header_loads (m := s.mmu.mem) (v := arr.ptr i)
      (w := size + sizeofHeader) (c := c) (by omega)
    rw [HasHeader, Alloc.headerPool, Alloc.headerSize, hpool, hbase]
    exact ⟨hfirst, hsecond⟩

theorem HeapInv.pagesTaken (h : HeapInv arr s out freed free)
    (hbest : getBestPool (size + sizeofHeader) = none)
    (hfresh : s.mmu.Fresh p.base (newPageCnt (size + sizeofHeader))) :
    HeapInv arr (pagesTaken s p (newPageCnt (size + sizeofHeader)))
      (⟨p.base + sizeofHeader, size⟩ :: out) freed free := by
  obtain ⟨hinv, hhole⟩ := h.withRange hfresh
  obtain ⟨hne, hal, hfits, -⟩ := hfresh
  have hbase := Alloc.base_mk p.base size
  have hpool : (Alloc.mk (p.base + sizeofHeader) size).pool = none := hbest
  have hblock : (Alloc.mk (p.base + sizeofHeader) size).block =
      rangeRegion (p.base, newPageCnt (size + sizeofHeader)) := by
    rw [Alloc.block_of_large hpool, hbase]
    rfl
  have hlen := (Alloc.mk (p.base + sizeofHeader) size).le_block_len
  rw [hblock] at hlen
  have hwritten := hinv.write_hole hhole (header_eqOn (v := 0)
    (w := newPageCnt (size + sizeofHeader) * pageSize) (m := (s.withRange p _).mmu.mem)
    (show 16 ≤ (rangeRegion (p.base, newPageCnt (size + sizeofHeader))).len by omega))
  refine hwritten.hand_out (a := ⟨p.base + sizeofHeader, size⟩) ?_ ?_ ?_ ?_
  · rw [hblock]
    exact ⟨hhole.housed, hhole.apart⟩
  · intro j hj
    rw [hpool] at hj
    exact absurd hj.symm (Option.some_ne_none j)
  · intro _
    rw [OnRange, hbase]
    exact ⟨List.mem_cons_self, hne, hal⟩
  · have hfits' : p.base.toNat + (rangeRegion (p.base, newPageCnt (size + sizeofHeader))).len ≤ 2 ^ 64 :=
      hfits
    obtain ⟨hfirst, hsecond⟩ := header_loads (m := (s.withRange p
      (newPageCnt (size + sizeofHeader))).mmu.mem) (v := 0)
      (w := newPageCnt (size + sizeofHeader) * pageSize) (c := p.base) (by omega)
    rw [HasHeader, Alloc.headerPool, Alloc.headerSize, hpool, hbase]
    exact ⟨hfirst, hsecond⟩

theorem HeapInv.of_kmalloc (h : HeapInv arr s out freed free)
    (hrun : kmalloc (flatMmu place) arr size s = .ok ptr s') :
    ∃ free', HeapInv arr s' (⟨ptr, size⟩ :: out) freed free' := by
  rcases kmalloc_eq_ok hrun with ⟨hbest, p, hfresh, rfl, rfl⟩ | ⟨i, s1, hbest, hadd, rfl, rfl⟩
  · exact ⟨free, h.pagesTaken hbest hfresh⟩
  · rcases hadd with ⟨havail, rfl⟩ | ⟨havail, p, hfresh, rfl⟩
    · exact h.chunkTaken havail hbest
    · have hadded := h.addPage havail hfresh
      refine hadded.chunkTaken ?_ hbest
      have hn := (numChunks_bounds i).2.1
      simp only [pageAdded, Function.update_self, havail]
      intro hz
      have hz' : (numChunks i).toNat = 0 := congrArg BitVec.toNat ((BitVec.zero_add _).symm.trans hz)
      omega

theorem HeapInv.ptr_ne_zero (h : HeapInv arr s out freed free) (ha : a ∈ out) : a.ptr ≠ 0 := by
  intro hz
  have hfits : a.base.toNat + a.block.len ≤ 2 ^ 64 := (h.housed _ (block_mem ha)).fits
  have hlen := a.le_block_len
  have hbase : a.base = 0 - sizeofHeader := by rw [Alloc.base, hz]
  rw [hbase] at hfits
  have hnat : (0 - sizeofHeader : Word).toNat = 2 ^ 64 - 16 := by decide
  omega

theorem HeapInv.drop_range (h : HeapInv arr s out freed free)
    (hhole : ∀ b ∈ blocks out free, a.block.Apart b) (hlarge : a.pool = none) :
    HeapInv arr { s with mmu := { s.mmu with ranges := s.mmu.ranges.erase (a.base, a.pageCnt) } } out
      freed free := by
  have hblock := Alloc.block_of_large hlarge
  have hlen : ∀ b ∈ blocks out free, 0 < b.len := by
    intro b hb
    rcases mem_blocks.mp hb with ⟨a', -, rfl⟩ | ⟨i, c, -, rfl⟩
    · have := a'.le_block_len
      omega
    · have := (maxSize_bounds i).1
      simp only [chunk]
      omega
  refine ⟨h.linked, h.count, h.apart, fun b hb => ?_, h.free_on_page, h.out_on_page,
    fun a' ha' ho => ?_, h.added_ok, h.header⟩
  · obtain ⟨x, hx, hfits, hw⟩ := h.housed b hb
    refine ⟨x, (List.mem_erase_of_ne ?_).mpr hx, hfits, hw⟩
    rintro rfl
    rw [← hblock] at hw
    exact (hw.apart (hhole b hb)).ne (hlen b hb) rfl
  · obtain ⟨hmem, hne⟩ := h.large a' ha' ho
    refine ⟨(List.mem_erase_of_ne ?_).mpr hmem, hne⟩
    intro he
    have hapart := hhole _ (block_mem ha')
    rw [hblock, Alloc.block_of_large ho, he] at hapart
    have hpos := hlen _ (block_mem ha')
    rw [Alloc.block_of_large ho, he] at hpos
    exact hapart.ne hpos rfl

/-- The size in the header of a large block gives its pages back. -/
theorem HeapInv.headerSize_div (h : HeapInv arr s out freed free) (ha : a ∈ out)
    (hlarge : a.pool = none) : a.headerSize / pageSize = a.pageCnt := by
  obtain ⟨-, hne, hal⟩ := h.large a ha hlarge
  have hfits := (h.housed _ (block_mem ha)).fits
  rw [Alloc.block_of_large hlarge, Region.Fits] at hfits
  simp only [rangeRegion] at hfits
  have hpos : a.base.toNat ≠ 0 := fun hz => hne (BitVec.eq_of_toNat_eq hz)
  have hp : pageSize.toNat = 4096 := rfl
  have hsize : a.headerSize = a.pageCnt * pageSize := by simp only [Alloc.headerSize, hlarge]
  apply BitVec.eq_of_toNat_eq
  rw [hsize, BitVec.toNat_udiv, BitVec.toNat_mul, hp, Nat.mod_eq_of_lt (by omega),
    Nat.mul_div_cancel _ (by decide)]

theorem HeapInv.pagesFreed (h : HeapInv arr s out freed free) (ha : a ∈ out)
    (hlarge : a.pool = none) : HeapInv arr (pagesFreed s a) (out.erase a) freed free := by
  obtain ⟨hrest, hhole⟩ := h.take_out ha
  exact hrest.drop_range hhole.apart hlarge

theorem HeapInv.base_ne_zero (h : HeapInv arr s out freed free) (ha : a ∈ out)
    (hpool : a.pool = some i) : a.base ≠ 0 := by
  intro hz
  obtain ⟨page, k, hmem, -, hk⟩ := h.out_on_page a ha i hpool
  have hbase : a.base.toNat = 0 := congrArg BitVec.toNat hz
  have hpage : page.toNat = 0 := by omega
  exact (h.added_ok _ hmem).1 (BitVec.eq_of_toNat_eq hpage)

theorem HeapInv.chunkFreed (h : HeapInv arr s out freed free) (ha : a ∈ out)
    (hpool : a.pool = some i) : HeapInv arr (chunkFreed s i a.base) (out.erase a)
      (Function.update freed i (freed i + 1)) (Function.update free i ([a.base] ++ free i)) := by
  obtain ⟨hrest, hhole⟩ := h.take_out ha
  rw [Alloc.block_of_pool hpool] at hhole
  have heq : Set.EqOn (s.mmu.mem.store64 a.base (s.pools i).head) s.mmu.mem (chunk i a.base).bytesᶜ :=
    (store64_eqOn_compl _ _ _).mono (Set.compl_subset_compl.mpr (span_chunk_subset i a.base))
  have hwritten := hrest.write_hole hhole heq
  refine hwritten.put_chunks (l := [a.base]) (i := i) (n := freed i + 1)
    (p := ⟨(s.pools i).avail, a.base⟩) ?_ ?_ ?_ ?_ ?_
  · refine ⟨rfl, h.base_ne_zero ha hpool, ?_⟩
    have hload : (s.mmu.mem.store64 a.base (s.pools i).head).load64 a.base = (s.pools i).head :=
      load64_store64_self _ _ _
    rw [hload]
    exact hwritten.linked i
  · have hcount := h.count i
    rw [List.length_append, List.length_singleton]
    simp only
    omega
  · exact List.pairwise_singleton _ _
  · intro c hc
    obtain rfl := List.mem_singleton.mp hc
    exact ⟨hhole.housed, hhole.apart⟩
  · intro c hc
    obtain rfl := List.mem_singleton.mp hc
    exact h.out_on_page a ha i hpool

/-! `kfree`, once the header has been read. -/

section ReadHeader

variable {σ : Type} {M : Mmu σ} {k : Kernel σ} (hptr : a.ptr ≠ 0)
  (hsize : onMmu (M.load64 (a.base + 8)) k = .ok a.headerSize k)
  (hfirst : onMmu (M.load64 a.base) k = .ok (a.headerPool arr) k)

include hptr hsize hfirst

theorem kfree_large (hpool : a.pool = none) :
    kfree M arr a.ptr k = onMmu (M.freePages a.base (a.headerSize / pageSize)) k := by
  have hbase : a.ptr - sizeofHeader = a.base := rfl
  have hnull : a.headerPool arr = 0 := by simp only [Alloc.headerPool, hpool]
  rw [kfree, bind_assert_of hptr]
  rw [hbase, bind_of_ok hsize, bind_of_ok hfirst, if_pos hnull]

theorem kfree_small (hpool : a.pool = some i) : kfree M arr a.ptr k =
    (onMmu (M.store64 a.base (k.pools i).head) >>= fun _ =>
      setPool i fun p => { p with head := a.base }) k := by
  have hbase : a.ptr - sizeofHeader = a.base := rfl
  have hne : a.headerPool arr ≠ 0 := by
    simp only [Alloc.headerPool, hpool]
    exact arr.ptr_ne_zero i
  have hat : arr.poolAt (a.headerPool arr) k = .ok i k := by
    simp only [Alloc.headerPool, hpool]
    exact PoolArr.poolAt_ptr arr i k
  rw [kfree, bind_assert_of hptr]
  rw [hbase, bind_of_ok hsize, bind_of_ok hfirst, if_neg hne, bind_of_ok hat, bind_get]

end ReadHeader

theorem HeapInv.of_kfree (h : HeapInv arr s out freed free) (ha : a ∈ out)
    (place : Flat → Word → Placement) :
    ∃ s' free', kfree (flatMmu place) arr a.ptr s = .ok () s' ∧
      HeapInv arr s' (out.erase a) (freedAfter freed a) free' := by
  obtain ⟨hpoolptr, hsize⟩ := h.header a ha
  have hptr := h.ptr_ne_zero ha
  have hsecond : onMmu ((flatMmu place).load64 (a.base + 8)) s = .ok a.headerSize s := by
    rw [load_apply, hsize]
  have hfirst : onMmu ((flatMmu place).load64 a.base) s = .ok (a.headerPool arr) s := by
    rw [load_apply, hpoolptr]
  cases hpool : a.pool with
  | none =>
    have hrun := kfree_large hptr hsecond hfirst hpool
    rw [h.headerSize_div ha hpool, freePages_of_mem (h.large a ha hpool).1] at hrun
    refine ⟨_, free, hrun, ?_⟩
    rw [freedAfter, hpool]
    exact h.pagesFreed ha hpool
  | some i =>
    have hrun := kfree_small hptr hsecond hfirst hpool
    rw [bind_of_ok (store_apply _ _ _ _), setPool_apply] at hrun
    refine ⟨_, Function.update free i ([a.base] ++ free i), hrun, ?_⟩
    rw [freedAfter, hpool]
    exact h.chunkFreed ha hpool

theorem HeapInv.of_write (h : HeapInv arr s out freed free) (ha : a ∈ out) (hb : b ∈ a.data)
    (x : Byte) : HeapInv arr (s.withMem (s.mmu.mem.storeByte b x)) out freed free := by
  obtain ⟨hrest, hhole⟩ := h.take_out ha
  have hfits : a.base.toNat + a.block.len ≤ 2 ^ 64 := hhole.housed.fits
  have hlen := a.le_block_len
  have hh : sizeofHeader.toNat = 16 := rfl
  have hdata : a.data ⊆ a.block.bytes := span_offset_subset (by omega)
  have heq : ∀ X : Set Word, b ∉ X → Set.EqOn (s.mmu.mem.storeByte b x) s.mmu.mem X := by
    intro X hX y hy
    have hne : y ≠ b := by
      rintro rfl
      exact hX hy
    simp [storeByte, hne]
  have hwritten := hrest.write_hole hhole (heq _ fun hn => hn (hdata hb))
  have hbase : (a.base + sizeofHeader).toNat = a.base.toNat + 16 := by bv_omega
  have hheader : HasHeader arr (s.mmu.mem.storeByte b x) a := by
    obtain ⟨hfirst, hsecond⟩ := h.header a ha
    have h8 : (a.base + 8).toNat = a.base.toNat + 8 := by bv_omega
    refine ⟨?_, ?_⟩
    · rw [load64_congr (heq _ fun hm => Set.disjoint_left.mp
        (span_disjoint (b := a.base + sizeofHeader) (k := a.block.len - 16) (by omega) (by omega)) hm hb)]
      exact hfirst
    · rw [load64_congr (heq _ fun hm => Set.disjoint_left.mp
        (span_disjoint (b := a.base + sizeofHeader) (k := a.block.len - 16) (by omega) (by omega)) hm hb)]
      exact hsecond
  have hback := hwritten.hand_out (a := a) ⟨hhole.housed, hhole.apart⟩ (h.out_on_page a ha)
    (h.large a ha) hheader
  exact hback.perm_out (List.perm_cons_erase ha).symm

end SkipOS
