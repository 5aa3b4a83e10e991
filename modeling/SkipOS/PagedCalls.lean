import SkipOS.PagedInv

/-! What `kmalloc`, `kfree`, the holders of blocks and the other users of the virtual page
allocator do to the heap over pages. -/

namespace SkipOS

open Mem Exec Walk

variable {managed : List Word} {limit base f p page size ptr va : Word} {s s' t u : Machine}
  {P Q : Pool} {live others : Set Word} {fuel : Nat} {k k' : Kernel Machine} {arr : PoolArr}
  {out : List Alloc} {freed freed' : Fin 7 → Nat} {free free' : FreeLists} {i : Fin 7}
  {added : List (Fin 7 × Word)} {r : Word × Word} {a : Alloc} {w : Unit} {R : List (Word × Word)}

/-! `kmalloc` -/

theorem headPages_cons_small (h : a.pool = some i) :
    headPages added (a :: out) ⊆ headPages added out := by
  rintro va (hm | ⟨b, hb, hp, rfl⟩)
  · exact Or.inl hm
  · rcases List.mem_cons.mp hb with rfl | hb
    · rw [h] at hp
      exact absurd hp (Option.some_ne_none i)
    · exact Or.inr ⟨b, hb, hp, rfl⟩

theorem headPages_cons_large :
    headPages added (a :: out) ⊆ insert a.base (headPages added out) := by
  rintro va (hm | ⟨b, hb, hp, rfl⟩)
  · exact Or.inr (Or.inl hm)
  · rcases List.mem_cons.mp hb with rfl | hb
    · exact Or.inl rfl
    · exact Or.inr (Or.inr ⟨b, hb, hp, rfl⟩)

theorem headPages_added :
    headPages ((i, base) :: added) out ⊆ insert base (headPages added out) := by
  rintro va (⟨j, hm⟩ | hm)
  · rcases List.mem_cons.mp hm with he | hm
    · exact Or.inl (congrArg Prod.snd he)
    · exact Or.inr (Or.inl ⟨j, hm⟩)
  · exact Or.inr (Or.inr hm)

theorem PagedInv.of_addPage (h : PagedInv managed limit arr k out freed free others P)
    (havail : (k.pools i).avail = 0) (hrun : addPage (pagedMmu fuel) i k = .ok w k')
    (hnull : .pfAlloc 0 ∉ k'.mmu.events) :
    (k'.pools i).avail ≠ 0 ∧
      ∃ free' Q, PagedInv managed limit arr k' out freed free' others Q := by
  obtain ⟨base, f, u, hnew, hflat, hsame⟩ := addPage_spec h.vm hrun hnull (heapRanges k.added out)
  have hadded : k'.added = (i, base) :: k.added := congrArg (fun x : Kernel Flat => x.added) hflat
  have hpools : k'.pools = (pageAdded (k.flat _) i ⟨base, u.virt⟩).pools :=
    congrArg (fun x : Kernel Flat => x.pools) hflat
  have hheap := h.heap.addPage havail (h.fresh hnew) (p := ⟨base, u.virt⟩)
  have hR : heapRanges k'.added out = (base, 1) :: heapRanges k.added out := by
    rw [hadded]
    rfl
  rw [← hflat, ← hR] at hheap
  refine ⟨?_, _, h.extend hnew hsame (List.Perm.of_eq hR.symm) ?_ hheap⟩
  · have hn := (numChunks_bounds i).2.1
    rw [hpools]
    simp only [pageAdded, Kernel.flat, Function.update_self, havail]
    intro hz
    have hz' : (numChunks i).toNat = 0 := congrArg BitVec.toNat ((BitVec.zero_add _).symm.trans hz)
    omega
  · rw [hadded]
    exact headPages_added

theorem PagedInv.head_page (h : PagedInv managed limit arr k out freed free others P)
    (havail : (k.pools i).avail ≠ 0) : ∃ page f, IsPage page ∧
      k.mmu.node (pathOf page) = some f ∧ page.toNat ≤ (k.pools i).head.toNat ∧
      (k.pools i).head.toNat + 16 ≤ page.toNat + 4096 := by
  obtain ⟨l, hl⟩ := h.heap.exists_head havail
  have hmem : (k.pools i).head ∈ free i := by
    rw [hl]
    exact List.mem_cons_self
  obtain ⟨page, hm, hlo, hhi⟩ := (h.heap.free_on_page i _ hmem).headPage out
  obtain ⟨hpage, f, hf⟩ := h.headPage hm
  have := (maxSize_bounds i).1
  exact ⟨page, f, hpage, hf, hlo, by omega⟩

theorem PagedInv.of_chunk (h : PagedInv managed limit arr k out freed free others P)
    (havail : (k.pools i).avail ≠ 0) (hbest : getBestPool (size + sizeofHeader) = some i)
    (hflat : k'.flat (heapRanges k.added out) =
      chunkTaken arr (k.flat (heapRanges k.added out)) i (size + sizeofHeader))
    (hsame : Rewritten k.mmu k'.mmu) : ∃ free', PagedInv managed limit arr k'
      (⟨(k.pools i).head + sizeofHeader, size⟩ :: out) freed free' others P := by
  have hadded : k'.added = k.added := congrArg (fun x : Kernel Flat => x.added) hflat
  have hpool : (Alloc.mk ((k.pools i).head + sizeofHeader) size).pool = some i := hbest
  have hR : heapRanges k'.added (⟨(k.pools i).head + sizeofHeader, size⟩ :: out) =
      heapRanges k.added out := by
    rw [hadded, heapRanges_cons_small hpool]
  obtain ⟨free', hheap⟩ := h.heap.chunkTaken havail hbest
  rw [← hflat, ← hR] at hheap
  refine ⟨free', h.of_rewritten hsame (List.Perm.of_eq hR.symm) ?_ hheap⟩
  rw [hadded]
  exact headPages_cons_small hpool

/-- A block in pages of its own, once these are there. -/
theorem kmalloc_large (arr : PoolArr) (hsize : 0 < size)
    (hbest : getBestPool (size + sizeofHeader) = none)
    (halloc : mmuAllocPages fuel (newPageCnt (size + sizeofHeader)) k.mmu = .ok base t)
    (htouch : touch base t = .ok (f + base % pageSize) u)
    (hnew : NewPages managed limit live base (newPageCnt (size + sizeofHeader)) f k.mmu u)
    (R : List (Word × Word)) :
    ∃ k', kmalloc (pagedMmu fuel) arr size k = .ok (base + sizeofHeader) k' ∧
      k'.flat ((base, newPageCnt (size + sizeofHeader)) :: R) =
        pagesTaken (k.flat R) ⟨base, u.virt⟩ (newPageCnt (size + sizeofHeader)) ∧
      Rewritten u k'.mmu := by
  obtain ⟨Q, hinv⟩ := hnew.inv
  have hnum := newPageCnt_pos (size + sizeofHeader)
  have hp : IsPage base := (hinv.pages.range base (Or.inr (mem_pageRange_self hnum))).1
  have hself := hp.pageBase_self
  obtain ⟨s1, s2, hstore, hstore', hvirt, hsame⟩ := storeHeader_paged fuel hinv hp hnew.node
    (Nat.le_refl _) (by omega) 0 (newPageCnt (size + sizeofHeader) * pageSize)
  rw [← store64_of_touched fuel htouch (touch_of_node (hself.symm ▸ hp) hnew.node)] at hstore
  refine ⟨{ k with mmu := s2 }, ?_, ?_, hsame⟩
  · rw [kmalloc, bind_assert_of hsize]
    simp only [hbest]
    rw [bind_of_ok (onMmu_of_ok (x := (pagedMmu fuel).allocPages _) halloc),
      bind_of_ok (onMmu_of_ok (k := { k with mmu := t }) hstore),
      bind_of_ok (onMmu_of_ok (k := { k with mmu := s1 }) hstore')]
    rfl
  · rw [pagesTaken, Kernel.withMem, hnew.withRange R, Kernel.flat, hvirt]
    rfl

theorem kmalloc_large_touched (hbest : getBestPool (size + sizeofHeader) = none)
    (hrun : kmalloc (pagedMmu fuel) arr size k = .ok ptr k') : 0 < size ∧ ∃ base t p u,
      mmuAllocPages fuel (newPageCnt (size + sizeofHeader)) k.mmu = .ok base t ∧
        touch base t = .ok p u ∧ Grows u k'.mmu := by
  have hM := moves_pagedMmu fuel
  obtain ⟨_, k0, hassert, hrest⟩ := bind_eq_ok.mp hrun
  obtain ⟨hsize, rfl⟩ := assert_eq_ok.mp hassert
  simp only [hbest] at hrest
  obtain ⟨base, t, halloc, hrest⟩ := onMmu_bind_eq_ok hrest
  obtain ⟨_, s1, hstore, hrest⟩ := onMmu_bind_eq_ok hrest
  obtain ⟨p, u, htouch, hwrite⟩ := bind_eq_ok.mp hstore
  obtain rfl := modify_eq_ok.mp hwrite
  refine ⟨hsize, base, t, p, u, halloc, htouch, ?_⟩
  exact grows_of_moves (hM.bind (moves_onMmu (hM.store64 _ _)) fun _ => hM.pure _) hrest

theorem PagedInv.of_large (h : PagedInv managed limit arr k out freed free others P)
    (hbest : getBestPool (size + sizeofHeader) = none)
    (hrun : kmalloc (pagedMmu fuel) arr size k = .ok ptr k') (hnull : .pfAlloc 0 ∉ k'.mmu.events) :
    (∃ Q, PagedInv managed limit arr k' (⟨ptr, size⟩ :: out) freed free others Q) ∧
      takenPages k.mmu k'.mmu =
        pageRange (Alloc.mk ptr size).base (Alloc.mk ptr size).pageCnt.toNat := by
  obtain ⟨hsize, base, t, p, u, halloc, htouch, hgrow⟩ := kmalloc_large_touched hbest hrun
  have hnum := newPageCnt_pos (size + sizeofHeader)
  obtain ⟨f, rfl, hnew⟩ := newPages_spec h.vm hnum halloc htouch fun hm => hnull (hgrow.subset hm)
  obtain ⟨k1, hrun', hflat, hsame⟩ := kmalloc_large arr hsize hbest halloc htouch hnew
    (heapRanges k.added out)
  obtain ⟨rfl, rfl⟩ := EStateM.Result.ok.inj (hrun'.symm.trans hrun)
  have hadded : k1.added = k.added := congrArg (fun x : Kernel Flat => x.added) hflat
  have hpool : (Alloc.mk (base + sizeofHeader) size).pool = none := hbest
  have hbase := Alloc.base_mk base size
  have hR : (heapRanges k.added (⟨base + sizeofHeader, size⟩ :: out)).Perm
      ((_, newPageCnt (size + sizeofHeader)) :: heapRanges k.added out) := heapRanges_cons_large hpool
  rw [hbase] at hR
  have hheap := h.heap.pagesTaken hbest (p := ⟨base, u.virt⟩) (h.fresh hnew)
  rw [← hflat] at hheap
  have htaken := hnew.takenPages h.vm hsame
  refine ⟨h.extend hnew hsame ?_ ?_ ?_, by rw [htaken, hbase]; rfl⟩
  · rw [hadded]
    exact hR.symm
  · rw [hadded]
    have hheads : headPages k.added (⟨base + sizeofHeader, size⟩ :: out) ⊆ _ := headPages_cons_large
    rwa [hbase] at hheads
  · rw [hadded]
    exact hheap.flat_perm hR.symm

/-- `kmalloc` from a pool takes the first chunk, once there is one. -/
theorem PagedInv.kmalloc_small (h : PagedInv managed limit arr k out freed free others P)
    (hbest : getBestPool (size + sizeofHeader) = some i)
    (hrun : kmalloc (pagedMmu fuel) arr size k = .ok ptr k') (hnull : .pfAlloc 0 ∉ k'.mmu.events) :
    ∃ k1 free1 Q, PagedInv managed limit arr k1 out freed free1 others Q ∧
      (k1 = k ∨ addPage (pagedMmu fuel) i k = .ok () k1 ∧ .pfAlloc 0 ∉ k1.mmu.events) ∧
      (k1.pools i).avail ≠ 0 ∧ ptr = (k1.pools i).head + sizeofHeader ∧
      k'.flat (heapRanges k1.added out) =
        chunkTaken arr (k1.flat (heapRanges k1.added out)) i (size + sizeofHeader) ∧
      Rewritten k1.mmu k'.mmu := by
  have hM := moves_pagedMmu fuel
  obtain ⟨_, k0, hassert, hrest⟩ := bind_eq_ok.mp hrun
  obtain ⟨-, rfl⟩ := assert_eq_ok.mp hassert
  simp only [hbest, bind_get] at hrest
  obtain ⟨_, k1, hadd, hrest⟩ := bind_eq_ok.mp hrest
  have hgrow : Grows k1.mmu k'.mmu := by
    refine grows_of_moves (hM.bind hM.get fun s => ?_) hrest
    refine hM.bind (moves_onMmu (hM.load64 _)) fun next => ?_
    refine hM.bind (hM.setPool _ _) fun _ => ?_
    refine hM.bind (hM.setPool _ _) fun _ => ?_
    refine hM.bind (moves_onMmu (hM.store64 _ _)) fun _ => ?_
    exact hM.bind (moves_onMmu (hM.store64 _ _)) fun _ => hM.pure _
  have hnull1 : .pfAlloc 0 ∉ k1.mmu.events := fun hm => hnull (hgrow.subset hm)
  have hready : (k1 = k ∨ addPage (pagedMmu fuel) i k = .ok () k1 ∧ .pfAlloc 0 ∉ k1.mmu.events) ∧
      (k1.pools i).avail ≠ 0 ∧
      ∃ free1 Q, PagedInv managed limit arr k1 out freed free1 others Q := by
    by_cases havail : (k.pools i).avail = 0
    · rw [if_pos havail] at hadd
      exact ⟨Or.inr ⟨hadd, hnull1⟩, h.of_addPage havail hadd hnull1⟩
    · rw [if_neg havail] at hadd
      obtain ⟨-, rfl⟩ := pure_eq_ok.mp hadd
      exact ⟨Or.inl rfl, havail, free, P, h⟩
  obtain ⟨hwhence, havail, free1, Q, h1⟩ := hready
  obtain ⟨page, f, hpage, hf, hlo, hhi⟩ := h1.head_page havail
  obtain ⟨k2, hrun', hflat, hsame⟩ := kmalloc_chunk arr fuel h1.vm hpage hf hlo hhi
    (size + sizeofHeader) (heapRanges k1.added out)
  obtain ⟨rfl, rfl⟩ := EStateM.Result.ok.inj (hrun'.symm.trans hrest)
  exact ⟨k1, free1, Q, h1, hwhence, havail, rfl, hflat, hsame⟩

theorem PagedInv.of_kmalloc (h : PagedInv managed limit arr k out freed free others P)
    (hrun : kmalloc (pagedMmu fuel) arr size k = .ok ptr k') (hnull : .pfAlloc 0 ∉ k'.mmu.events) :
    ∃ free' Q, PagedInv managed limit arr k' (⟨ptr, size⟩ :: out) freed free' others Q := by
  cases hbest : getBestPool (size + sizeofHeader) with
  | none => exact ⟨free, (h.of_large hbest hrun hnull).1⟩
  | some i =>
    obtain ⟨k1, free1, Q, h1, -, havail, rfl, hflat, hsame⟩ := h.kmalloc_small hbest hrun hnull
    obtain ⟨free', h2⟩ := h1.of_chunk havail hbest hflat hsame
    exact ⟨free', Q, h2⟩

/-! `kfree` -/

theorem PagedInv.load_header (h : PagedInv managed limit arr k out freed free others P)
    (ha : a ∈ out) (fuel : Nat) :
    onMmu ((pagedMmu fuel).load64 (a.base + 8)) k = .ok a.headerSize k ∧
      onMmu ((pagedMmu fuel).load64 a.base) k = .ok (a.headerPool arr) k := by
  obtain ⟨page, hm, hlo, hhi⟩ := h.header_page ha
  obtain ⟨hpage, f, hf⟩ := h.headPage hm
  obtain ⟨hpool, hsize⟩ := h.heap.header a ha
  obtain ⟨hfirst, hsecond⟩ := WordIn.header hpage hlo hhi
  have hload := load64_paged fuel hpage hf hsecond
  have hload' := load64_paged fuel hpage hf hfirst
  have hflat : ∀ R, (k.flat R).mmu.mem = k.mmu.virt := fun _ => rfl
  rw [hflat] at hpool hsize
  rw [hsize] at hload
  rw [hpool] at hload'
  exact ⟨onMmu_of_ok hload, onMmu_of_ok hload'⟩

theorem PagedInv.of_kfree_small (h : PagedInv managed limit arr k out freed free others P)
    (ha : a ∈ out) (hpool : a.pool = some i) (fuel : Nat) :
    ∃ k' freed' free', kfree (pagedMmu fuel) arr a.ptr k = .ok () k' ∧
      PagedInv managed limit arr k' (out.erase a) freed' free' others P := by
  obtain ⟨hsize, hfirst⟩ := h.load_header ha fuel
  obtain ⟨page, hm, hlo, hhi⟩ := h.header_page ha
  obtain ⟨hpage, f, hf⟩ := h.headPage hm
  obtain ⟨s1, hstore, hvirt, hsame⟩ := store64_paged fuel h.vm hpage hf
    (WordIn.header hpage hlo hhi).1 (k.pools i).head
  have hrun := kfree_small (h.heap.ptr_ne_zero ha) hsize hfirst hpool
  rw [bind_of_ok (onMmu_of_ok hstore)] at hrun
  have hR : (heapRanges k.added out).Perm (heapRanges k.added (out.erase a)) := by
    have hp : (heapRanges k.added out).Perm (heapRanges k.added (a :: out.erase a)) :=
      heapRanges_perm (List.perm_cons_erase ha)
    rwa [heapRanges_cons_small hpool] at hp
  have hheap := h.heap.chunkFreed ha hpool
  have hflat : chunkFreed (k.flat (heapRanges k.added out)) i a.base =
      Kernel.flat ⟨Function.update k.pools i ⟨(k.pools i).avail, a.base⟩, s1, k.added⟩
        (heapRanges k.added out) := by
    simp only [Kernel.flat, hvirt]
    rfl
  rw [hflat] at hheap
  refine ⟨_, _, _, hrun, h.of_rewritten hsame hR ?_ (hheap.flat_perm hR)⟩
  rintro va (hva | ⟨b, hb, hp, rfl⟩)
  · exact Or.inl hva
  · exact Or.inr ⟨b, List.mem_of_mem_erase hb, hp, rfl⟩

theorem PagedInv.disjoint_range (h : PagedInv managed limit arr k out freed free others P)
    (hR : (heapRanges k.added out).Perm (r :: R)) :
    Disjoint (pageRange r.1 r.2.toNat) (heapPages R) := by
  have hapart := (List.pairwise_cons.mp ((hR.pairwise_iff Region.Apart.symm).mp h.apart)).1
  have htop := h.vm.pages.top_le
  have hfits : ∀ x ∈ r :: R, x.1.toNat + 4096 * x.2.toNat < 2 ^ 64 := by
    intro x hx
    have := h.below x (hR.mem_iff.mpr hx)
    omega
  rw [Set.disjoint_left]
  rintro va hva ⟨x, hx, hva'⟩
  have hlow := pageRange_toNat (hfits r List.mem_cons_self) hva
  have hhigh := pageRange_toNat (hfits x (List.mem_cons_of_mem _ hx)) hva'
  have hside := hapart x hx
  simp only [Region.Apart, rangeRegion] at hside
  omega

/-- The pages of a large block are handed over to others. -/
theorem PagedInv.disown (h : PagedInv managed limit arr k out freed free others P) (ha : a ∈ out)
    (hpool : a.pool = none) : PagedInv managed limit arr k (out.erase a) freed free
      (others ∪ pageRange a.base a.pageCnt.toNat) P := by
  have hR : (heapRanges k.added out).Perm
      ((a.base, a.pageCnt) :: heapRanges k.added (out.erase a)) :=
    (heapRanges_perm (List.perm_cons_erase ha)).trans (heapRanges_cons_large hpool)
  have hpages := (heapPages_perm hR).trans (heapPages_cons _ _)
  have hmem : ∀ r ∈ heapRanges k.added (out.erase a), r ∈ heapRanges k.added out :=
    fun r hr => hR.mem_iff.mpr (List.mem_cons_of_mem _ hr)
  have hheap := h.heap.pagesFreed ha hpool
  have hsub : (pagesFreed (k.flat (heapRanges k.added out)) a).mmu.ranges ⊆
      heapRanges k.added (out.erase a) := by
    have herase := hR.erase (a.base, a.pageCnt)
    rw [List.erase_cons_head] at herase
    exact herase.subset
  have hforeign := h.foreign
  rw [hpages, Set.disjoint_union_right] at hforeign
  refine ⟨?_, hheap.mono_ranges hsub, ?_, fun r hr => h.below r (hmem r hr), ?_, fun va hva => ?_⟩
  · have hvm := h.vm
    rw [hpages] at hvm
    rwa [Set.union_assoc, Set.union_comm (pageRange _ _)]
  · exact (List.pairwise_cons.mp ((hR.pairwise_iff Region.Apart.symm).mp h.apart)).2
  · exact Set.disjoint_union_left.mpr ⟨hforeign.1, h.disjoint_range hR⟩
  · refine h.present va (hva.imp_right ?_)
    rintro ⟨b, hb, hp, rfl⟩
    exact ⟨b, List.mem_of_mem_erase hb, hp, rfl⟩

theorem PagedInv.of_kfree_large (h : PagedInv managed limit arr k out freed free others P)
    (ha : a ∈ out) (hpool : a.pool = none) (fuel : Nat) :
    ∃ s', kfree (pagedMmu fuel) arr a.ptr k = .ok () { k with mmu := s' } ∧
      PagedInv managed limit arr { k with mmu := s' } (out.erase a) freed free others
        (P.append (k.mmu.framesOf a.pageCnt.toNat a.base)) ∧
      Freed managed limit a.base
        ((others ∪ heapPages (heapRanges k.added out)) \ pageRange a.base a.pageCnt.toNat) P
        (AnyPresent k.mmu a.base a.pageCnt.toNat) (k.mmu.framesOf a.pageCnt.toNat a.base)
        (pageRange a.base a.pageCnt.toNat) k.mmu s' := by
  obtain ⟨hsize, hfirst⟩ := h.load_header ha fuel
  have hR : (heapRanges k.added out).Perm
      ((a.base, a.pageCnt) :: heapRanges k.added (out.erase a)) :=
    (heapRanges_perm (List.perm_cons_erase ha)).trans (heapRanges_cons_large hpool)
  have hr : (a.base, a.pageCnt) ∈ heapRanges k.added out := hR.mem_iff.mpr List.mem_cons_self
  have hlive : ∀ j < a.pageCnt.toNat, a.base + BitVec.ofNat 64 (4096 * j) ∈
      others ∪ heapPages (heapRanges k.added out) :=
    fun j hj => Or.inr (pageRange_subset_heapPages hr ⟨j, hj, rfl⟩)
  obtain ⟨s', hfree, hfreed⟩ := mmuFreePages_spec h.vm (heapRanges_pos hr) hlive
  have hrun := kfree_large (h.heap.ptr_ne_zero ha) hsize hfirst hpool
  rw [h.heap.headerSize_div ha hpool,
    onMmu_of_ok (x := (pagedMmu fuel).freePages _ _) hfree] at hrun
  have hlost := h.disown ha hpool
  have hforeign := hlost.foreign
  rw [Set.disjoint_union_left] at hforeign
  have hleft : (others ∪ heapPages (heapRanges k.added out)) \ pageRange a.base a.pageCnt.toNat =
      others ∪ heapPages (heapRanges k.added (out.erase a)) := by
    have hpages := (heapPages_perm hR).trans (heapPages_cons _ _)
    have hdis : Disjoint (others ∪ heapPages (heapRanges k.added (out.erase a)))
        (pageRange a.base a.pageCnt.toNat) := by
      refine Set.disjoint_union_left.mpr ⟨?_, hforeign.2.symm⟩
      have hall := h.foreign
      rw [hpages] at hall
      exact hall.mono_right Set.subset_union_right
    rw [hpages, ← Set.union_assoc, Set.union_sdiff_right]
    exact hdis.sdiff_eq_left
  refine ⟨s', hrun, ?_, hfreed⟩
  refine hlost.of_kept (hleft ▸ hfreed.inv) (fun va hva => ?_) (by rw [hfreed.top]) hforeign.1
  refine hfreed.pages va (hlost.headPage hva).1 fun hm => ?_
  exact Set.disjoint_left.mp hforeign.2 hm (headPages_subset hva)

end SkipOS
