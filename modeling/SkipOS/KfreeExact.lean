import SkipOS.PagedSupply

/-! `kfree` of a block in pages of its own, whichever of them were touched. -/

namespace SkipOS

open Mem Exec Walk

/-- The pages of `X`, and no others, are given back, and with each its frame if it had one. -/
structure GivesBack (X : Set Word) (s s' : Machine) : Prop where
  freed : ∀ va ∈ X, s.pageStatus va ≠ .unmapped ∧ s'.pageStatus va = .unmapped
  others : ∀ va, va % pageSize = 0 → canonical va ∉ X → s'.pageStatus va = s.pageStatus va
  memory : ∀ b, pageBase b ∉ X → s'.virt b = s.virt b
  frames : ∃ es l, s'.events = es ++ s.events ∧ (freedFrames es).Nodup ∧
    (∀ f, f ∈ freedFrames es ↔ ∃ va ∈ X, s.pageStatus va = .mapped f) ∧
    CircularList s.mem l ∧ CircularList s'.mem (l ++ (freedFrames es).reverse)

variable {managed : List Word} {limit f va vp b : Word} {s s' : Machine} {P : Pool}
  {live : Set Word} {n : Nat} {present : Prop} {arr : PoolArr} {B : BootPool} {x x0 : SystemState}
  {a : Alloc}

theorem getBestPool_eq_none (h : 2048 < b.toNat) : getBestPool b = none := by
  have hmax : ∀ i : Fin 7, (maxSize i).toNat ≤ 2048 := by decide
  refine List.find?_eq_none.mpr fun i _ => ?_
  have hi := hmax i
  rw [decide_eq_true_eq, BitVec.le_def]
  omega

theorem mem_framesOf : f ∈ s.framesOf n va ↔
    ∃ j < n, s.node (pathOf (va + BitVec.ofNat 64 (4096 * j))) = some f := by
  induction n generalizing va with
  | zero => simp [Machine.framesOf]
  | succ n ih =>
    rw [Machine.framesOf, List.mem_append, Option.mem_toList, ih]
    constructor
    · rintro (hf | ⟨j, hj, hf⟩)
      · exact ⟨0, by omega, by simpa using hf⟩
      · exact ⟨j + 1, by omega, by rwa [add_page_succ]⟩
    · rintro ⟨j, hj, hf⟩
      cases j with
      | zero => exact Or.inl (by simpa using hf)
      | succ j =>
        rw [add_page_succ] at hf
        exact Or.inr ⟨j, by omega, hf⟩

theorem mapped_iff_node (hva : IsPage va) :
    s.pageStatus va = .mapped f ↔ s.node (pathOf va) = some f := by
  constructor
  · intro hs
    rw [Machine.pageStatus, if_neg hva.l4Index_ne_zero] at hs
    cases hn : s.node (pathOf va) with
    | some g =>
      rw [hn] at hs
      rw [PageStatus.mapped.inj hs]
    | none =>
      rw [hn] at hs
      dsimp only at hs
      split at hs <;> exact PageStatus.noConfusion hs
  · exact pageStatus_of_node hva.l4Index_ne_zero

/-- What a call of `MMU_free_pages` on live pages does, page by page. -/
theorem Freed.givesBack (h : VmInv managed limit s live P)
    (hsub : pageRange vp n ⊆ live)
    (hf : Freed managed limit vp (live \ pageRange vp n) P present (s.framesOf n vp)
      (pageRange vp n) s s') : GivesBack (pageRange vp n) s s' := by
  have hpage : ∀ va ∈ pageRange vp n, IsPage va := fun va hva => (h.pages.range va (hsub hva)).1
  refine ⟨fun va hva => ⟨?_, ?_⟩, fun va hal hva => ?_, fun b hb => hf.pages.virt hb, ?_⟩
  · have hp := hpage va hva
    rcases h.pages.live_flags va (hsub hva) with hfl | hfl
    · rw [(pageStatus_eq_reserved_iff hp.l4Index_ne_zero).mpr hfl]
      exact PageStatus.noConfusion
    · obtain ⟨t, g, ht, hg, -⟩ := leafFlags_present hfl
      have hnode : s.node (pathOf va) = some g := (walk_snoc_of_some ht).trans hg
      rw [(mapped_iff_node hp).mpr hnode]
      exact PageStatus.noConfusion
  · exact hf.inv.pages.pageStatus_of_dead (hpage va hva) fun hm => hm.2 hva
  · exact hf.pages.pageStatus_eq h.tables hf.inv.tables hal hva
  · obtain ⟨es, hes, hframes⟩ := hf.frees
    have hpool := hf.inv.tables.pool
    refine ⟨es, P.pages, hes, ?_, fun g => ?_, h.tables.pool.partition.1, ?_⟩
    · rw [hframes, List.nodup_reverse]
      have hfree := (List.nodup_append.mp (hpool.perm.nodup_iff.mpr hpool.nodup)).1
      exact (List.nodup_append.mp (List.nodup_append.mp hfree).1).2.1
    · rw [hframes, List.mem_reverse, mem_framesOf]
      constructor
      · rintro ⟨j, hj, hg⟩
        exact ⟨_, ⟨j, hj, rfl⟩, (mapped_iff_node (hpage _ ⟨j, hj, rfl⟩)).mpr hg⟩
      · rintro ⟨va, ⟨j, hj, rfl⟩, hg⟩
        exact ⟨j, hj, (mapped_iff_node (hpage _ ⟨j, hj, rfl⟩)).mp hg⟩
    · rw [hframes, List.reverse_reverse]
      exact hpool.partition.1

/-- In every run in which a frame was always to be had, `kfree` of a block that no pool serves
returns. It gives back the pages that `kmalloc` took for the block and their frames, and leaves
the pools and their free lists as they were. -/
theorem kfree_gives_back (hstart : SystemStarted B x0) (hrun : SystemRun arr x0 x)
    (hnull : .pfAlloc 0 ∉ x.machine.events) (ha : a ∈ x.out) (hlo : 2032 < a.size.toNat)
    (hhi : a.size.toNat < 2 ^ 64 - 4112) (fuel : Nat) :
    ∃ k', kfree (pagedMmu fuel) arr a.ptr x.kernel = .ok () k' ∧
      x.taken a = pageRange (a.ptr - sizeofHeader) (newPageCnt (a.size + sizeofHeader)).toNat ∧
      GivesBack (x.taken a) x.machine k'.mmu ∧ k'.pools = x.kernel.pools ∧
      ∀ i, ∃ l, LinkedList x.machine.virt.load64 0 (x.kernel.pools i).head l ∧
        LinkedList k'.mmu.virt.load64 0 (k'.pools i).head l := by
  obtain ⟨limit, ⟨freed, free, P, hinv⟩, htaken⟩ := SystemRun.inv hstart hrun hnull
  have hpool : a.pool = none := by
    refine getBestPool_eq_none ?_
    have hh : sizeofHeader.toNat = 16 := rfl
    rw [Alloc.bytesNeeded, BitVec.toNat_add, hh, Nat.mod_eq_of_lt (by omega)]
    omega
  have hr : (a.base, a.pageCnt) ∈ heapRanges x.kernel.added x.out :=
    mem_heapRanges.mpr (Or.inr ⟨a, ha, hpool, rfl⟩)
  obtain ⟨s', hfree, hinv', hfreed⟩ := hinv.of_kfree_large ha hpool fuel
  have hgives := hfreed.givesBack hinv.vm
    ((pageRange_subset_heapPages hr).trans Set.subset_union_right)
  have hlists : ∀ i, ∃ l, LinkedList x.machine.virt.load64 0 (x.kernel.pools i).head l ∧
      LinkedList s'.virt.load64 0 (x.kernel.pools i).head l :=
    fun i => ⟨free i, hinv.heap.linked i, hinv'.heap.linked i⟩
  refine ⟨_, hfree, htaken a ha hpool, ?_, rfl, hlists⟩
  rw [htaken a ha hpool]
  exact hgives

/-- `kmalloc_init`, then a block of two pages taken and given back. -/
theorem kfree_gives_back_large : ∃ k k1 k2,
    kmallocInit (pagedMmu 3) (zeroHeap (initMachine fortyBoot)) = .ok () k ∧
    kmalloc (pagedMmu 3) samplePools 5000 k = .ok 0x10000007010 k1 ∧
    kfree (pagedMmu 3) samplePools 0x10000007010 k1 = .ok () k2 ∧
    GivesBack (pageRange 0x10000007000 2) k1.mmu k2.mmu := by
  obtain ⟨k, hinit, hnull, htop, hout⟩ := fortyBoot_pools
  have hstart : SystemStarted fortyBoot ⟨k, [], ∅, fun _ => ∅⟩ :=
    ⟨_, 3, k, fortyBoot_booted, hinit, rfl⟩
  obtain ⟨limit, ⟨freed, free, P, hinv⟩, -⟩ := hstart.inv samplePools hnull
  have hvm : VmInv fortyBoot.managed limit k.mmu (∅ ∪ heapPages (heapRanges k.added [])) P :=
    hinv.vm
  have hcnt : (newPageCnt (5000 + sizeofHeader)).toNat = 2 := by decide
  obtain ⟨k1, htaken, hnull1⟩ := kmalloc_large_of_room samplePools hvm hnull (Nat.le_refl 3)
    (by decide : (0 : Word) < 5000) (by decide) (by rw [htop, hcnt]; decide)
    (by rw [fortyBoot_length, hcnt]; omega)
  have hptr : k.mmu.kernHeapTop + sizeofHeader = 0x10000007010 := by
    rw [htop]
    decide
  rw [hptr] at htaken
  have hrun : SystemRun samplePools ⟨k, [], ∅, fun _ => ∅⟩ _ := .single (.kmalloc 3 5000 htaken)
  obtain ⟨k2, hfree, hpages, hgives, -⟩ := kfree_gives_back hstart hrun hnull1
    List.mem_cons_self (by decide) (by decide) 3
  refine ⟨k, k1, k2, hinit, htaken, hfree, ?_⟩
  rw [hpages, hcnt] at hgives
  exact hgives

end SkipOS
