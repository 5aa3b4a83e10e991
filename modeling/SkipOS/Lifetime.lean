import SkipOS.KmallocGrowth
import SkipOS.PagedSupply

/-! How many calls of `kmalloc` the kernel can serve at all: pages of the pools are never given back,
and each has a frame of its own. -/

namespace SkipOS

open Exec

/-- A run of the system with the calls of `kmalloc` counted, each of which hands out one block more. -/
inductive ServedRun (arr : PoolArr) (x : SystemState) : (Fin 7 → Nat) → SystemState → Prop
  | refl : ServedRun arr x (fun _ => 0) x
  | served {served : Fin 7 → Nat} {y z : SystemState} {a : Alloc} (h : ServedRun arr x served y)
      (hstep : SystemStep arr y z) (hout : z.out = a :: y.out) :
      ServedRun arr x (servedAfter served a.size) z
  | rest {served : Fin 7 → Nat} {y z : SystemState} (h : ServedRun arr x served y)
      (hstep : SystemStep arr y z) (hout : z.out.length ≤ y.out.length) : ServedRun arr x served z

variable {managed : List Word} {limit : Word} {P : Pool} {arr : PoolArr} {k : Kernel Machine}
  {out : List Alloc} {freed : Fin 7 → Nat} {free : FreeLists} {others : Set Word} {B : BootPool}
  {x y z : SystemState} {served : Fin 7 → Nat} {a : Alloc}

theorem ServedRun.run (h : ServedRun arr x served y) : SystemRun arr x y := by
  induction h with
  | refl => exact .refl
  | served _ hstep _ ih => exact ih.tail hstep
  | rest _ hstep _ ih => exact ih.tail hstep

theorem SystemStep.serves (h : SystemStep arr y z) (hout : z.out = a :: y.out) :
    ServeStep arr (y.kernel, served) (z.kernel, servedAfter served a.size) := by
  have hlen := congrArg List.length hout
  cases h with
  | kmalloc fuel size hrun =>
    obtain ⟨rfl, -⟩ := List.cons.inj hout
    exact .kmalloc (pagedMmu fuel) size hrun
  | kfree fuel b hb hrun =>
    simp only [List.length_erase_of_mem hb, List.length_cons] at hlen
    omega
  | write => simp at hlen
  | call => simp at hlen

theorem SystemStep.keeps (h : SystemStep arr y z) (hout : z.out.length ≤ y.out.length) :
    ServeStep arr (y.kernel, served) (z.kernel, served) := by
  cases h with
  | kmalloc fuel size hrun => exact absurd hout (Nat.not_succ_le_self _)
  | kfree fuel b hb hrun => exact .kfree (pagedMmu fuel) b.ptr hrun
  | write => exact .other _
  | call => exact .other _

theorem ServedRun.serves (h : ServedRun arr x served y) :
    ServeRun Machine arr (x.kernel, fun _ => 0) (y.kernel, served) := by
  induction h with
  | refl => exact .refl
  | served _ hstep hout ih => exact ih.tail (hstep.serves hout)
  | rest _ hstep hout ih => exact ih.tail (hstep.keeps hout)

theorem PagedInv.added_nodup (h : PagedInv managed limit arr k out freed free others P) :
    (k.added.map Prod.snd).Nodup := by
  have hapart := (List.pairwise_append.mp h.apart).1
  rw [List.pairwise_map] at hapart
  rw [List.Nodup, List.pairwise_map]
  refine hapart.imp fun {r t} hrt he => ?_
  rw [he] at hrt
  have hlen : 0 < (rangeRegion (t.2, 1)).len := show 0 < 4096 * 1 by decide
  exact hrt.ne hlen rfl

/-- Each page of the pools has a frame of its own. -/
theorem PagedInv.added_length_le (h : PagedInv managed limit arr k out freed free others P) :
    k.added.length ≤ managed.length := by
  have hpage (va : Word) (hva : va ∈ k.added.map Prod.snd) :
      IsPage va ∧ ∃ f, k.mmu.node (pathOf va) = some f := by
    obtain ⟨⟨i, va⟩, hm, rfl⟩ := List.mem_map.mp hva
    exact h.headPage (Or.inl ⟨i, hm⟩)
  have hnodup : ((k.added.map Prod.snd).map fun va => (k.mmu.node (pathOf va)).getD 0).Nodup := by
    refine h.added_nodup.map_on fun va hva vb hvb he => ?_
    obtain ⟨hpa, f, hf⟩ := hpage va hva
    obtain ⟨hpb, g, hg⟩ := hpage vb hvb
    have hfg : f = g := by simpa [hf, hg] using he
    subst hfg
    have hpath := h.vm.tables.owns.unique _ hpa.pathOf_mem _ hpb.pathOf_mem f hf hg
    exact pathOf_injOn hpa.1 hpb.1 hpa.2.2 hpb.2.2 hpath
  have hsub : ((k.added.map Prod.snd).map fun va => (k.mmu.node (pathOf va)).getD 0) ⊆ managed := by
    intro f hf
    obtain ⟨va, hva, rfl⟩ := List.mem_map.mp hf
    obtain ⟨hp, g, hg⟩ := hpage va hva
    rw [hg]
    exact h.vm.tables.pool.mem_managed.mpr (Or.inr (h.vm.tables.node_mem hp.pathOf_mem hg))
  have hle := (hnodup.subperm hsub).length_le
  rwa [List.length_map, List.length_map] at hle

theorem sum_pagesOf (k : Kernel Machine) : ∑ i, k.pagesOf i = k.added.length := by
  have hsum := Multiset.sum_count_eq_card (s := Finset.univ)
    (m := (k.added.map Prod.fst : Multiset (Fin 7))) fun i _ => Finset.mem_univ i
  simpa [Kernel.pagesOf] using hsum

theorem ServedRun.pages_le (hstart : SystemStarted B x) (hrun : ServedRun arr x served y)
    (hnull : .pfAlloc 0 ∉ y.machine.events) :
    ∑ i, max 1 (served i ⌈/⌉ (numChunks i).toNat) ≤ B.managed.length := by
  obtain ⟨limit, ⟨freed, free, P, hinv⟩, -⟩ := SystemRun.inv hstart hrun.run hnull
  obtain ⟨s0, fuel, k, -, hinit, rfl⟩ := hstart
  have hadded : (zeroHeap s0).added = [] := rfl
  have hcounts := ServeRun.counts hadded hinit hrun.serves
  calc ∑ i, max 1 (served i ⌈/⌉ (numChunks i).toNat)
      = ∑ i, y.kernel.pagesOf i := Finset.sum_congr rfl fun i _ => (hcounts i).pagesOf_eq.symm
    _ = y.kernel.added.length := sum_pagesOf y.kernel
    _ ≤ B.managed.length := hinv.added_length_le

/-- As long as no frame was asked for in vain, the pages that the calls served so far need are no more
than the frames that there are, whatever was given back; so each pool serves so many calls in all. -/
theorem kmalloc_calls_bounded (hstart : SystemStarted B x) (hrun : ServedRun arr x served y)
    (hnull : .pfAlloc 0 ∉ y.machine.events) :
    ∑ i, max 1 (served i ⌈/⌉ (numChunks i).toNat) ≤ B.managed.length ∧
    ∀ i, served i ≤ (numChunks i).toNat * B.managed.length := by
  have hsum := ServedRun.pages_le hstart hrun hnull
  refine ⟨hsum, fun i => ?_⟩
  have hpos : 0 < (numChunks i).toNat := Nat.lt_of_lt_of_le Nat.two_pos (numChunks_bounds i).2.1
  refine (ceilDiv_le_iff_le_mul hpos).mp ?_
  calc served i ⌈/⌉ (numChunks i).toNat
      ≤ max 1 (served i ⌈/⌉ (numChunks i).toNat) := le_max_right _ _
    _ ≤ ∑ i, max 1 (served i ⌈/⌉ (numChunks i).toNat) :=
        Finset.single_le_sum (f := fun i => max 1 (served i ⌈/⌉ (numChunks i).toNat))
          (fun _ _ => Nat.zero_le _) (Finset.mem_univ i)
    _ ≤ B.managed.length := hsum

/-- On forty frames, after a block of two pages of its own. -/
theorem kmalloc_calls_forty : ∃ k k1,
    kmallocInit (pagedMmu 3) (zeroHeap (initMachine fortyBoot)) = .ok () k ∧
    kmalloc (pagedMmu 3) samplePools 5000 k = .ok 0x10000007010 k1 ∧
    ∑ i, max 1 (servedAfter (fun _ => 0) 5000 i ⌈/⌉ (numChunks i).toNat) ≤ 40 := by
  obtain ⟨k, hinit, hnull, htop, hout⟩ := fortyBoot_pools
  have hstart : SystemStarted fortyBoot ⟨k, [], ∅, fun _ => ∅⟩ :=
    ⟨_, 3, k, fortyBoot_booted, hinit, rfl⟩
  obtain ⟨limit, ⟨freed, free, P, hinv⟩, -⟩ := hstart.inv samplePools hnull
  have hvm : VmInv fortyBoot.managed limit k.mmu (∅ ∪ heapPages (heapRanges k.added [])) P :=
    hinv.vm
  have hcnt : (newPageCnt (5000 + sizeofHeader)).toNat = 2 := by decide
  obtain ⟨k1, htaken, hnull1⟩ := kmalloc_large_of_room samplePools hvm hnull (Nat.le_refl 3)
    (by decide : (0 : Word) < 5000) (by decide) (by rw [htop, hcnt]; decide)
    (by rw [fortyBoot_length, hcnt]; omega)
  have hptr : k.mmu.kernHeapTop + sizeofHeader = 0x10000007010 := by
    rw [htop]
    decide
  rw [hptr] at htaken
  have hbound := (kmalloc_calls_bounded hstart
    (.served (a := ⟨0x10000007010, 5000⟩) .refl (.kmalloc 3 5000 htaken) rfl) hnull1).1
  rw [fortyBoot_length] at hbound
  exact ⟨k, k1, hinit, htaken, hbound⟩

end SkipOS
