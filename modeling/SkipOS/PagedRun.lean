import SkipOS.PagedCalls
import SkipOS.KmallocRun

/-! Runs of the whole system from `kmalloc_init` on: calls of `kmalloc` and `kfree`, writes to
blocks, and other users of the virtual page allocator. -/

namespace SkipOS

open Mem Exec Walk

variable {managed : List Word} {limit base f num p page v size c ptr va : Word} {s s' u : Machine}
  {P Q : Pool} {live others : Set Word} {fuel : Nat} {k k' : Kernel Machine} {arr : PoolArr}
  {out : List Alloc} {freed freed' : Fin 7 → Nat} {free free' : FreeLists} {i : Fin 7}
  {added : List (Fin 7 × Word)} {r : Word × Word} {a : Alloc} {w : Unit} {b : Word}

/-! Blocks. -/

theorem PagedInv.page_of_block (h : PagedInv managed limit arr k out freed free others P)
    (ha : a ∈ out) (hb : b ∈ a.block.bytes) : IsPage (pageBase b) := by
  obtain ⟨x, hx, hfits, hlo, hhi⟩ := h.heap.housed _ (block_mem ha)
  have hbelow := h.below x hx
  have htop := h.vm.pages.top_le
  have hpage := h.heapPage ⟨x, hx, mem_pageRange_self (heapRanges_pos hx)⟩
  obtain ⟨hal, hlow, -⟩ := hpage
  simp only [rangeRegion] at hlo hhi
  rw [Region.bytes, mem_span] at hb
  have hge : x.1.toNat ≤ b.toNat := by bv_omega
  have hlt : b.toNat < x.1.toNat + 4096 * x.2.toNat := by bv_omega
  refine ⟨?_, ?_, ?_⟩ <;> rw [toNat_pageBase] <;> omega

theorem PagedInv.of_touched (h : PagedInv managed limit arr k out freed free others P)
    (ht : Touched managed limit (others ∪ heapPages (heapRanges k.added out)) b f k.mmu u) :
    ∃ Q, PagedInv managed limit arr { k with mmu := u } out freed free others Q := by
  obtain ⟨Q, hQ⟩ := ht.inv
  refine ⟨Q, h.of_kept hQ (fun va hva => ?_) (by rw [ht.top]) h.foreign⟩
  obtain ⟨hpage, g, hg⟩ := h.headPage hva
  by_cases he : va = pageBase b
  · have hsame : u = k.mmu := ht.same (by
      rw [← pathOf_pageBase, ← he, hg]
      exact Option.some_ne_none g)
    rw [hsame]
    exact PageKept.refl _ _
  · exact ht.kept va hpage he

theorem data_subset_block (a : Alloc) : a.data ⊆ a.block.bytes := by
  have hlen := a.le_block_len
  have hh : sizeofHeader.toNat = 16 := rfl
  exact span_offset_subset (by omega)

theorem PagedInv.of_write (h : PagedInv managed limit arr k out freed free others P)
    (ha : a ∈ out) (hb : b ∈ a.data) (x : Byte) (hrun : storeByteAt b x k.mmu = .ok w s')
    (hnull : .pfAlloc 0 ∉ s'.events) :
    ∃ Q, PagedInv managed limit arr { k with mmu := s' } out freed free others Q := by
  have hpage := h.page_of_block ha (data_subset_block a hb)
  obtain ⟨p, u, htouch, hwrite⟩ := bind_eq_ok.mp hrun
  obtain rfl := modify_eq_ok.mp hwrite
  obtain ⟨f, rfl, ht⟩ := touch_spec h.vm hpage htouch hnull
  obtain ⟨Q, h1⟩ := h.of_touched ht
  have hnode : u.node (pathOf (pageBase b)) = some f := by
    rw [pathOf_pageBase]
    exact ht.node
  have hsame := h1.vm.rewritten hpage hnode (storeByte_eqOn_frame (offset_mem_frame f b) x u.mem)
  have hheap : HeapInv arr (Kernel.flat
      ⟨k.pools, { u with mem := u.mem.storeByte (f + b % pageSize) x }, k.added⟩
      (heapRanges k.added out)) out freed free := by
    rw [Kernel.flat, h1.vm.virt_storeByte hpage ht.node x]
    exact h1.heap.of_write ha hb x
  exact ⟨Q, h1.of_rewritten hsame (List.Perm.refl _) subset_rfl hheap⟩

/-! Other users of the virtual page allocator. -/

/-- What the others are allowed to call leaves the pages of the heap that are present alone. -/
theorem VmCall.pageKept {call : VmCall} (h : VmInv managed limit s live P) (hsub : others ⊆ live)
    (hal : call.Allowed s others) (hrun : call.exec fuel s = .ok w s')
    (hnull : .pfAlloc 0 ∉ s'.events) (hva : va ∈ live) (hout : va ∉ others)
    (hnode : s.node (pathOf va) ≠ none) : PageKept s s' va := by
  obtain ⟨hpage, hlt⟩ := h.pages.range va hva
  cases call with
  | allocPages num =>
    obtain ⟨base, s1, halloc, hret⟩ := bind_eq_ok.mp hrun
    obtain ⟨-, rfl⟩ := pure_eq_ok.mp hret
    rcases mmuAllocPages_spec fuel h halloc with ⟨hgot, -⟩ | ⟨live', Q, hinv, -, hcases⟩
    · exact absurd hgot.mem_events hnull
    · rcases hcases with ⟨-, -, hgrown⟩ | ⟨e, he, -⟩
      · rw [final_ok] at hinv hgrown
        refine hgrown.kept va hpage fun hm => ?_
        have htop := hgrown.top
        have hhigh := hinv.pages.top_le
        have := (pageRange_toNat (by omega) hm).1
        omega
      · cases he
  | freePages vp num =>
    have hnum : 0 < num := by
      rw [VmCall.exec, mmuFreePages] at hrun
      obtain ⟨_, s1, -, hrest⟩ := bind_eq_ok.mp hrun
      obtain ⟨_, s2, hpos, -⟩ := bind_eq_ok.mp hrest
      exact (assert_eq_ok.mp hpos).1
    obtain ⟨s1, hfree, hfreed⟩ := mmuFreePages_spec h hnum fun j hj => hsub (hal j hj)
    obtain ⟨-, rfl⟩ := EStateM.Result.ok.inj (hfree.symm.trans hrun)
    refine hfreed.pages va hpage ?_
    rintro ⟨j, hj, rfl⟩
    exact hout (hal j hj)
  | pageFault addr =>
    have hcr2 : VmInv managed limit { s with cr2 := addr } live P := h.of_eq rfl rfl rfl rfl rfl
    rw [VmCall.exec, bind_modify] at hrun
    rcases pageFaultHandler_spec hcr2 hrun with ⟨e, he⟩ | ⟨hfl, ⟨-, hgot⟩ | ⟨-, f, hin⟩⟩
    · cases he
    · exact absurd hgot.mem_events hnull
    · have hne : va ≠ canonical (faultPage { s with cr2 := addr }) := by
        rintro rfl
        rw [pathOf_canonical] at hnode
        exact hnode (node_eq_none_of_reserved hfl)
      obtain ⟨hn, hf, hc⟩ := hin.kept va hpage hne
      exact ⟨hn, hf, hc⟩
  | write a v =>
    obtain ⟨vb, hvb, f, hf, ha⟩ := hal
    obtain rfl := modify_eq_ok.mp hrun
    refine h.writeFrame_kept (h.pages.range vb (hsub hvb)).1 hf (storeByte_eqOn_frame ha v s.mem)
      va hpage ?_
    rintro rfl
    exact hout hvb

theorem VmCall.Allowed.mono {call : VmCall} (h : call.Allowed s others) (hsub : others ⊆ live) :
    call.Allowed s live := by
  cases call with
  | allocPages num => exact trivial
  | freePages vp num => exact fun j hj => hsub (h j hj)
  | pageFault addr => exact trivial
  | write a v =>
    obtain ⟨vb, hvb, hf⟩ := h
    exact ⟨vb, hsub hvb, hf⟩

/-- New pages lie behind the heap, and pages that are given back are none of it. -/
theorem PagedInv.live_union {call : VmCall}
    (h : PagedInv managed limit arr k out freed free others P) (hal : call.Allowed k.mmu others)
    (hrun : call.exec fuel k.mmu = .ok w s') :
    call.live k.mmu (others ∪ heapPages (heapRanges k.added out)) =
        call.live k.mmu others ∪ heapPages (heapRanges k.added out) ∧
      Disjoint (call.live k.mmu others) (heapPages (heapRanges k.added out)) := by
  cases call with
  | allocPages num =>
    refine ⟨Set.union_right_comm _ _ _, Set.disjoint_union_left.mpr ⟨h.foreign, ?_⟩⟩
    obtain ⟨base, s1, halloc, hret⟩ := bind_eq_ok.mp hrun
    obtain ⟨-, hb, htop⟩ := h.vm.heapBounds.mmuAllocPages halloc
    have hhigh := hb.top_le
    rw [Set.disjoint_left]
    rintro va hm ⟨x, hx, hva⟩
    have hbelow := h.below x hx
    have hlow := pageRange_toNat (by omega) hm
    have hlast := pageRange_toNat (by omega) hva
    omega
  | freePages vp num =>
    have hsub : pageRange vp num.toNat ⊆ others := by
      rintro va ⟨j, hj, rfl⟩
      exact hal j hj
    refine ⟨?_, h.foreign.mono_left Set.sdiff_subset⟩
    simp only [VmCall.live]
    rw [Set.union_sdiff_distrib, (h.foreign.mono_left hsub).symm.sdiff_eq_left]
  | pageFault addr => exact ⟨rfl, h.foreign⟩
  | write a v => exact ⟨rfl, h.foreign⟩

theorem PagedInv.of_call {call : VmCall}
    (h : PagedInv managed limit arr k out freed free others P) (hal : call.Allowed k.mmu others)
    (hrun : call.exec fuel k.mmu = .ok w s') (hnull : .pfAlloc 0 ∉ s'.events) :
    ∃ Q, PagedInv managed limit arr { k with mmu := s' } out freed free
      (call.live k.mmu others) Q := by
  obtain ⟨hunion, hdis⟩ := h.live_union hal hrun
  rcases VmCall.spec fuel h.vm (hal.mono Set.subset_union_left) hrun with
    ⟨hgot, -⟩ | ⟨live', Q, hinv, -, hlive⟩
  · exact absurd hgot.mem_events hnull
  · rw [hlive rfl, hunion, final_ok] at hinv
    have htop := (h.vm.heapBounds.exec fuel hrun).2
    refine ⟨Q, h.of_kept hinv (fun va hva => ?_) htop hdis⟩
    have hm := headPages_subset hva
    exact VmCall.pageKept h.vm Set.subset_union_left hal hrun hnull (Or.inr hm)
      (fun ho => Set.disjoint_left.mp h.foreign ho hm) (h.present va hva)

/-! From `kmalloc_init` on. -/

/-- The kernel, the blocks handed out, the pages of the other users, and for each block the pages
that `kmalloc` took for it. -/
structure SystemState where
  kernel : Kernel Machine
  out : List Alloc
  others : Set Word
  taken : Alloc → Set Word

def SystemState.machine (x : SystemState) : Machine := x.kernel.mmu

/-- A call that returns, or one byte written by the holder of a block. -/
inductive SystemStep (arr : PoolArr) : SystemState → SystemState → Prop
  | kmalloc {x : SystemState} {k' : Kernel Machine} {ptr : Word} (fuel : Nat) (size : Word)
      (hrun : kmalloc (pagedMmu fuel) arr size x.kernel = .ok ptr k') :
      SystemStep arr x ⟨k', ⟨ptr, size⟩ :: x.out, x.others,
        Function.update x.taken ⟨ptr, size⟩ (takenPages x.machine k'.mmu)⟩
  | kfree {x : SystemState} {k' : Kernel Machine} (fuel : Nat) (a : Alloc) (ha : a ∈ x.out)
      (hrun : kfree (pagedMmu fuel) arr a.ptr x.kernel = .ok () k') :
      SystemStep arr x ⟨k', x.out.erase a, x.others, x.taken⟩
  | write {x : SystemState} {s' : Machine} (a : Alloc) (b : Word) (v : Byte) (ha : a ∈ x.out)
      (hb : b ∈ a.data) (hrun : storeByteAt b v x.machine = .ok () s') :
      SystemStep arr x ⟨{ x.kernel with mmu := s' }, x.out, x.others, x.taken⟩
  | call {x : SystemState} {s' : Machine} (c : VmCall) (fuel : Nat)
      (hal : c.Allowed x.machine x.others) (hrun : c.exec fuel x.machine = .ok () s') :
      SystemStep arr x ⟨{ x.kernel with mmu := s' }, x.out, c.live x.machine x.others, x.taken⟩

abbrev SystemRun (arr : PoolArr) := Relation.ReflTransGen (SystemStep arr)

/-- The statics of `kmalloc.c` before `kmalloc_init`. -/
def zeroHeap (s : Machine) : Kernel Machine := ⟨fun _ => ⟨0, 0⟩, s, []⟩

/-- `kmalloc_init` has returned on a machine after `MMU_init_vp`. -/
def SystemStarted (B : BootPool) (x : SystemState) : Prop :=
  ∃ s0 fuel k, Booted B s0 ∧ kmallocInit (pagedMmu fuel) (zeroHeap s0) = .ok () k ∧
    x = ⟨k, [], ∅, fun _ => ∅⟩

/-- The invariant of the heap, and for each large block the pages that were taken for it. -/
structure SystemInv (managed : List Word) (limit : Word) (arr : PoolArr) (x : SystemState) : Prop where
  paged : ∃ freed free P, PagedInv managed limit arr x.kernel x.out freed free x.others P
  taken : ∀ a ∈ x.out, a.pool = none → x.taken a = pageRange a.base a.pageCnt.toNat

theorem PagedInv.start (arr : PoolArr) (h : VmInv managed limit s ∅ P) :
    PagedInv managed limit arr (zeroHeap s) [] (fun _ => 0) (fun _ => []) ∅ P := by
  have hR : heapRanges [] [] = [] := rfl
  have hpages : heapPages [] = ∅ := by simp [heapPages]
  refine ⟨?_, HeapInv.start arr (fun _ => rfl) rfl, List.Pairwise.nil, fun r hr => ?_,
    Set.empty_disjoint _, ?_⟩
  · rw [zeroHeap, hR, hpages, Set.union_empty]
    exact h
  · rw [zeroHeap, hR] at hr
    exact absurd hr List.not_mem_nil
  · rintro va (⟨i, hm⟩ | ⟨a, ha, -⟩)
    · exact absurd hm List.not_mem_nil
    · exact absurd ha List.not_mem_nil

theorem PagedInv.initLoop {is : List (Fin 7)}
    (h : PagedInv managed limit arr k out freed free others P) (hnd : is.Nodup)
    (havail : ∀ i ∈ is, (k.pools i).avail = 0) (hrun : initLoop (pagedMmu fuel) is k = .ok w k')
    (hnull : .pfAlloc 0 ∉ k'.mmu.events) :
    ∃ free' Q, PagedInv managed limit arr k' out freed free' others Q := by
  have hM := moves_pagedMmu fuel
  induction is generalizing k free P with
  | nil =>
    obtain ⟨-, rfl⟩ : w = () ∧ k = k' := by simpa [SkipOS.initLoop] using hrun
    exact ⟨free, P, h⟩
  | cons i is ih =>
    obtain ⟨hi, hnd⟩ := List.nodup_cons.mp hnd
    have hzero : (k.pools i).avail = 0 := havail i List.mem_cons_self
    rw [initLoop_cons hzero] at hrun
    obtain ⟨_, k1, hadd, hrest⟩ := bind_eq_ok.mp hrun
    have hgrow : Grows k1.mmu k'.mmu := grows_of_moves (hM.initLoop is) hrest
    have hnull1 : .pfAlloc 0 ∉ k1.mmu.events := fun hm => hnull (hgrow.subset hm)
    obtain ⟨-, free1, Q, h1⟩ := h.of_addPage hzero hadd hnull1
    refine ih h1 hnd (fun j hj => ?_) hrest
    have hne : j ≠ i := by
      rintro rfl
      exact hi hj
    rw [addPage_pools_ne h.vm hadd hnull1 hne]
    exact havail j (List.mem_cons_of_mem _ hj)

theorem SystemStarted.inv {B : BootPool} {x : SystemState} (arr : PoolArr)
    (h : SystemStarted B x) (hnull : .pfAlloc 0 ∉ x.machine.events) :
    ∃ limit, SystemInv B.managed limit arr x := by
  obtain ⟨s0, fuel, k, hboot, hrun, rfl⟩ := h
  have hgrow : Grows s0 k.mmu := grows_of_moves ((moves_pagedMmu fuel).initLoop _) hrun
  obtain ⟨P, hP⟩ := hboot.inv fun hm => hnull (hgrow.subset hm)
  obtain ⟨free, Q, hinv⟩ := (PagedInv.start arr hP).initLoop (List.nodup_finRange 7)
    (fun _ _ => rfl) hrun hnull
  exact ⟨_, ⟨_, free, Q, hinv⟩, fun a ha => absurd ha List.not_mem_nil⟩

theorem SystemStep.grows {x y : SystemState} (h : SystemStep arr x y) :
    Grows x.machine y.machine := by
  cases h with
  | kmalloc fuel size hrun => exact grows_of_moves ((moves_pagedMmu fuel).kmalloc arr size) hrun
  | kfree fuel a ha hrun => exact grows_of_moves ((moves_pagedMmu fuel).kfree arr a.ptr) hrun
  | write a b v ha hb hrun =>
    have hg := grows_bind (grows_touch b) (fun p => Moves.modify (f := fun s : Machine =>
      { s with mem := s.mem.storeByte p v }) fun s => List.suffix_rfl) x.machine
    rwa [← storeByteAt, hrun] at hg
  | call c fuel hal hrun =>
    have hg := grows_exec fuel c x.machine
    rwa [hrun] at hg

theorem SystemStep.inv {x y : SystemState} (hstep : SystemStep arr x y)
    (h : SystemInv managed limit arr x) (hnull : .pfAlloc 0 ∉ y.machine.events) :
    SystemInv managed limit arr y := by
  obtain ⟨⟨freed, free, P, hinv⟩, htaken⟩ := h
  cases hstep with
  | @kmalloc k' ptr fuel size hrun =>
    obtain ⟨free', Q, hinv'⟩ := hinv.of_kmalloc hrun hnull
    refine ⟨⟨freed, free', Q, hinv'⟩, fun a ha hpool => ?_⟩
    dsimp only
    by_cases he : a = ⟨ptr, size⟩
    · subst he
      rw [Function.update_self]
      exact (hinv.of_large hpool hrun hnull).2
    · rw [Function.update_of_ne he]
      exact htaken a ((List.mem_cons.mp ha).resolve_left he) hpool
  | @kfree k' fuel a ha hrun =>
    refine ⟨?_, fun b hb => htaken b (List.mem_of_mem_erase hb)⟩
    cases hpool : a.pool with
    | none =>
      obtain ⟨s', hfree, hinv', -⟩ := hinv.of_kfree_large ha hpool fuel
      obtain ⟨-, rfl⟩ := EStateM.Result.ok.inj (hfree.symm.trans hrun)
      exact ⟨freed, free, _, hinv'⟩
    | some i =>
      obtain ⟨k1, freed', free', hfree, hinv'⟩ := hinv.of_kfree_small ha hpool fuel
      obtain ⟨-, rfl⟩ := EStateM.Result.ok.inj (hfree.symm.trans hrun)
      exact ⟨freed', free', P, hinv'⟩
  | write a b v ha hb hrun =>
    obtain ⟨Q, hinv'⟩ := hinv.of_write ha hb v hrun hnull
    exact ⟨⟨freed, free, Q, hinv'⟩, htaken⟩
  | call c fuel hal hrun =>
    obtain ⟨Q, hinv'⟩ := hinv.of_call hal hrun hnull
    exact ⟨⟨freed, free, Q, hinv'⟩, htaken⟩

theorem SystemRun.inv {B : BootPool} {x0 x : SystemState} (hstart : SystemStarted B x0)
    (hrun : SystemRun arr x0 x) (hnull : .pfAlloc 0 ∉ x.machine.events) :
    ∃ limit, SystemInv B.managed limit arr x := by
  induction hrun with
  | refl => exact hstart.inv arr hnull
  | tail _ hstep ih =>
    obtain ⟨limit, h⟩ := ih fun hm => hnull (hstep.grows.subset hm)
    exact ⟨limit, hstep.inv h hnull⟩

end SkipOS
