import SkipOS.PagedRun
import Mathlib.Algebra.Order.BigOperators.Group.Finset

/-! How many frames the calls use. With that many free ones `kmalloc_init` and `kmalloc` return,
and no allocation gives NULL. -/

namespace SkipOS

open Mem Exec Walk

def framesOut (s : Machine) : Nat := (outstanding s.events).length

variable {managed : List Word} {limit a base f num p page v size ptr va : Word} {s t u : Machine}
  {P Q : Pool} {live others : Set Word} {fuel n : Nat} {k k' : Kernel Machine} {arr : PoolArr}
  {out : List Alloc} {freed : Fin 7 → Nat} {free : FreeLists} {i : Fin 7}

/-! Frames in use after a call. -/

theorem costs_pfAlloc : Costs framesOut 1 pfAlloc := by
  have hmem : Costs framesOut 0 (onMem mmuPfAlloc) := by
    intro s
    rw [onMem, zoom]
    cases mmuPfAlloc s.mem <;> exact Nat.le_refl _
  refine hmem.after fun p => ?_
  intro s
  show (outstanding (.pfAlloc p :: s.events)).length ≤ (outstanding s.events).length + 1
  rw [outstanding]
  split
  · omega
  · rw [List.length_cons]

theorem costs_memsetPage (a : Word) : Costs framesOut 0 (memsetPage a) := fun _ => Nat.le_refl _

theorem costs_setEntry (p v : Word) : Costs framesOut 0 (setEntry p v) := fun _ => Nat.le_refl _

theorem costs_updateEntry (p : Word) (g : Word → Word) : Costs framesOut 0 (updateEntry p g) :=
  fun _ => Nat.le_refl _

theorem costs_getLowestPresentPage (pt : PageTable) (va : Word) (prev : Option Word) :
    Costs framesOut 0 (getLowestPresentPage pt va prev) := by
  refine (Costs.assert _).after fun _ => ?_
  intro s
  simp only
  split
  · exact Nat.le_refl _
  · rw [bind_get]
    split
    · exact Nat.le_refl _
    · split
      · exact Nat.le_refl _
      · split
        · exact Nat.le_refl _
        · split <;> exact Nat.le_refl _

theorem costs_allocVirtualPageLoop (pt : PageTable) (va : Word) (lowest : PtLevel) (fuel : Nat)
    (ptr : Word) (level : PtLevel) :
    Costs framesOut fuel (allocVirtualPageLoop pt va lowest fuel ptr level) := by
  induction fuel generalizing ptr level with
  | zero =>
    rw [allocVirtualPageLoop]
    split
    · exact Costs.pure _
    · exact Costs.throw _
  | succ fuel ih =>
    rw [allocVirtualPageLoop]
    split
    · exact (Costs.pure _).mono (by omega)
    · refine (costs_pfAlloc.bind fun p => ?_).mono (Nat.le_of_eq (Nat.add_comm 1 fuel))
      refine (costs_memsetPage p).after fun _ => ?_
      refine (costs_setEntry _ _).after fun _ => ?_
      refine (costs_updateEntry _ _).after fun _ => ?_
      exact (costs_getLowestPresentPage _ _ _).after fun r => ih r.1 r.2.1

theorem costs_allocVirtualPage (fuel : Nat) (pt : PageTable) (va : Word) :
    Costs framesOut fuel (allocVirtualPage fuel pt va true) := by
  refine (Costs.assert _).after fun _ => ?_
  refine (costs_getLowestPresentPage _ _ _).after fun r => ?_
  refine (Costs.assert _).after fun _ => ?_
  refine (costs_allocVirtualPageLoop _ _ _ _ _ _).bind (k := 0) fun l => ?_
  refine (Costs.assert _).after fun _ => ?_
  refine Costs.get.after fun s => ?_
  exact (Costs.assert _).after fun _ => costs_updateEntry _ _

theorem costs_mmuAllocPages (fuel : Nat) (num : Word) :
    Costs framesOut (fuel * num.toNat) (mmuAllocPages fuel num) := by
  have hloop : ∀ n, Costs framesOut (fuel * n) (allocPagesLoop fuel n) := by
    intro n
    induction n with
    | zero => exact Costs.pure ()
    | succ n ih =>
      refine Costs.mono (n := fuel + fuel * n) ?_ (by rw [Nat.mul_succ]; omega)
      refine Costs.get.after fun s => (costs_allocVirtualPage _ _ _).bind fun _ => ?_
      have htop : Costs framesOut 0
          (modify fun s : Machine => { s with kernHeapTop := s.kernHeapTop + pageSize }) := by
        intro s
        rw [modify_apply, final_ok, framesOut, framesOut]
        exact Nat.le_refl _
      exact htop.after fun _ => ih
  exact Costs.get.after fun s => (hloop _).bind (k := 0) fun _ => Costs.pure _

theorem costs_touch (a : Word) : Costs framesOut 1 (touch a) := by
  refine Costs.get.after fun s => ?_
  cases s.physical a with
  | some p => exact (Costs.pure p).mono (by omega)
  | none =>
    have hcr2 : Costs framesOut 0 (modify fun s : Machine => { s with cr2 := a }) :=
      fun _ => Nat.le_refl _
    refine hcr2.after fun _ => ?_
    refine Costs.bind (n := 1) (k := 0) ?_ fun _ => ?_
    · refine (Costs.assert _).after fun _ => ?_
      refine Costs.get.after fun s => ?_
      refine (costs_getLowestPresentPage _ _ _).after fun r => ?_
      refine (Costs.assert _).after fun _ => ?_
      split
      · exact (Costs.throw _).mono (by omega)
      · refine costs_pfAlloc.bind (k := 0) fun p => ?_
        exact (costs_setEntry _ _).after fun _ => costs_updateEntry _ _
    · refine Costs.get.after fun s => ?_
      cases s.physical a with
      | some p => exact Costs.pure p
      | none => exact Costs.throw _

/-! Enough of them. -/

theorem card_rangeTables (base : Word) (n : Nat) : (rangeTables base n).card ≤ 3 * n := by
  have hone : ∀ va, (tablePrefixes va).card ≤ 3 := by
    intro va
    have hmem : [] ∈ (tablePath va).inits.toFinset := by simp
    have hlen : (tablePath va).inits.toFinset.card ≤ 4 := by
      refine (List.toFinset_card_le _).trans ?_
      simp [tablePath]
    rw [tablePrefixes, Finset.card_erase_of_mem hmem]
    omega
  have hall := Finset.card_biUnion_le_card_mul
    {j ∈ Finset.range n | base.toNat + 4096 * j < 2 ^ 48}
    (fun j => tablePrefixes (base + BitVec.ofNat 64 (4096 * j))) 3 fun j _ => hone _
  have hrange := Finset.card_filter_le (Finset.range n) fun j => base.toNat + 4096 * j < 2 ^ 48
  rw [Finset.card_range] at hrange
  rw [rangeTables]
  omega

theorem Safely.not_null (h : Safely s t) (hnull : .pfAlloc 0 ∉ s.events) :
    .pfAlloc 0 ∉ t.events := by
  obtain ⟨es, he, hsafe⟩ := h
  rw [he]
  intro hm
  rcases List.mem_append.mp hm with hm | hm
  · exact (hsafe _ hm).2 rfl
  · exact hnull hm

/-- With frames to spare an access to a reserved page returns. -/
theorem touch_of_room (h : VmInv managed limit s live P) (hp : IsPage (pageBase a))
    (hfl : s.leafFlags (pageBase a) = some 0x200) (hroom : framesOut s + 1 < managed.length) :
    ∃ f u, touch a s = .ok (f + a % pageSize) u ∧ Safely s u := by
  have hcr2 : VmInv managed limit { s with cr2 := a } live P := h.of_eq rfl rfl rfl rfl rfl
  have hmissing : s.node (pathOf a) = none := by
    rw [← pathOf_pageBase]
    exact node_eq_none_of_reserved hfl
  have hlen := h.tables.length_free
  rcases pageFaultHandler_reserved hcr2 hp.l4Index_ne_zero hfl rfl with ⟨hone, -⟩ | ⟨hok, f, hin⟩
  · rw [framesOut] at hroom
    omega
  · have ht := FaultedIn.touched hp hmissing hin
    refine ⟨f, _, ?_, (Safely.of_events_eq rfl).trans hin.safely⟩
    rw [touch_of_missing hp hmissing, bind_of_ok hok, bind_get]
    simp only [Machine.physical, if_neg (l4Index_ne_zero_of_pageBase hp), ht.node, Option.map_some]
    rfl

theorem newPages_of_room (h : VmInv managed limit s live P) (hnull : .pfAlloc 0 ∉ s.events)
    (hfuel : 3 ≤ fuel) (hnum : 0 < num)
    (hfits : s.kernHeapTop.toNat + 4096 * num.toNat ≤ 2 ^ 48)
    (hroom : framesOut s + fuel * num.toNat + 1 < managed.length) :
    ∃ t f u, mmuAllocPages fuel num s = .ok s.kernHeapTop t ∧
      touch s.kernHeapTop t = .ok (f + s.kernHeapTop % pageSize) u ∧
      NewPages managed limit live s.kernHeapTop num f s u ∧ .pfAlloc 0 ∉ u.events ∧
      framesOut u ≤ framesOut s + fuel * num.toNat + 1 := by
  have hcost := costs_mmuAllocPages fuel num s
  have henough : Enough managed (rangeTables s.kernHeapTop num.toNat) s := by
    have hcard := card_rangeTables s.kernHeapTop num.toNat
    have hmissing : (missing s (rangeTables s.kernHeapTop num.toNat)).card ≤
        (rangeTables s.kernHeapTop num.toNat).card := Finset.card_filter_le _ _
    have hmul : 3 * num.toNat ≤ fuel * num.toNat := Nat.mul_le_mul_right _ hfuel
    rw [framesOut] at hroom
    exact Or.inr (by omega)
  rcases mmuAllocPages_spec fuel h rfl with ⟨-, hno⟩ | ⟨live', Q, hinv, hsafe, hcases⟩
  · exact absurd henough hno
  · rcases hcases with ⟨hok, rfl, hgrown⟩ | ⟨e, -, hwhy⟩
    · have hmem : s.kernHeapTop ∈ pageRange s.kernHeapTop num.toNat := mem_pageRange_self hnum
      have hpage : IsPage s.kernHeapTop := (hinv.pages.range _ (Or.inr hmem)).1
      have hself := hpage.pageBase_self
      have hfl := hgrown.reserved 0 (by bv_omega)
      simp only [Nat.mul_zero, BitVec.add_zero] at hfl
      rw [← hself] at hpage hfl
      obtain ⟨f, u, htouch, hsafe'⟩ := touch_of_room hinv hpage hfl (by omega)
      have hnull' := (hsafe.trans hsafe').not_null hnull
      have hcost' := costs_touch s.kernHeapTop (final (mmuAllocPages fuel num s))
      rw [htouch, final_ok] at hcost'
      obtain ⟨g, hp, hnew⟩ := newPages_spec h hnum hok htouch hnull'
      obtain rfl : f = g := (BitVec.add_left_inj _).mp hp
      exact ⟨_, f, u, hok, htouch, hnew, hnull', by omega⟩
    · omega

theorem PagedInv.addPage_of_room (h : PagedInv managed limit arr k out freed free others P)
    (hnull : .pfAlloc 0 ∉ k.mmu.events) (hfuel : 3 ≤ fuel)
    (hfits : k.mmu.kernHeapTop.toNat + 4096 ≤ 2 ^ 48)
    (hroom : framesOut k.mmu + fuel + 1 < managed.length) (i : Fin 7) :
    ∃ k', addPage (pagedMmu fuel) i k = .ok ⟨⟩ k' ∧ .pfAlloc 0 ∉ k'.mmu.events ∧
      k'.mmu.kernHeapTop.toNat = k.mmu.kernHeapTop.toNat + 4096 ∧
      framesOut k'.mmu ≤ framesOut k.mmu + fuel + 1 := by
  have hmul : fuel * (1 : Word).toNat = fuel := Nat.mul_one fuel
  obtain ⟨t, f, u, halloc, htouch, hnew, hnull', hout⟩ := newPages_of_room h.vm hnull hfuel
    (by decide : 0 < (1 : Word)) hfits (by omega)
  obtain ⟨k', hrun, -, hsame⟩ := addPage_paged i (heapRanges k.added out) halloc htouch hnew
  refine ⟨k', hrun, ?_, ?_, ?_⟩
  · rwa [hsame.events]
  · rw [hsame.top, hnew.top]
    rfl
  · rw [framesOut, hsame.events]
    rw [framesOut] at hout
    omega

theorem PagedInv.initLoop_of_room {is : List (Fin 7)}
    (h : PagedInv managed limit arr k out freed free others P) (hnd : is.Nodup)
    (havail : ∀ i ∈ is, (k.pools i).avail = 0) (hnull : .pfAlloc 0 ∉ k.mmu.events)
    (hfuel : 3 ≤ fuel) (hfits : k.mmu.kernHeapTop.toNat + 4096 * is.length ≤ 2 ^ 48)
    (hroom : framesOut k.mmu + (fuel + 1) * is.length < managed.length) :
    ∃ k', SkipOS.initLoop (pagedMmu fuel) is k = .ok () k' ∧ .pfAlloc 0 ∉ k'.mmu.events ∧
      k'.mmu.kernHeapTop.toNat = k.mmu.kernHeapTop.toNat + 4096 * is.length ∧
      framesOut k'.mmu ≤ framesOut k.mmu + (fuel + 1) * is.length := by
  induction is generalizing k free P with
  | nil => exact ⟨k, rfl, hnull, rfl, Nat.le_refl _⟩
  | cons i is ih =>
    obtain ⟨hi, hnd⟩ := List.nodup_cons.mp hnd
    have hzero : (k.pools i).avail = 0 := havail i List.mem_cons_self
    rw [List.length_cons, Nat.mul_succ] at hfits hroom
    have hfirst : framesOut k.mmu + fuel + 1 < managed.length := by omega
    have hfits1 : k.mmu.kernHeapTop.toNat + 4096 ≤ 2 ^ 48 :=
      (Nat.add_le_add_left (Nat.le_add_left _ _) _).trans hfits
    obtain ⟨k1, hadd, hnull1, htop1, hout1⟩ := h.addPage_of_room hnull hfuel hfits1 hfirst i
    obtain ⟨-, free1, Q, h1⟩ := h.of_addPage hzero hadd hnull1
    have havail1 : ∀ j ∈ is, (k1.pools j).avail = 0 := by
      intro j hj
      have hne : j ≠ i := by
        rintro rfl
        exact hi hj
      rw [addPage_pools_ne h.vm hadd hnull1 hne]
      exact havail j (List.mem_cons_of_mem _ hj)
    have hroom1 : framesOut k1.mmu + (fuel + 1) * is.length < managed.length := by omega
    obtain ⟨k', hrest, hnull', htop', hout'⟩ := ih h1 hnd havail1 hnull1 (by omega) hroom1
    refine ⟨k', ?_, hnull', ?_, ?_⟩
    · rw [initLoop_cons hzero, bind_of_ok hadd, hrest]
    · rw [htop', htop1, List.length_cons, Nat.mul_succ]
      omega
    · rw [List.length_cons, Nat.mul_succ]
      omega

theorem kmalloc_large_of_room (arr : PoolArr) (h : VmInv managed limit k.mmu live P)
    (hnull : .pfAlloc 0 ∉ k.mmu.events) (hfuel : 3 ≤ fuel) (hsize : 0 < size)
    (hbest : getBestPool (size + sizeofHeader) = none)
    (hfits : k.mmu.kernHeapTop.toNat + 4096 * (newPageCnt (size + sizeofHeader)).toNat ≤ 2 ^ 48)
    (hroom : framesOut k.mmu + fuel * (newPageCnt (size + sizeofHeader)).toNat + 1 <
      managed.length) :
    ∃ k', kmalloc (pagedMmu fuel) arr size k = .ok (k.mmu.kernHeapTop + sizeofHeader) k' ∧
      .pfAlloc 0 ∉ k'.mmu.events := by
  have hnum := newPageCnt_pos (size + sizeofHeader)
  obtain ⟨t, f, u, halloc, htouch, hnew, hnull', -⟩ :=
    newPages_of_room h hnull hfuel hnum hfits hroom
  obtain ⟨k', hrun, -, hsame⟩ := kmalloc_large arr hsize hbest halloc htouch hnew []
  exact ⟨k', hrun, hsame.events ▸ hnull'⟩

/-! Enough frames for the pools and a block of two pages. -/

/-- Forty pages. -/
def fortyBoot : BootPool :=
  bootPool 0x29000 (by decide +kernel) (by decide +kernel) (by decide +kernel)

theorem fortyBoot_length : fortyBoot.managed.length = 40 := by
  have hm : fortyBoot.managed = lowerPages (lowerLengthOf (bootBefore 0x29000) 0x9000) :=
    bootPool_managed 0x29000
  rw [hm]
  decide +kernel

theorem fortyBoot_booted : Booted fortyBoot (initMachine fortyBoot) :=
  booted_of_returned (by decide +kernel)

theorem fortyBoot_init : .pfAlloc 0 ∉ (initMachine fortyBoot).events ∧
    framesOut (initMachine fortyBoot) = 2 ∧
    (initMachine fortyBoot).kernHeapTop = 0x10000000000 := by
  decide +kernel

/-- The seven pools take thirty of them at most. -/
theorem fortyBoot_pools : ∃ k, kmallocInit (pagedMmu 3) (zeroHeap (initMachine fortyBoot)) =
      .ok () k ∧ .pfAlloc 0 ∉ k.mmu.events ∧ k.mmu.kernHeapTop = 0x10000007000 ∧
      framesOut k.mmu ≤ 30 := by
  obtain ⟨hnull, hout, htop⟩ := fortyBoot_init
  obtain ⟨P, hP⟩ := fortyBoot_booted.inv hnull
  have hlen := fortyBoot_length
  have htop0 : (initMachine fortyBoot).kernHeapTop.toNat = 0x10000000000 := by
    rw [htop]
    rfl
  obtain ⟨k, hrun, hnull', htop', hout'⟩ := (PagedInv.start samplePools hP).initLoop_of_room
    (List.nodup_finRange 7) (fun _ _ => rfl) hnull (Nat.le_refl 3)
    (by rw [List.length_finRange, zeroHeap, htop0]; decide)
    (by rw [List.length_finRange, zeroHeap, hout, hlen]; decide)
  rw [List.length_finRange, zeroHeap] at htop' hout'
  dsimp only at htop' hout'
  rw [hout] at hout'
  refine ⟨k, hrun, hnull', BitVec.eq_of_toNat_eq ?_, hout'⟩
  rw [htop', htop0]
  rfl

end SkipOS
