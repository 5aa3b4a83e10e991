import SkipOS.VmRun

/-! The heap only grows: its top moves up with every allocation and with nothing else. -/

namespace SkipOS

open Mem Exec Walk

/-- Where the heap and its pages lie, also in runs in which frames were wanting. -/
structure HeapBounds (s : Machine) (live : Set Word) : Prop where
  top_aligned : s.kernHeapTop.toNat % 4096 = 0
  base_le : 2 ^ 40 ≤ s.kernHeapTop.toNat
  top_le : s.kernHeapTop.toNat ≤ 2 ^ 48
  pages : ∀ va ∈ live, IsPage va

variable {s s' s0 : Machine} {live : Set Word} {fuel n : Nat} {B : BootPool} {c : VmCall}
  {managed : List Word} {limit : Word} {P : Pool}

theorem VmInv.heapBounds (h : VmInv managed limit s live P) : HeapBounds s live :=
  ⟨h.pages.top_aligned, h.pages.base_le, h.pages.top_le, fun va hva => (h.pages.range va hva).1⟩

theorem HeapBounds.of_top (h : HeapBounds s live) (htop : s'.kernHeapTop = s.kernHeapTop)
    {live' : Set Word} (hsub : live' ⊆ live) : HeapBounds s' live' := by
  refine ⟨?_, ?_, ?_, fun va hva => h.pages va (hsub hva)⟩
  · rw [htop]
    exact h.top_aligned
  · rw [htop]
    exact h.base_le
  · rw [htop]
    exact h.top_le

theorem HeapBounds.reserve (h : HeapBounds s live) (fuel : Nat) {u : Unit}
    (hrun : allocVirtualPage fuel s.pageTable s.kernHeapTop true s = .ok u s') :
    HeapBounds { s' with kernHeapTop := s'.kernHeapTop + pageSize } (insert s.kernHeapTop live) ∧
      s'.kernHeapTop = s.kernHeapTop ∧
      (s'.kernHeapTop + pageSize).toNat = s.kernHeapTop.toNat + 4096 := by
  have hal := h.top_aligned
  have hlo := h.base_le
  have hhi := h.top_le
  have hlt : s.kernHeapTop.toNat < 2 ^ 48 := by
    by_contra hge
    have h0 : (s.kernHeapTop >>> 39) &&& 0x1FF = 0 := by
      rw [l4Index_eq_zero]
      omega
    rw [allocVirtualPage_top (umod_pageSize_eq_zero.mpr hal) h0] at hrun
    simp at hrun
  have hq := quiet_allocVirtualPage fuel s.pageTable s.kernHeapTop s
  rw [hrun, final_ok] at hq
  have hnat : (s.kernHeapTop + pageSize).toNat = s.kernHeapTop.toNat + 4096 := by
    simp only [pageSize]
    bv_omega
  refine ⟨⟨?_, ?_, ?_, ?_⟩, hq.top, by rw [hq.top, hnat]⟩
  · rw [hq.top, hnat]
    omega
  · rw [hq.top, hnat]
    omega
  · rw [hq.top, hnat]
    omega
  · intro va hm
    rcases Set.mem_insert_iff.mp hm with rfl | hm
    · exact ⟨hal, by omega, hlt⟩
    · exact h.pages va hm

theorem HeapBounds.allocPages (h : HeapBounds s live) {u : Unit}
    (hrun : allocPagesLoop fuel n s = .ok u s') :
    HeapBounds s' (live ∪ pageRange s.kernHeapTop n) ∧
      s'.kernHeapTop.toNat = s.kernHeapTop.toNat + 4096 * n := by
  induction n generalizing s live u with
  | zero =>
    obtain ⟨-, rfl⟩ : u = () ∧ s = s' := by simpa [allocPagesLoop] using hrun
    rw [pageRange_zero, Set.union_empty]
    exact ⟨h, rfl⟩
  | succ n ih =>
    rw [allocPagesLoop, bind_get] at hrun
    obtain ⟨_, s1, hpage, hrest⟩ := bind_eq_ok.mp hrun
    rw [bind_modify] at hrest
    obtain ⟨hres, htop, hnat⟩ := h.reserve fuel hpage
    obtain ⟨hnext, hgrown⟩ := ih hres hrest
    rw [htop, Set.insert_union, ← Set.union_insert, ← pageRange_succ] at hnext
    refine ⟨hnext, ?_⟩
    rw [hgrown, hnat]
    omega

/-- What is returned is the old top, and the new one lies behind the pages. -/
theorem HeapBounds.mmuAllocPages (h : HeapBounds s live) {base num : Word}
    (hrun : mmuAllocPages fuel num s = .ok base s') :
    base = s.kernHeapTop ∧ HeapBounds s' (live ∪ pageRange s.kernHeapTop num.toNat) ∧
      s'.kernHeapTop.toNat = s.kernHeapTop.toNat + 4096 * num.toNat := by
  rw [SkipOS.mmuAllocPages, bind_get] at hrun
  obtain ⟨_, s1, hloop, hret⟩ := bind_eq_ok.mp hrun
  obtain ⟨rfl, rfl⟩ : s.kernHeapTop = base ∧ s1 = s' := by simpa using hret
  exact ⟨rfl, h.allocPages hloop⟩

theorem HeapBounds.exec (h : HeapBounds s live) (fuel : Nat)
    (hrun : c.exec fuel s = .ok () s') :
    HeapBounds s' (c.live s live) ∧ s.kernHeapTop.toNat ≤ s'.kernHeapTop.toNat := by
  have hsame : ∀ {live' : Set Word}, s'.kernHeapTop = s.kernHeapTop → live' ⊆ live →
      HeapBounds s' live' ∧ s.kernHeapTop.toNat ≤ s'.kernHeapTop.toNat := by
    intro live' htop hsub
    exact ⟨h.of_top htop hsub, by rw [htop]⟩
  cases c with
  | allocPages num =>
    obtain ⟨_, s1, halloc, hret⟩ := bind_eq_ok.mp hrun
    obtain ⟨-, rfl⟩ : () = () ∧ s1 = s' := by simpa using hret
    obtain ⟨-, hnext, htop⟩ := h.mmuAllocPages halloc
    exact ⟨hnext, by omega⟩
  | freePages vp num =>
    have hs := shoots_mmuFreePages vp num s
    have hrun' : mmuFreePages vp num s = .ok () s' := hrun
    rw [hrun', final_ok] at hs
    exact hsame hs.top Set.sdiff_subset
  | pageFault addr =>
    have hq := quiet_pageFaultHandler pfIntNum { s with cr2 := addr }
    have hrun' : pageFaultHandler pfIntNum { s with cr2 := addr } = .ok () s' := hrun
    rw [hrun', final_ok] at hq
    exact hsame hq.top fun _ hv => hv
  | write a v =>
    obtain rfl := modify_eq_ok.mp hrun
    exact hsame rfl fun _ hv => hv

theorem Booted.heapBounds (h : Booted B s) : HeapBounds s ∅ := by
  obtain ⟨s0, -, -, hrun⟩ := h
  obtain ⟨-, -, -, -, -, -, -, -, -, -, -, htop, -⟩ := mmuInitVp_eq_ok hrun
  refine ⟨?_, ?_, ?_, by simp⟩ <;> rw [htop] <;> decide

theorem VmRun.heapBounds {C : Machine → VmCall → Prop} {x : Machine × Set Word}
    (h0 : HeapBounds s0 ∅) (hrun : VmRun C (s0, ∅) x) : HeapBounds x.1 x.2 := by
  induction hrun with
  | refl => exact h0
  | tail _ hstep ih =>
    cases hstep with
    | call c fuel hal hc hrun => exact (ih.exec fuel hrun).1

end SkipOS
