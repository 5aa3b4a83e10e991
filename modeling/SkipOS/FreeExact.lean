import SkipOS.FrameOwners

/-! `MMU_free_pages` on any heap range. It returns exactly when every page of the range is
allocated, and fails an assertion on the first one that is not. -/

namespace SkipOS

open Mem Exec Walk

/-- The range lies behind the identity mapping and below the canonical limit. -/
def HeapRange (vp num : Word) : Prop :=
  2 ^ 39 ≤ vp.toNat ∧ vp.toNat + 4096 * num.toNat ≤ 2 ^ 47

def FreeHalts (vp num : Word) (s : Machine) : Prop := ∃ s', mmuFreePages vp num s = .error .assert s'

/-- As `Allowed`, but any heap range may be freed. -/
def VmCall.Permitted (s : Machine) (live : Set Word) (c : VmCall) : Prop :=
  c.Allowed s live ∨ ∃ vp num, c = .freePages vp num ∧ HeapRange vp num

inductive PermittedStep : Machine × Set Word → Machine × Set Word → Prop
  | call {s s' : Machine} {live : Set Word} (c : VmCall) (fuel : Nat) (hal : c.Permitted s live)
      (hrun : c.exec fuel s = .ok () s') : PermittedStep (s, live) (s', c.live s live)

abbrev PermittedRun := Relation.ReflTransGen PermittedStep

variable {managed : List Word} {limit va vp num : Word} {s s' s0 : Machine} {P : Pool}
  {live : Set Word} {B : BootPool} {n : Nat}

theorem HeapRange.isPage (h : HeapRange vp num) (hal : vp % pageSize = 0) {k : Nat}
    (hk : k < num.toNat) : IsPage (vp + BitVec.ofNat 64 (4096 * k)) := by
  obtain ⟨hlo, hhi⟩ := h
  have hmod : vp.toNat % 4096 = 0 := umod_pageSize_eq_zero.mp hal
  have hn : (vp + BitVec.ofNat 64 (4096 * k)).toNat = vp.toNat + 4096 * k := by
    rw [BitVec.toNat_add, BitVec.toNat_ofNat]
    omega
  refine ⟨?_, ?_, ?_⟩ <;> rw [hn] <;> omega

theorem freePagesLoop_live_or_halts (vp : Word) (prev : Option Word)
    (h : VmInv managed limit s live P) (hpages : ∀ k < n, IsPage (va + BitVec.ofNat 64 (4096 * k))) :
    (∀ k < n, va + BitVec.ofNat 64 (4096 * k) ∈ live) ∨
      ∃ s', freePagesLoop vp n va prev s = .error .assert s' := by
  induction n generalizing s P live va prev with
  | zero => exact Or.inl fun k hk => absurd hk (by omega)
  | succ n ih =>
    have hva : IsPage va := by simpa using hpages 0 (by omega)
    by_cases hmem : va ∈ live
    · obtain ⟨s1, prev', hround, hone⟩ := freePagesLoop_live vp h hmem n prev
      have hlater : ∀ k < n, IsPage (va + pageSize + BitVec.ofNat 64 (4096 * k)) := by
        intro k hk
        rw [← add_page_succ]
        exact hpages (k + 1) (by omega)
      rcases ih prev' hone.inv hlater with hlive | ⟨s', hfail⟩
      · left
        intro k hk
        cases k with
        | zero => simpa using hmem
        | succ k =>
          rw [add_page_succ]
          exact (hlive k (by omega)).1
      · exact Or.inr ⟨s', hround.trans hfail⟩
    · exact Or.inr ⟨s, freePagesLoop_dead h hva hmem n prev⟩

theorem VmInv.live_or_halts (h : VmInv managed limit s live P) (hal : vp % pageSize = 0)
    (hnum : 0 < num) (hheap : HeapRange vp num) :
    (∀ k < num.toNat, vp + BitVec.ofNat 64 (4096 * k) ∈ live) ∨ FreeHalts vp num s := by
  rcases freePagesLoop_live_or_halts vp none h fun k hk => hheap.isPage hal hk with
    hlive | ⟨s', hfail⟩
  · exact Or.inl hlive
  · refine Or.inr ⟨s', ?_⟩
    rw [mmuFreePages, bind_assert_of hal, bind_assert_of hnum, hfail]

theorem VmInv.allowed_of_returned (h : VmInv managed limit s live P) (hheap : HeapRange vp num)
    (hrun : mmuFreePages vp num s = .ok () s') :
    ∀ k < num.toNat, vp + BitVec.ofNat 64 (4096 * k) ∈ live := by
  by_cases hal : vp % pageSize = 0
  · by_cases hnum : 0 < num
    · rcases h.live_or_halts hal hnum hheap with hlive | ⟨t, hfail⟩
      · exact hlive
      · simp [hfail] at hrun
    · rw [mmuFreePages, bind_assert_of hal, bind_assert_not hnum] at hrun
      simp at hrun
  · rw [mmuFreePages, bind_assert_not hal] at hrun
    simp at hrun

theorem PermittedStep.grows {x y : Machine × Set Word} (h : PermittedStep x y) :
    Grows x.1 y.1 := by
  cases h with
  | call c fuel hal hrun =>
    rename_i s s' live
    have hg := grows_exec fuel c s
    rwa [hrun] at hg

theorem VmRun.permitted {C : Machine → VmCall → Prop} {x : Machine × Set Word}
    (hrun : VmRun C (s0, ∅) x) : PermittedRun (s0, ∅) x := by
  induction hrun with
  | refl => exact .refl
  | tail _ hstep ih =>
    cases hstep with
    | call c fuel hal hc hexec => exact ih.tail (.call c fuel (Or.inl hal) hexec)

/-- A run with arbitrary frees made only frees of allocated ranges. -/
theorem PermittedRun.vmRun (hboot : Booted B s0) {x : Machine × Set Word}
    (hrun : PermittedRun (s0, ∅) x) (hnull : .pfAlloc 0 ∉ x.1.events) :
    VmRun (fun _ _ => True) (s0, ∅) x := by
  induction hrun with
  | refl => exact .refl
  | tail _ hstep ih =>
    have hgrow := hstep.grows
    cases hstep with
    | call c fuel hal hexec =>
      have hbefore := fun hm => hnull (hgrow.subset hm)
      have hprev := ih hbefore
      refine hprev.tail (.call c fuel ?_ trivial hexec)
      rcases hal with hal | ⟨vp, num, rfl, hheap⟩
      · exact hal
      · obtain ⟨limit, Q, hQ⟩ := hprev.inv_of_booted hboot hbefore
        exact hQ.allowed_of_returned hheap hexec

/-- A free of a heap range returns exactly when all of it is allocated; otherwise an assertion
fails. After a return no page of the range can be freed again. -/
theorem free_pages_exact (hboot : Booted B s0) (hrun : PermittedRun (s0, ∅) (s, live))
    (hnull : .pfAlloc 0 ∉ s.events) (hal : vp % pageSize = 0) (hnum : 0 < num)
    (hheap : HeapRange vp num) :
    ((∃ s', mmuFreePages vp num s = .ok () s') ↔
      ∀ k < num.toNat, vp + BitVec.ofNat 64 (4096 * k) ∈ live) ∧
    ((∃ k < num.toNat, vp + BitVec.ofNat 64 (4096 * k) ∉ live) → FreeHalts vp num s) ∧
    ∀ s', mmuFreePages vp num s = .ok () s' →
      PermittedRun (s0, ∅) (s', live \ pageRange vp num.toNat) ∧
      ∀ k < num.toNat, FreeHalts (vp + BitVec.ofNat 64 (4096 * k)) 1 s' := by
  obtain ⟨limit, P, h⟩ := (PermittedRun.vmRun hboot hrun hnull).inv_of_booted hboot hnull
  refine ⟨⟨?_, fun hlive => ?_⟩, ?_, ?_⟩
  · rintro ⟨s', hfree⟩
    exact h.allowed_of_returned hheap hfree
  · obtain ⟨s', hfree, -⟩ := mmuFreePages_spec h hnum hlive
    exact ⟨s', hfree⟩
  · rintro ⟨k, hk, hdead⟩
    exact (h.live_or_halts hal hnum hheap).resolve_left fun hlive => hdead (hlive k hk)
  · intro s' hfree
    have hlive := h.allowed_of_returned hheap hfree
    obtain ⟨t, hfree', hfreed⟩ := mmuFreePages_spec h hnum hlive
    rw [hfree] at hfree'
    obtain ⟨-, rfl⟩ := EStateM.Result.ok.inj hfree'
    refine ⟨hrun.tail (.call (.freePages vp num) 0 (Or.inr ⟨vp, num, rfl, hheap⟩) hfree), ?_⟩
    intro k hk
    have hpage := hheap.isPage hal hk
    have hone : HeapRange (vp + BitVec.ofNat 64 (4096 * k)) 1 := by
      obtain ⟨hlo, hhi⟩ := hheap
      have h1 : (1 : Word).toNat = 1 := rfl
      have hn : (vp + BitVec.ofNat 64 (4096 * k)).toNat = vp.toNat + 4096 * k := by
        rw [BitVec.toNat_add, BitVec.toNat_ofNat]
        omega
      exact ⟨hpage.2.1, by omega⟩
    refine (hfreed.inv.live_or_halts hpage.umod_eq_zero (by decide) hone).resolve_left fun hall => ?_
    have hzero := hall 0 (by decide)
    simp only [Nat.mul_zero, BitVec.add_zero] at hzero
    exact hzero.2 ⟨k, hk, rfl⟩

/-- The one page of the roomy machine can be freed; the page behind it was never allocated. -/
theorem free_pages_exact_roomy :
    (∃ s', mmuFreePages 0x10000000000 1 roomyTouched = .ok () s') ∧
      FreeHalts 0x10000000000 2 roomyTouched := by
  have htop : (initMachine roomyBoot).kernHeapTop = 0x10000000000 := by decide +kernel
  have hrun := roomyTouched_run.permitted
  have hnull := roomyTouched_returned.2.2.1
  rw [htop] at hrun
  have hone : (∃ s', mmuFreePages 0x10000000000 1 roomyTouched = .ok () s') ↔
      ∀ k < (1 : Word).toNat, (0x10000000000 : Word) + BitVec.ofNat 64 (4096 * k) ∈
        ∅ ∪ pageRange 0x10000000000 1 :=
    (free_pages_exact roomyBoot_booted hrun hnull (by decide) (by decide)
      ⟨by decide, by decide⟩).1
  have htwo : (∃ k < (2 : Word).toNat, (0x10000000000 : Word) + BitVec.ofNat 64 (4096 * k) ∉
      ∅ ∪ pageRange 0x10000000000 1) → FreeHalts 0x10000000000 2 roomyTouched :=
    (free_pages_exact roomyBoot_booted hrun hnull (by decide) (by decide)
      ⟨by decide, by decide⟩).2.1
  refine ⟨hone.mpr fun k hk => Or.inr ⟨k, hk, rfl⟩, htwo ⟨1, by decide, ?_⟩⟩
  rintro (hm | ⟨k, hk, he⟩)
  · exact hm
  · obtain rfl : k = 0 := by omega
    exact absurd he (by decide)

end SkipOS
