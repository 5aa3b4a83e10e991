import SkipOS.HeapBounds

/-! What `MMU_free_pages` leaves in the TLB. It hands `invlpg` the first page of the range
each time, so the first translation is dropped and the others stay. -/

namespace SkipOS

open Mem Exec Walk

/-- What is cached for a heap page is the frame the tables give it. -/
def TlbConsistent (s : Machine) (T : Word → Option Word) : Prop :=
  ∀ page f, T page = some f → (page >>> 39) &&& 0x1FF ≠ 0 → s.node (pathOf page) = some f

def Machine.withTlb (s : Machine) (T : Word → Option Word) : Machine := { s with tlb := T }

variable {s s' s0 : Machine} {live : Set Word} {T : Word → Option Word} {vp num f : Word} {n : Nat}
  {B : BootPool} {limit : Word} {P : Pool}

/-- A mapped first page has its translation dropped in the first iteration. -/
theorem freePagesLoop_dropped (hva : IsPage vp) (hf : s.node (pathOf vp) = some f)
    {prev : Option Word} {u : Unit}
    (hrun : freePagesLoop vp (n + 1) vp prev s = .ok u s') : s'.tlb vp = none := by
  have hpage : vp - vp % pageSize = vp := by
    rw [hva.umod_eq_zero]
    exact BitVec.sub_zero vp
  rw [pathOf_eq] at hf
  obtain ⟨t, ht⟩ := walk_prefix_isSome hf
  have hc : child s.mem t (l1Index vp) = some f := (walk_snoc_of_some ht).symm.trans hf
  rw [freePagesLoop, bind_get, bind_of_ok (getLowestPresentPage_of_mapped hva.umod_eq_zero
    hva.l4Index_ne_zero ht hc)] at hrun
  dsimp only at hrun
  rw [bind_assert_of (Or.inl rfl), if_pos rfl, deref, pure_bind,
    bind_of_ok (updateEntry_apply _ _ _)] at hrun
  obtain ⟨_, s2, -, hrest⟩ := bind_eq_ok.mp hrun
  obtain ⟨_, s3, hshot, hloop⟩ := bind_eq_ok.mp hrest
  have hnone : s3.tlb vp = none := by
    obtain rfl := modify_eq_ok.mp hshot
    exact if_pos hpage.symm
  have hs := shoots_freePagesLoop vp n (vp + pageSize) (some (entryPtr t (l1Index vp))) s3
  rw [hloop, final_ok, hpage] at hs
  exact hs.dropped hnone

theorem mmuFreePages_dropped (hva : IsPage vp) (hT : TlbConsistent s s.tlb)
    (hrun : mmuFreePages vp num s = .ok () s') : s'.tlb vp = none := by
  have hpage : vp - vp % pageSize = vp := by
    rw [hva.umod_eq_zero]
    exact BitVec.sub_zero vp
  cases hvp : s.tlb vp with
  | none =>
    have hs := shoots_mmuFreePages vp num s
    rw [hrun, final_ok, hpage] at hs
    exact hs.dropped hvp
  | some f =>
    have hf := hT vp f hvp hva.l4Index_ne_zero
    rw [mmuFreePages, bind_assert_of hva.umod_eq_zero] at hrun
    obtain ⟨_, s1, hpos, hloop⟩ := bind_eq_ok.mp hrun
    obtain ⟨hnum, rfl⟩ := assert_eq_ok.mp hpos
    obtain ⟨n, hn⟩ : ∃ n, num.toNat = n + 1 := ⟨num.toNat - 1, by bv_omega⟩
    rw [hn] at hloop
    exact freePagesLoop_dropped hva hf hloop

/-- After the call the TLB still holds the translations of the range beyond the first page
that it held before. The tables lead to none of the pages. -/
theorem shootdown_iff (hboot : Booted B s0)
    (hrun : VmRun (fun _ _ => True) (s0, ∅) (s, live)) (hT : TlbConsistent s T) (hnum : 0 < num)
    (hal : ∀ k < num.toNat, vp + BitVec.ofNat 64 (4096 * k) ∈ live) :
    (.pfAlloc 0 ∉ s.events → ∃ s', mmuFreePages vp num (s.withTlb T) = .ok () s' ∧
      ∀ k < num.toNat, s'.node (pathOf (vp + BitVec.ofNat 64 (4096 * k))) = none) ∧
    ∀ s', mmuFreePages vp num (s.withTlb T) = .ok () s' →
      ((∀ k < num.toNat, s'.tlb (vp + BitVec.ofNat 64 (4096 * k)) = none) ↔
        ∀ k < num.toNat, 0 < k → T (vp + BitVec.ofNat 64 (4096 * k)) = none) := by
  have hb : HeapBounds s live := VmRun.heapBounds hboot.heapBounds hrun
  have hpages : ∀ k < num.toNat, IsPage (vp + BitVec.ofNat 64 (4096 * k)) :=
    fun k hk => hb.pages _ (hal k hk)
  have hvp : IsPage vp := by simpa using hpages 0 (by bv_omega)
  constructor
  · intro hnull
    obtain ⟨limit, P, h⟩ := hrun.inv_of_booted hboot hnull
    have hinv : VmInv B.managed limit (s.withTlb T) live P := h.of_eq rfl rfl rfl rfl rfl
    obtain ⟨s', hfree, hfreed⟩ := mmuFreePages_spec hinv hnum hal
    exact ⟨s', hfree, fun k hk => hfreed.inv.pages.node_eq_none (hpages k hk) fun hm => hm.2 ⟨k, hk, rfl⟩⟩
  · intro s' hfree
    have hs := shoots_mmuFreePages vp num (s.withTlb T)
    have hpage : vp - vp % pageSize = vp := by
      rw [hvp.umod_eq_zero]
      exact BitVec.sub_zero vp
    rw [hfree, final_ok, hpage] at hs
    have hkept : ∀ k < num.toNat, 0 < k → s'.tlb (vp + BitVec.ofNat 64 (4096 * k)) =
        T (vp + BitVec.ofNat 64 (4096 * k)) := by
      intro k hk hpos
      refine hs.others _ fun he => ?_
      have hnat := range_toNat hpages hk
      rw [he] at hnat
      omega
    constructor
    · intro hall k hk hpos
      rw [← hkept k hk hpos]
      exact hall k hk
    · intro hrest k hk
      rcases Nat.eq_zero_or_pos k with rfl | hpos
      · have hfirst : s'.tlb vp = none :=
          mmuFreePages_dropped (s := s.withTlb T) hvp hT hfree
        simpa using hfirst
      · rw [hkept k hk hpos]
        exact hrest k hk hpos

/-- Two pages allocated and then touched, on the roomy machine. -/
def pairReserved : Machine := afterCall (.allocPages 2) (initMachine roomyBoot)

def pairTouchedFirst : Machine := afterCall (.pageFault 0x10000000123) pairReserved

def pairTouched : Machine := afterCall (.pageFault 0x10000001008) pairTouchedFirst

/-- The TLB after an access to one page. -/
def cachedPage (s : Machine) (page : Word) : Word → Option Word := fun q =>
  if q = page then s.node (pathOf q) else none

theorem cachedPage_consistent (s : Machine) (page : Word) : TlbConsistent s (cachedPage s page) := by
  intro q f hq _
  by_cases h : q = page
  · rwa [cachedPage, if_pos h] at hq
  · rw [cachedPage, if_neg h] at hq
    simp at hq

theorem pairTouched_returned :
    returned (VmCall.exec 3 (.allocPages 2) (initMachine roomyBoot)) = some () ∧
      returned (VmCall.exec 3 (.pageFault 0x10000000123) pairReserved) = some () ∧
      returned (VmCall.exec 3 (.pageFault 0x10000001008) pairTouchedFirst) = some () ∧
      .pfAlloc 0 ∉ pairTouched.events := by
  decide +kernel

theorem pairTouched_run : VmRun (fun _ _ => True) (initMachine roomyBoot, ∅)
    (pairTouched, ∅ ∪ pageRange 0x10000000000 2) := by
  obtain ⟨halloc, hfirst, hsecond, -⟩ := pairTouched_returned
  have htop : (initMachine roomyBoot).kernHeapTop = 0x10000000000 := by decide +kernel
  have hstep : VmStep (fun _ _ => True) (initMachine roomyBoot, ∅)
      (pairReserved, ∅ ∪ pageRange (initMachine roomyBoot).kernHeapTop 2) :=
    .of_returned trivial trivial halloc
  rw [htop] at hstep
  have hstep' : VmStep (fun _ _ => True) (pairReserved, ∅ ∪ pageRange 0x10000000000 2)
      (pairTouchedFirst, ∅ ∪ pageRange 0x10000000000 2) := .of_returned trivial trivial hfirst
  exact ((Relation.ReflTransGen.single hstep).tail hstep').tail
    (.of_returned trivial trivial hsecond)

theorem pair_allocated : ∀ k < (2 : Word).toNat,
    (0x10000000000 : Word) + BitVec.ofNat 64 (4096 * k) ∈ ∅ ∪ pageRange 0x10000000000 2 :=
  fun k hk => Or.inr ⟨k, hk, rfl⟩

/-- The pair freed with only its first page in the TLB. -/
theorem shootdown_pair : ∃ s', mmuFreePages 0x10000000000 2
      (pairTouched.withTlb (cachedPage pairTouched 0x10000000000)) = .ok () s' ∧
    ∀ k < 2, s'.tlb (0x10000000000 + BitVec.ofNat 64 (4096 * k)) = none := by
  obtain ⟨hreturns, hiff⟩ := shootdown_iff roomyBoot_booted pairTouched_run
    (cachedPage_consistent _ 0x10000000000) (by decide) pair_allocated
  obtain ⟨s', hfree, -⟩ := hreturns pairTouched_returned.2.2.2
  refine ⟨s', hfree, (hiff s' hfree).mpr fun k hk hpos => if_neg ?_⟩
  obtain rfl : k = 1 := by
    have hk' : k < 2 := hk
    omega
  decide

/-- The second page of the pair stays in the TLB. -/
theorem shootdown_misses : ¬ ∀ (B : BootPool) (s0 s s' : Machine) (live : Set Word)
    (T : Word → Option Word) (vp num : Word), Booted B s0 →
      VmRun (fun _ _ => True) (s0, ∅) (s, live) → TlbConsistent s T → 0 < num →
      (∀ k < num.toNat, vp + BitVec.ofNat 64 (4096 * k) ∈ live) →
      mmuFreePages vp num (s.withTlb T) = .ok () s' →
      ∀ k < num.toNat, s'.tlb (vp + BitVec.ofNat 64 (4096 * k)) = none := by
  intro h
  have hfree : returned (mmuFreePages 0x10000000000 2
        (pairTouched.withTlb (cachedPage pairTouched 0x10000001000))) = some () ∧
      (final (mmuFreePages 0x10000000000 2
        (pairTouched.withTlb (cachedPage pairTouched 0x10000001000)))).tlb 0x10000001000 ≠ none := by
    decide +kernel
  have hgone := h roomyBoot _ _ _ _ _ 0x10000000000 2 roomyBoot_booted pairTouched_run
    (cachedPage_consistent _ 0x10000001000) (by decide) pair_allocated
    (eq_ok_of_returned hfree.1) 1 (by decide)
  have hsecond : (0x10000000000 : Word) + BitVec.ofNat 64 (4096 * 1) = 0x10000001000 := by decide
  rw [hsecond] at hgone
  exact hfree.2 hgone

end SkipOS
