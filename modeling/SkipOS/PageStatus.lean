import SkipOS.FreeExact
import SkipOS.HeapBounds

/-! What the tables say about each page, and what `MMU_alloc_pages` and the page fault handler
do to it: the pages they are about change, and no other page does. -/

namespace SkipOS

open Mem Exec Walk

inductive PageStatus where
  /-- below 512 GiB, by the L3 entry of the page -/
  | identity (entry : Word)
  | mapped (frame : Word)
  | reserved
  | unmapped
  deriving DecidableEq

/-- What the tables say about a page. It is reserved if its L1 entry is not present and the
demand bit is set. -/
def Machine.pageStatus (s : Machine) (va : Word) : PageStatus :=
  if (va >>> 39) &&& 0x1FF = 0 then
    match s.node [0] with
    | some t => .identity (s.mem.load64 (entryPtr t ((va >>> 30) &&& 0x1FF)))
    | none => .unmapped
  else
    match s.node (pathOf va) with
    | some f => .mapped f
    | none => if s.leafFlags va = some 0x200 then .reserved else .unmapped

/-- Bits 47 to 63 are the same. -/
def IsCanonical (va : Word) : Prop := va.toNat < 2 ^ 47 ∨ 2 ^ 64 - 2 ^ 47 ≤ va.toNat

/-- The page is as it was, for every page outside of `X`. -/
def SameStatus (X : Set Word) (s s' : Machine) : Prop :=
  ∀ va, IsCanonical va → va % pageSize = 0 → va ∉ X → s'.pageStatus va = s.pageStatus va

variable {managed : List Word} {limit va f t num base addr : Word} {s s' s0 : Machine} {P Q : Pool}
  {live X : Set Word} {B : BootPool} {fuel n : Nat}

theorem pageStatus_identity (h : TablesInv managed limit s P) (h0 : (va >>> 39) &&& 0x1FF = 0) :
    s.pageStatus va = .identity 0x83 := by
  obtain ⟨t, ht, hid⟩ := h.identity
  rw [Machine.pageStatus, if_pos h0, ht]
  exact congrArg PageStatus.identity (hid _ (index_lt va 30))

theorem node_eq_none_of_reserved (hfl : s.leafFlags va = some 0x200) : s.node (pathOf va) = none := by
  obtain ⟨t, ht, hv⟩ := leafFlags_eq_some hfl
  rw [pathOf_eq]
  exact (walk_snoc_of_some ht).trans (child_eq_none_iff.mpr (not_present_of_flags (by rw [hv]; decide)))

theorem pageStatus_eq_reserved_iff (h0 : (va >>> 39) &&& 0x1FF ≠ 0) :
    s.pageStatus va = .reserved ↔ s.leafFlags va = some 0x200 := by
  rw [Machine.pageStatus, if_neg h0]
  constructor
  · intro hs
    cases hn : s.node (pathOf va) with
    | some f => simp [hn] at hs
    | none =>
      by_contra hfl
      exact hfl (by simpa [hn] using hs)
  · intro hfl
    simp only [node_eq_none_of_reserved hfl, if_pos hfl]

theorem pageStatus_of_node (h0 : (va >>> 39) &&& 0x1FF ≠ 0) (hf : s.node (pathOf va) = some f) :
    s.pageStatus va = .mapped f := by
  simp only [Machine.pageStatus, if_neg h0, hf]

theorem PagesInv.pageStatus_of_dead (h : PagesInv s live) (hva : IsPage va) (hm : va ∉ live) :
    s.pageStatus va = .unmapped := by
  have hfl : s.leafFlags va ≠ some 0x200 := by
    rcases h.dead_flags va hva hm with he | he <;> simp [he]
  simp only [Machine.pageStatus, if_neg hva.l4Index_ne_zero, h.node_eq_none hva hm, if_neg hfl]

theorem PageKept.pageStatus (h : PageKept s s' va) (h0 : (va >>> 39) &&& 0x1FF ≠ 0) :
    s'.pageStatus va = s.pageStatus va := by
  have hfl := h.flags_iff (v := 0x200) (by decide)
  simp only [Machine.pageStatus, if_neg h0, h.node, hfl]

theorem pageStatus_canonical (s : Machine) (va : Word) :
    s.pageStatus (canonical va) = s.pageStatus va := by
  simp only [Machine.pageStatus, index_canonical va (Or.inl rfl),
    index_canonical va (Or.inr (Or.inl rfl)), pathOf_canonical, leafFlags_canonical]

/-- A page that is kept keeps its status, as do the others with the same indices. -/
theorem PagesKept.pageStatus_eq (hk : PagesKept X s s') (h : TablesInv managed limit s P)
    (h' : TablesInv managed limit s' Q) (hal : va % pageSize = 0) (hva : canonical va ∉ X) :
    s'.pageStatus va = s.pageStatus va := by
  by_cases h0 : (va >>> 39) &&& 0x1FF = 0
  · rw [pageStatus_identity h h0, pageStatus_identity h' h0]
  · have hpage := isPage_canonical (umod_pageSize_eq_zero.mp hal) h0
    rw [← pageStatus_canonical s', ← pageStatus_canonical s]
    exact (hk _ hpage hva).pageStatus hpage.l4Index_ne_zero

theorem PagesKept.sameStatus (hk : PagesKept X s s') (h : TablesInv managed limit s P)
    (h' : TablesInv managed limit s' Q) (hX : ∀ va ∈ X, va.toNat < 2 ^ 47) : SameStatus X s s' := by
  intro va hcanon hal hva
  refine hk.pageStatus_eq h h' hal fun hm => ?_
  have hlt := hX _ hm
  have hn : (canonical va).toNat = va.toNat % 2 ^ 48 := by
    rw [canonical, BitVec.toNat_ofNat]
    omega
  rcases hcanon with hlow | hhigh
  · have he : canonical va = va := BitVec.eq_of_toNat_eq (by omega)
    exact hva (he ▸ hm)
  · have := va.isLt
    omega

/-! Runs with arbitrary frees. -/

theorem PermittedRun.heapBounds {x y : Machine × Set Word} (h : HeapBounds x.1 x.2)
    (hrun : PermittedRun x y) :
    HeapBounds y.1 y.2 ∧ x.1.kernHeapTop.toNat ≤ y.1.kernHeapTop.toNat := by
  induction hrun with
  | refl => exact ⟨h, Nat.le_refl _⟩
  | tail _ hstep ih =>
    obtain ⟨hb, hle⟩ := ih
    cases hstep with
    | call c fuel hal hexec =>
      obtain ⟨hb', hle'⟩ := hb.exec fuel hexec
      exact ⟨hb', hle.trans hle'⟩

theorem PermittedRun.inv (hboot : Booted B s0) (hrun : PermittedRun (s0, ∅) (s, live))
    (hnull : .pfAlloc 0 ∉ s.events) : ∃ limit P, VmInv B.managed limit s live P :=
  (PermittedRun.vmRun hboot hrun hnull).inv_of_booted hboot hnull

theorem pageRange_toNat (hfits : base.toNat + 4096 * n < 2 ^ 64) (hva : va ∈ pageRange base n) :
    base.toNat ≤ va.toNat ∧ va.toNat + 4096 ≤ base.toNat + 4096 * n := by
  obtain ⟨k, hk, rfl⟩ := hva
  rw [BitVec.toNat_add, BitVec.toNat_ofNat]
  omega

/-- A range returned before lies below the heap top. -/
theorem disjoint_of_returned (hboot : Booted B s0) {s₁ s₂ : Machine} {l₁ : Set Word} {fuel₁ : Nat}
    {num₁ base₁ : Word} (h₁ : PermittedRun (s0, ∅) (s₁, l₁))
    (hret : mmuAllocPages fuel₁ num₁ s₁ = .ok base₁ s₂)
    (h₂ : PermittedRun (s₂, (VmCall.allocPages num₁).live s₁ l₁) (s, live))
    (hfits : s.kernHeapTop.toNat + 4096 * n < 2 ^ 64) :
    Disjoint (pageRange base₁ num₁.toNat) (pageRange s.kernHeapTop n) := by
  obtain ⟨hb, -⟩ := PermittedRun.heapBounds hboot.heapBounds h₁
  obtain ⟨rfl, hb', htop⟩ := hb.mmuAllocPages hret
  obtain ⟨-, hle⟩ := PermittedRun.heapBounds hb' h₂
  dsimp only at hle
  rw [Set.disjoint_left]
  intro va hva hva'
  have hlow := pageRange_toNat (by omega) hva
  have hhigh := pageRange_toNat hfits hva'
  omega

/-- As long as the heap stays below `2 ^ 47` and a frame is to be had, `MMU_alloc_pages` returns
pages that were never returned before. They are reserved, and no other page changes. -/
theorem alloc_pages_fresh (hboot : Booted B s0) (hrun : PermittedRun (s0, ∅) (s, live))
    (hfuel : 3 ≤ fuel) (hheap : s.kernHeapTop.toNat + 4096 * num.toNat ≤ 2 ^ 47)
    (hnull : .pfAlloc 0 ∉ (final (mmuAllocPages fuel num s)).events) :
    ∃ s', mmuAllocPages fuel num s = .ok s.kernHeapTop s' ∧
      s'.kernHeapTop.toNat = s.kernHeapTop.toNat + 4096 * num.toNat ∧
      (∀ va ∈ pageRange s.kernHeapTop num.toNat, s'.pageStatus va = .reserved) ∧
      SameStatus (pageRange s.kernHeapTop num.toNat) s s' ∧
      ∀ s₁ l₁ fuel₁ num₁ base₁ s₂, PermittedRun (s0, ∅) (s₁, l₁) →
        mmuAllocPages fuel₁ num₁ s₁ = .ok base₁ s₂ →
        PermittedRun (s₂, (VmCall.allocPages num₁).live s₁ l₁) (s, live) →
        Disjoint (pageRange base₁ num₁.toNat) (pageRange s.kernHeapTop num.toNat) := by
  have hgrow : Grows s (final (mmuAllocPages fuel num s)) := grows_mmuAllocPages fuel num s
  obtain ⟨limit, P, h⟩ := PermittedRun.inv hboot hrun fun hm => hnull (hgrow.subset hm)
  rcases mmuAllocPages_spec fuel h rfl with
    ⟨hgot, -⟩ | ⟨live', Q, hinv, -, ⟨hok, -, hgrown⟩ | ⟨e, -, hwhy⟩⟩
  · exact absurd hgot.mem_events hnull
  · have hlow := h.pages.base_le
    have hrange : ∀ va ∈ pageRange s.kernHeapTop num.toNat,
        s.kernHeapTop.toNat ≤ va.toNat ∧ va.toNat < 2 ^ 47 := by
      intro va hva
      have := pageRange_toNat (by omega) hva
      omega
    refine ⟨_, hok, hgrown.top, ?_, hgrown.kept.sameStatus h.tables hinv.tables
      fun va hva => (hrange va hva).2, ?_⟩
    · intro va hva
      have hb := hrange va hva
      have h0 : (va >>> 39) &&& 0x1FF ≠ 0 := by
        rw [Ne, l4Index_eq_zero]
        omega
      obtain ⟨k, hk, rfl⟩ := hva
      exact (pageStatus_eq_reserved_iff h0).mpr (hgrown.reserved k hk)
    · intro s₁ l₁ fuel₁ num₁ base₁ s₂ h₁ hret h₂
      exact disjoint_of_returned hboot h₁ hret h₂ (by omega)
  · omega

theorem alloc_pages_fresh_roomy : ∃ s', mmuAllocPages 3 2 roomyTouched = .ok roomyTouched.kernHeapTop s' ∧
    s'.pageStatus (roomyTouched.kernHeapTop + BitVec.ofNat 64 (4096 * 1)) = .reserved ∧
    s'.pageStatus 0x10000000000 = roomyTouched.pageStatus 0x10000000000 := by
  have hstate : roomyTouched.kernHeapTop = 0x10000001000 ∧
      .pfAlloc 0 ∉ (final (mmuAllocPages 3 2 roomyTouched)).events := by
    decide +kernel
  obtain ⟨htop, hnull⟩ := hstate
  have hheap : roomyTouched.kernHeapTop.toNat + 4096 * (2 : Word).toNat ≤ 2 ^ 47 := by
    rw [htop]
    decide
  obtain ⟨s', hok, -, hres, hsame, -⟩ := alloc_pages_fresh roomyBoot_booted
    roomyTouched_run.permitted (by decide) hheap hnull
  refine ⟨s', hok, hres _ ⟨1, by decide, rfl⟩, hsame _ (Or.inl (by decide)) (by decide) ?_⟩
  intro hm
  have hb := pageRange_toNat (by omega) hm
  rw [htop] at hb
  exact absurd hb.1 (by decide)

/-- The page of a faulting address behind the identity mapping, if it is reserved, gets a frame
that nothing else uses. On any other page the handler halts and has changed nothing. -/
theorem fault_maps_reserved (hboot : Booted B s0) (hrun : PermittedRun (s0, ∅) (s, live))
    (hlo : 2 ^ 39 ≤ addr.toNat) (hhi : addr.toNat < 2 ^ 47)
    (hnull : .pfAlloc 0 ∉ (final (pageFaultHandler pfIntNum { s with cr2 := addr })).events) :
    (s.pageStatus (addr - addr % pageSize) = .reserved →
      ∃ f s', pageFaultHandler pfIntNum { s with cr2 := addr } = .ok () s' ∧
        s'.pageStatus (addr - addr % pageSize) = .mapped f ∧
        s'.leafFlags (addr - addr % pageSize) = some (presentMask ||| writeableMask) ∧
        SameStatus {addr - addr % pageSize} s s' ∧ f ∉ outstanding s.events ∧
        ∀ p ∈ Paths, s'.node p = some f → p = pathOf (addr - addr % pageSize)) ∧
    (s.pageStatus (addr - addr % pageSize) ≠ .reserved →
      pageFaultHandler pfIntNum { s with cr2 := addr } = .error .halt { s with cr2 := addr }) := by
  have hgrow := (grows_of_quiet (quiet_pageFaultHandler pfIntNum)) { s with cr2 := addr }
  obtain ⟨limit, P, h⟩ := PermittedRun.inv hboot hrun fun hm => hnull (hgrow.subset hm)
  have hcr2 : VmInv B.managed limit { s with cr2 := addr } live P := h.of_eq rfl rfl rfl rfl rfl
  have hn : (addr - addr % pageSize).toNat = addr.toNat - addr.toNat % 4096 := by
    have hm : (addr % pageSize).toNat = addr.toNat % 4096 := BitVec.toNat_umod
    have hle := Nat.mod_le addr.toNat 4096
    bv_omega
  have hpage : IsPage (addr - addr % pageSize) := by
    rw [IsPage, hn]
    omega
  have h0 := hpage.l4Index_ne_zero
  have hself : canonical (addr - addr % pageSize) = addr - addr % pageSize := by
    refine BitVec.eq_of_toNat_eq ?_
    rw [canonical, BitVec.toNat_ofNat]
    omega
  rw [Ne, pageStatus_eq_reserved_iff h0]
  refine ⟨fun hfl => ?_, fun hfl => pageFaultHandler_halts hcr2 h0 hfl⟩
  rcases pageFaultHandler_reserved hcr2 h0 hfl rfl with ⟨-, hgot⟩ | ⟨hok, f, hf⟩
  · exact absurd hgot.mem_events hnull
  · obtain ⟨Q, hQ⟩ := hf.inv
    have hnode := hf.node
    have hflags := hf.flags
    have hkept := hf.kept
    have hfault : canonical (faultPage { s with cr2 := addr }) = addr - addr % pageSize := hself
    rw [hfault] at hnode hflags hkept
    refine ⟨f, _, hok, pageStatus_of_node h0 hnode, hflags, ?_, ?_, ?_⟩
    · refine hkept.sameStatus hcr2.tables hQ.tables ?_
      rintro va rfl
      omega
    · exact fun hm => hcr2.tables.pool.out_not_free hm hf.free
    · intro p hp hn
      exact hQ.tables.owns.unique p hp _ hpage.pathOf_mem f hn hnode

theorem fault_maps_reserved_roomy :
    (∃ f s', pageFaultHandler pfIntNum { roomyReserved with cr2 := 0x10000000123 } = .ok () s' ∧
      s'.pageStatus 0x10000000000 = .mapped f ∧ f ∉ outstanding roomyReserved.events) ∧
    pageFaultHandler pfIntNum { roomyReserved with cr2 := 0x20000000123 } =
      .error .halt { roomyReserved with cr2 := 0x20000000123 } := by
  have hrun : VmRun (fun _ _ => True) (initMachine roomyBoot, ∅)
      (roomyReserved, ∅ ∪ pageRange (initMachine roomyBoot).kernHeapTop 1) :=
    .single (.of_returned trivial trivial roomyTouched_returned.1)
  have hpage : (0x10000000123 : Word) - 0x10000000123 % pageSize = 0x10000000000 := by decide
  have hfar : (0x20000000123 : Word) - 0x20000000123 % pageSize = 0x20000000000 := by decide
  have hstatus : roomyReserved.pageStatus 0x10000000000 = .reserved ∧
      roomyReserved.pageStatus 0x20000000000 ≠ .reserved ∧
      .pfAlloc 0 ∉ (final (pageFaultHandler pfIntNum { roomyReserved with cr2 := 0x10000000123 })).events ∧
      .pfAlloc 0 ∉ (final (pageFaultHandler pfIntNum { roomyReserved with cr2 := 0x20000000123 })).events := by
    decide +kernel
  obtain ⟨hreserved, hother, hnull, hnull'⟩ := hstatus
  refine ⟨?_, ?_⟩
  · have h := (fault_maps_reserved roomyBoot_booted hrun.permitted (by decide) (by decide) hnull).1
    rw [hpage] at h
    obtain ⟨f, s', hok, hmapped, -, -, hfresh, -⟩ := h hreserved
    exact ⟨f, s', hok, hmapped, hfresh⟩
  · refine (fault_maps_reserved roomyBoot_booted hrun.permitted (by decide) (by decide) hnull').2 ?_
    rw [hfar]
    exact hother

end SkipOS
