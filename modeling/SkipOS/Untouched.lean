import SkipOS.IdentityMap
import SkipOS.PageStatus
import SkipOS.SectionPages

/-! Memory outside the pool. The allocators write to the head of the pool and to its pages only,
so that what the boot loader put elsewhere stays as it is. -/

namespace SkipOS

open Mem Exec Walk

/-- Nothing outside the pool is written. -/
def Spared (managed : List Word) (s s' : Machine) : Prop :=
  Set.EqOn s'.mem s.mem (frames (0 :: managed))ᶜ

variable {managed : List Word} {limit t f i va vp : Word} {s s' u s0 : Machine} {P Q : Pool}
  {live : Set Word} {B : BootPool} {m m' m₁ : Mem} {rest : List Word} {n fuel : Nat}
  {prev : Option Word} {c : VmCall}

theorem Spared.refl (s : Machine) : Spared managed s s := Set.eqOn_refl _ _

theorem Spared.trans (h : Spared managed s s') (h' : Spared managed s' u) : Spared managed s u :=
  Set.EqOn.trans h' h

theorem Spared.of_mem (h : Spared managed s s') (hmem : u.mem = s'.mem) : Spared managed s u := by
  rwa [Spared, hmem]

/-! The bytes that one operation writes to. -/

theorem PoolInv.free_subset {out : List Word} (h : PoolInv managed limit m out P) :
    frames (0 :: P.free) ⊆ frames (0 :: managed) :=
  frames_mono (List.cons_subset_cons 0 fun _ hq => h.mem_managed.mpr (Or.inl hq))

theorem TablesInv.frame_subset {p : List Word} (h : TablesInv managed limit s P) (hp : p ∈ Paths)
    (hn : s.node p = some f) : frame f ⊆ frames (0 :: managed) :=
  frame_subset_frames (List.mem_cons_of_mem 0 (h.pool.mem_managed.mpr (Or.inr (h.node_mem hp hn))))

theorem TablesInv.entry_subset {p : List Word} (h : TablesInv managed limit s P) (hp : p ∈ Paths)
    (hn : s.node p = some t) (hi : i < 512) : span (entryPtr t i) 8 ⊆ frames (0 :: managed) :=
  (span_entryPtr_subset hi).trans (h.frame_subset hp hn)

/-- A frame of the pool is linked at an entry of a table. -/
theorem TablesInv.spared_link {p : List Word} (h : TablesInv managed limit s P) (hp : p ∈ Paths)
    (hn : s.node p = some t) (hi : i < 512) (hf : f ∈ P.free)
    (heq : Set.EqOn m s.mem (frames (0 :: P.free))ᶜ) (hfill : Set.EqOn m' m (frame f)ᶜ)
    (hmem : s'.mem = linkedMem m' f (entryPtr t i)) : Spared managed s s' := by
  intro a ha
  have hfree : a ∉ frames (0 :: P.free) := fun hm => ha (h.pool.free_subset hm)
  have hpage : a ∉ frame f := fun hm => hfree ⟨f, List.mem_cons_of_mem _ hf, hm⟩
  have hentry : a ∉ span (entryPtr t i) 8 := fun hm => ha (h.entry_subset hp hn hi hm)
  rw [hmem, linkedMem_eqOn _ _ _ hentry, hfill hpage, heq hfree]

theorem TablesInv.spared_store {p : List Word} (h : TablesInv managed limit s P) (hp : p ∈ Paths)
    (hn : s.node p = some t) (hi : i < 512) (v : Word)
    (hmem : s'.mem = s.mem.store64 (entryPtr t i) v) : Spared managed s s' := by
  intro a ha
  rw [hmem, store64_eqOn_compl _ _ _ fun hm => ha (h.entry_subset hp hn hi hm)]

/-! `MMU_alloc_pages` -/

theorem spared_allocVirtualPageLoop (hva : IsPage va) :
    ∀ (rest : List Word) (fuel : Nat) {s : Machine} {P : Pool} {q : List Word} {i t : Word},
      VmInv managed limit s live P → pathOf va = q ++ i :: rest → s.node q = some t →
      child s.mem t i = none →
      ∀ r, allocVirtualPageLoop s.pageTable va .l1 fuel (entryPtr t i)
        (levelOf (rest.length + 1)) s = r →
      .pfAlloc 0 ∉ (final r).events → Spared managed s (final r) := by
  intro rest
  induction rest with
  | nil =>
    intro fuel s P q i t h hp hq hi r hr hnull
    have hrun : allocVirtualPageLoop s.pageTable va .l1 fuel (entryPtr t i) (levelOf 1) s =
        .ok (entryPtr t i, .l1) s := by
      cases fuel <;> rfl
    rw [List.length_nil, Nat.zero_add, hrun] at hr
    subst hr
    exact Spared.refl s
  | cons j rest ih =>
    intro fuel s P q i t h hp hq hi r hr hnull
    have hlevel : levelOf ((j :: rest).length + 1) ≠ .l1 := levelOf_ne_l1 rest.length
    have hp' : pathOf va = (q ++ [i]) ++ j :: rest := by rw [hp]; simp
    have hx : q ++ [i] ∈ Paths := prefixClosed_paths _ (j :: rest) (hp' ▸ hva.pathOf_mem)
    have hqp : q ∈ Paths := prefixClosed_paths q [i] hx
    have hlen4 : q.length + (rest.length + 2) = 4 := by
      have := congrArg List.length hp
      simp only [pathOf, List.length_append, List.length_cons, List.length_nil] at this
      omega
    cases fuel with
    | zero =>
      rw [allocVirtualPageLoop, if_neg hlevel] at hr
      subst hr
      exact Spared.refl s
    | succ fuel =>
      rw [allocVirtualPageLoop, if_neg hlevel] at hr
      rcases h.tables.pfAlloc_cases with ⟨-, hrun⟩ | ⟨f, m, Q, hf, hrun, hpool, hne, heq⟩
      · have hg : GotNull s { s with events := .pfAlloc 0 :: s.events } :=
          ⟨[.pfAlloc 0], rfl, by simp⟩
        rw [bind_of_ok hrun] at hr
        refine absurd ?_ hnull
        refine (hg.grows ?_).mem_events
        rw [← hr]
        refine grows_of_quiet (quiet_bind (quiet_memsetPage _) fun _ => ?_) _
        refine quiet_bind (quiet_setEntry _ _) fun _ => ?_
        refine quiet_bind (quiet_updateEntry _ _) fun _ => ?_
        exact quiet_bind (quiet_getLowestPresentPage _ _ _) fun r =>
          quiet_allocVirtualPageLoop _ _ _ _ _ _
      · obtain ⟨hinv, -, hnode, hbelow, -, -⟩ := h.linkTable hx (by omega) hq hi hf hpool hne heq
        have hj : j < 512 := hva.pathOf_mem.2.1 j (by simp [hp])
        obtain ⟨prev, hget⟩ : ∃ prev, getLowestPresentPage s.pageTable va none
            (linkedTable s m f (entryPtr t i)) = .ok (entryPtr f j, levelOf (rest.length + 1), prev)
              (linkedTable s m f (entryPtr t i)) :=
          getLowestPresentPage_of_missing hva.umod_eq_zero hva.l4Index_ne_zero hp' hnode
            (hbelow j hj)
        rw [bind_of_ok hrun, linkTable_apply, bind_of_ok hget] at hr
        have hlink : Spared managed s (linkedTable s m f (entryPtr t i)) :=
          h.tables.spared_link hqp hq (index_lt_of_mem_paths hx) hf heq (fill_eqOn_compl _ _ _ _) rfl
        exact hlink.trans (ih fuel hinv hp' hnode (hbelow j hj) r hr hnull)

theorem spared_allocVirtualPage (h : VmInv managed limit s live P) (hva : IsPage s.kernHeapTop)
    (hrun : allocVirtualPage fuel s.pageTable s.kernHeapTop true s = .ok () s')
    (hnull : .pfAlloc 0 ∉ s'.events) : Spared managed s s' := by
  have hT : ∀ p, p <+: tablePath s.kernHeapTop → p ≠ [] → p ∈ tablePrefixes s.kernHeapTop :=
    fun p hp hne => mem_tablePrefixes.mpr ⟨hp, hne⟩
  have hTp : ∀ p ∈ tablePrefixes s.kernHeapTop, p ∈ Paths := by
    intro p hp
    obtain ⟨⟨rest, hrest⟩, -⟩ := mem_tablePrefixes.mp hp
    exact prefixClosed_paths p rest (hrest ▸ hva.tablePath_mem)
  rw [allocVirtualPage, bind_assert_of hva.umod_eq_zero] at hrun
  rcases walk_cases (child s.mem) s.pageTable.l4Table (pathOf s.kernHeapTop) with ⟨x, hx⟩ |
    ⟨q, i, rest, t, hp, hq, hi⟩
  · rw [pathOf_eq] at hx
    obtain ⟨t, ht⟩ := walk_prefix_isSome hx
    have hget : getLowestPresentPage s.pageTable s.kernHeapTop none s =
        .ok (x, .physical, some (entryPtr t (l1Index s.kernHeapTop))) s :=
      getLowestPresentPage_of_mapped hva.umod_eq_zero hva.l4Index_ne_zero ht
        ((walk_snoc_of_some ht).symm.trans hx)
    rw [bind_of_ok hget] at hrun
    dsimp only at hrun
    rw [bind_assert_not (by simp)] at hrun
    simp at hrun
  · have hget : ∃ prev, getLowestPresentPage s.pageTable s.kernHeapTop none s =
        .ok (entryPtr t i, levelOf (rest.length + 1), prev) s :=
      getLowestPresentPage_of_missing hva.umod_eq_zero hva.l4Index_ne_zero hp hq hi
    obtain ⟨prev, hget⟩ := hget
    rw [bind_of_ok hget] at hrun
    obtain ⟨_, s₁, hlevel, hrun⟩ := bind_eq_ok.mp hrun
    obtain ⟨-, rfl⟩ := assert_eq_ok.mp hlevel
    obtain ⟨⟨ptr, level⟩, s₁, hloop, hrun⟩ := bind_eq_ok.mp hrun
    simp only [if_true] at hrun
    have hgrow := (quiet_reserveEntry (ptr, level) s₁).grows
    rw [hrun, final_ok] at hgrow
    have hnull₁ : .pfAlloc 0 ∉ s₁.events := fun hm => hnull (hgrow.subset hm)
    have hspare := spared_allocVirtualPageLoop hva rest fuel h hp hq hi _ hloop hnull₁
    rcases allocVirtualPageLoop_spec hva hTp hT rest fuel h hp hq hi _ hloop with
      ⟨hgot, -⟩ | ⟨hk, ⟨c, hok, hc⟩ | ⟨-, herr⟩⟩
    · exact absurd hgot.mem_events hnull₁
    · rw [final_ok] at hk hc hok hspare
      obtain ⟨_, s₂, hl1, hrun⟩ := bind_eq_ok.mp hrun
      obtain ⟨-, rfl⟩ := assert_eq_ok.mp hl1
      rw [bind_get] at hrun
      obtain ⟨_, s₂, hdemand, hrun⟩ := bind_eq_ok.mp hrun
      obtain ⟨-, rfl⟩ := assert_eq_ok.mp hdemand
      rw [EStateM.Result.ok.injEq, Prod.mk.injEq] at hok
      obtain ⟨⟨rfl, -⟩, -⟩ := hok
      rw [updateEntry_apply, EStateM.Result.ok.injEq] at hrun
      obtain ⟨Q, hQ⟩ := hk.inv
      exact hspare.trans (hQ.tables.spared_store hva.tablePath_mem hc (l1Index_lt _) _
        (congrArg Machine.mem hrun.2.symm))
    · simp at herr

theorem spared_allocPagesLoop (h : VmInv managed limit s live P)
    (hrun : allocPagesLoop fuel n s = .ok () s') (hnull : .pfAlloc 0 ∉ s'.events) :
    Spared managed s s' := by
  induction n generalizing s P live with
  | zero =>
    obtain ⟨-, rfl⟩ := pure_eq_ok.mp hrun
    exact Spared.refl s
  | succ n ih =>
    rw [allocPagesLoop, bind_get] at hrun
    obtain ⟨⟨⟩, s₁, hpage, hrun⟩ := bind_eq_ok.mp hrun
    rw [bind_modify] at hrun
    have hone : mmuAllocPages fuel 1 s =
        .ok s.kernHeapTop { s₁ with kernHeapTop := s₁.kernHeapTop + pageSize } := by
      have hloop : allocPagesLoop fuel 1 s =
          .ok () { s₁ with kernHeapTop := s₁.kernHeapTop + pageSize } := by
        rw [allocPagesLoop, bind_get, bind_of_ok hpage, bind_modify]
        rfl
      exact bind_of_ok hloop _
    have hgrow := grows_allocPagesLoop fuel n { s₁ with kernHeapTop := s₁.kernHeapTop + pageSize }
    rw [hrun, final_ok] at hgrow
    have hnull₁ : .pfAlloc 0 ∉ s₁.events := fun hm => hnull (hgrow.subset hm)
    by_cases hlt : s.kernHeapTop.toNat < 2 ^ 48
    · have hva : IsPage s.kernHeapTop := by
        have := h.pages.base_le
        exact ⟨h.pages.top_aligned, by omega, hlt⟩
      have hspare := spared_allocVirtualPage h hva hpage hnull₁
      rcases mmuAllocPages_spec fuel h hone with ⟨hgot, -⟩ | ⟨live', Q, hinv, -⟩
      · rw [final_ok] at hgot
        exact absurd hgot.mem_events hnull₁
      · rw [final_ok] at hinv
        have hmoved := hspare.of_mem
          (u := { s₁ with kernHeapTop := s₁.kernHeapTop + pageSize }) rfl
        exact hmoved.trans (ih hinv hrun)
    · have h0 : (s.kernHeapTop >>> 39) &&& 0x1FF = 0 := by
        have := h.pages.top_le
        rw [l4Index_eq_zero]
        omega
      rw [allocVirtualPage_top (umod_pageSize_eq_zero.mpr h.pages.top_aligned) h0] at hpage
      simp at hpage

/-! Faults and frees. -/

theorem spared_pageFaultHandler (h : VmInv managed limit s live P)
    (hrun : pageFaultHandler pfIntNum s = .ok () s') (hnull : .pfAlloc 0 ∉ s'.events) :
    Spared managed s s' := by
  rcases pageFaultHandler_spec h hrun with ⟨e, herr⟩ | ⟨hfl, -⟩
  · simp at herr
  · have h0 : (faultPage s >>> 39) &&& 0x1FF ≠ 0 := by
      intro h0
      obtain ⟨e, herr⟩ := pageFaultHandler_identity h0
      rw [herr] at hrun
      simp at hrun
    have hpage := isPage_canonical (umod_pageSize_eq_zero.mp (faultPage_umod s)) h0
    obtain ⟨t, ht, hflags⟩ := leafFlags_eq_some hfl
    have hi : child s.mem t (l1Index (faultPage s)) = none :=
      child_eq_none_iff.mpr (not_present_of_flags (by rw [hflags]; decide))
    have hget : ∃ prev, getLowestPresentPage ⟨s.cr3⟩ (faultPage s) none s =
        .ok (entryPtr t (l1Index (faultPage s)), .l1, prev) s :=
      getLowestPresentPage_of_missing (faultPage_umod s) h0 (pathOf_eq _)
        (by rw [h.tables.cr3]; exact ht) hi
    obtain ⟨prev, hget⟩ := hget
    have hd : ¬ (s.mem.load64 (entryPtr t (l1Index (faultPage s))) &&& demandMask = 0 ∨
        PtLevel.l1 ≠ PtLevel.l1) := by
      rw [demand_eq_flags, hflags]
      decide
    have htp : tablePath (faultPage s) ∈ Paths := by
      rw [← tablePath_canonical]
      exact hpage.tablePath_mem
    have hptr := entryPtr_ne_zero (h.tables.node_aligned htp ht) (h.tables.node_ne_zero htp ht)
      (l1Index_lt (faultPage s))
    rw [pageFaultHandler_of_get hget hptr, if_neg hd] at hrun
    rcases h.tables.pfAlloc_cases with ⟨-, hpf⟩ | ⟨f, m, Q, hf, hpf, -, -, heq⟩
    · rw [bind_of_ok hpf, bind_of_ok (setEntry_apply _ _ _), updateEntry_apply,
        EStateM.Result.ok.injEq] at hrun
      rw [← hrun.2] at hnull
      simp at hnull
    · rw [bind_of_ok hpf, bind_of_ok (setEntry_apply _ _ _), updateEntry_apply, load64_store64_self,
        EStateM.Result.ok.injEq] at hrun
      exact h.tables.spared_link htp ht (l1Index_lt _) hf heq (Set.eqOn_refl _ _)
        (congrArg Machine.mem hrun.2.symm)

/-- One page of the loop of `MMU_free_pages`. -/
theorem spared_freePage (vp : Word) (h : VmInv managed limit s live P) (hmem : va ∈ live) (n : Nat)
    (prev : Option Word) : ∃ s₁ prev' Q, freePagesLoop vp (n + 1) va prev s =
        freePagesLoop vp n (va + pageSize) prev' s₁ ∧ Spared managed s s₁ ∧
        VmInv managed limit s₁ (live \ {va}) Q := by
  have hva : IsPage va := (h.pages.range va hmem).1
  rcases h.pages.live_flags va hmem with hfl | hfl
  · obtain ⟨t, ht, hfl'⟩ := leafFlags_eq_some hfl
    have hold : child s.mem t (l1Index va) = none :=
      child_eq_none_iff.mpr (not_present_of_flags (by rw [hfl']; decide))
    have hget : ∃ prev', getLowestPresentPage s.pageTable va prev s =
        .ok (entryPtr t (l1Index va), .l1, prev') s :=
      getLowestPresentPage_of_missing hva.umod_eq_zero hva.l4Index_ne_zero (pathOf_eq va) ht hold
    obtain ⟨prev', hget⟩ := hget
    obtain ⟨hinv, -⟩ := h.freeReserved hva ht hfl'
    exact ⟨_, prev', P, freePagesLoop_reserved hget hfl',
      h.tables.spared_store hva.tablePath_mem ht (l1Index_lt va) _ rfl, hinv⟩
  · obtain ⟨t, f, ht, hf, hfl'⟩ := leafFlags_present hfl
    obtain ⟨m, hfree, hinv, -⟩ := h.freePresent hva ht hf hfl' vp
    have hget : getLowestPresentPage s.pageTable va prev s =
        .ok (f, .physical, some (entryPtr t (l1Index va))) s :=
      getLowestPresentPage_of_mapped hva.umod_eq_zero hva.l4Index_ne_zero ht hf
    refine ⟨_, _, _, freePagesLoop_present hget hfree, ?_, hinv⟩
    have hnode : s.node (pathOf va) = some f := (walk_snoc_of_some ht).trans hf
    have hpool : PoolInv managed limit (s.mem.store64 (entryPtr t (l1Index va))
        (unlinked (s.mem.load64 (entryPtr t (l1Index va))))) (outstanding s.events) P :=
      h.tables.pool.of_eqOn ((store64_eqOn_compl _ _ _).mono (Set.compl_subset_compl.mpr
        ((span_entryPtr_subset (l1Index_lt va)).trans
          (frame_subset_frames (h.tables.node_mem hva.tablePath_mem ht)))))
    obtain ⟨m₁, hfree₁, -, heq⟩ := hpool.free (h.tables.node_mem hva.pathOf_mem hnode)
    rw [hfree, EStateM.Result.ok.injEq] at hfree₁
    obtain ⟨-, rfl⟩ := hfree₁
    intro a ha
    have hpages : f :: P.pages ⊆ managed := List.cons_subset.mpr
      ⟨h.tables.pool.mem_managed.mpr (Or.inr (h.tables.node_mem hva.pathOf_mem hnode)),
        fun q hq => h.tables.pool.mem_managed.mpr (Or.inl (List.mem_append_left _ hq))⟩
    refine (heq fun hm => ha (frames_mono (List.cons_subset_cons 0 hpages) hm)).trans ?_
    exact store64_eqOn_compl _ _ _ fun hm =>
      ha (h.tables.entry_subset hva.tablePath_mem ht (l1Index_lt va) hm)

theorem spared_freePagesLoop (vp : Word) (h : VmInv managed limit s live P)
    (hlive : ∀ k < n, va + BitVec.ofNat 64 (4096 * k) ∈ live) (prev : Option Word)
    (hrun : freePagesLoop vp n va prev s = .ok () s') : Spared managed s s' := by
  induction n generalizing s P live va prev with
  | zero =>
    obtain ⟨-, rfl⟩ := pure_eq_ok.mp hrun
    exact Spared.refl s
  | succ n ih =>
    have hmem : va ∈ live := by simpa using hlive 0 (by omega)
    have hpages : ∀ k < n + 1, IsPage (va + BitVec.ofNat 64 (4096 * k)) :=
      fun k hk => (h.pages.range _ (hlive k hk)).1
    have hlater : ∀ k < n, va + pageSize + BitVec.ofNat 64 (4096 * k) ∈ live \ {va} := by
      intro k hk
      rw [← add_page_succ]
      refine ⟨hlive (k + 1) (by omega), fun he => ?_⟩
      have hn := congrArg BitVec.toNat (Set.mem_singleton_iff.mp he)
      rw [range_toNat hpages (by omega : k + 1 < n + 1)] at hn
      omega
    obtain ⟨s₁, prev', Q, hround, hspare, h₁⟩ := spared_freePage vp h hmem n prev
    exact hspare.trans (ih h₁ hlater prev' (hround.symm.trans hrun))

/-! Runs. -/

theorem VmCall.spared (h : VmInv managed limit s live P) (hal : c.Allowed s live)
    (hrun : c.exec fuel s = .ok () s') (hnull : .pfAlloc 0 ∉ s'.events) : Spared managed s s' := by
  cases c with
  | allocPages num =>
    obtain ⟨p, s₁, hcall, hret⟩ := bind_eq_ok.mp hrun
    obtain ⟨-, rfl⟩ := pure_eq_ok.mp hret
    rw [mmuAllocPages, bind_get] at hcall
    obtain ⟨_, s₁, hloop, hret⟩ := bind_eq_ok.mp hcall
    obtain ⟨-, rfl⟩ := pure_eq_ok.mp hret
    exact spared_allocPagesLoop h hloop hnull
  | freePages vp num =>
    rw [VmCall.exec, mmuFreePages] at hrun
    obtain ⟨_, s₁, hal', hrun⟩ := bind_eq_ok.mp hrun
    obtain ⟨-, rfl⟩ := assert_eq_ok.mp hal'
    obtain ⟨_, s₁, hnum, hrun⟩ := bind_eq_ok.mp hrun
    obtain ⟨-, rfl⟩ := assert_eq_ok.mp hnum
    exact spared_freePagesLoop vp h hal none hrun
  | pageFault addr =>
    have hrun' : pageFaultHandler pfIntNum { s with cr2 := addr } = .ok () s' := hrun
    have hcr2 : VmInv managed limit { s with cr2 := addr } live P := h.of_eq rfl rfl rfl rfl rfl
    have hspare := spared_pageFaultHandler hcr2 hrun' hnull
    exact hspare
  | write a v =>
    obtain ⟨va, hva, f, hn, ha⟩ := hal
    have hwrite : s' = { s with mem := s.mem.storeByte a v } :=
      ((EStateM.Result.ok.injEq _ _ _ _).mp hrun).2.symm
    have hpath := (h.pages.range va hva).1.pathOf_mem
    intro b hb
    have hne : b ≠ a := by
      rintro rfl
      exact hb (h.tables.frame_subset hpath hn ha)
    rw [hwrite]
    exact if_neg hne

theorem PermittedStep.spared {x y : Machine × Set Word} (hstep : PermittedStep x y)
    (h : VmInv managed limit x.1 x.2 P) (hnull : .pfAlloc 0 ∉ y.1.events) :
    Spared managed x.1 y.1 := by
  cases hstep with
  | call c fuel hal hrun =>
    refine VmCall.spared h ?_ hrun hnull
    rcases hal with hal | ⟨vp, num, rfl, hheap⟩
    · exact hal
    · exact h.allowed_of_returned hheap hrun

theorem PermittedRun.spared (hboot : Booted B s0) {x : Machine × Set Word}
    (hrun : PermittedRun (s0, ∅) x) (hnull : .pfAlloc 0 ∉ x.1.events) :
    Spared B.managed s0 x.1 := by
  induction hrun with
  | refl => exact Spared.refl s0
  | tail hbefore hstep ih =>
    have hnull' := fun hm => hnull (hstep.grows.subset hm)
    obtain ⟨limit, P, h⟩ := (PermittedRun.vmRun hboot hbefore hnull').inv_of_booted hboot hnull'
    exact (ih hnull').trans (hstep.spared h hnull)

/-! From the boot loader on. -/

theorem linkBytes_subset (l : List Word) : linkBytes l ⊆ frames l :=
  fun _ ⟨p, hp, ha⟩ => ⟨p, hp, span_mono (by decide) ha⟩

/-- `MMU_init_pf` writes to the head and to the lower pages. -/
theorem mmuInitPf_eqOn {mbTagsPtr size : Word} {info : BootInfo}
    (hinfo : readBootInfo fuel mbTagsPtr m = .ok info m)
    (hlinks : addLowerPages 0 0 (lowerLengthOf m info.lower) (initLlHead 0 m) = .ok () m₁)
    (hinit : mmuInitPf fuel mbTagsPtr m = .ok size m') :
    Set.EqOn m' m (frames (0 :: lowerPages (lowerLengthOf m info.lower)))ᶜ := by
  obtain ⟨-, hhead, -, -⟩ := mmuInitPf_after hinfo hlinks hinit
  obtain ⟨length, -, -, -, -, rfl⟩ := initLlHeadInfo_eq_ok hhead
  obtain ⟨-, -, -, -, hpages⟩ := addLowerPages_spec (roundDownNearestMult_aligned _)
    (initLlHead_ring _) hlinks
  have hzero : frame 0 ⊆ frames (0 :: lowerPages (lowerLengthOf m info.lower)) :=
    frame_subset_frames List.mem_cons_self
  intro a ha
  have hinfo : a ∉ span 16 24 := by
    intro hm
    refine ha (hzero ?_)
    rw [frame, mem_span]
    rw [mem_span] at hm
    bv_omega
  have hlink : a ∉ linkBytes (0 :: lowerPages (lowerLengthOf m info.lower)) :=
    fun hm => ha (linkBytes_subset _ hm)
  have hfirst : a ∉ linkBytes [0] :=
    fun hm => hlink (linkBytes_mono (List.cons_subset_cons 0 (List.nil_subset _)) hm)
  rw [setHeadInfo_eqOn hinfo, hpages hlink, initLlHead_eqOn_links m hfirst]

/-- The head of the pool is below every section. -/
theorem LoaderLaw.head_disjoint {info : BootInfo} (h : LoaderLaw m info)
    (hbase : memInfoBase m info.lower = 0) (hne : memInfoLength m info.upper ≠ 0)
    (hlen : 4096 ≤ (lowerLengthOf m info.lower).toNat) {i : Nat}
    (hi : i < info.elf.elfTag.numSecHeadEnts.toNat) :
    Disjoint (frame 0) (sectionBytes m (info.elf.secHeadEnt i)) := by
  by_cases hs : secHeadSize m (info.elf.secHeadEnt i) = 0
  · rw [sectionBytes, hs, Set.disjoint_right]
    exact fun a ha => absurd ha (Nat.not_lt_zero _)
  · have hdown := lowerLengthOf_le m info.lower
    have hreg := h.lower_le hbase hne
    have habove := h.above i hi hs
    have hz : (0 : Word).toNat = 0 := rfl
    exact span_disjoint (by omega) (Nat.le_of_lt (h.noWrap i hi))

/-- From `MMU_init_pf` on, through every run of both allocators with page faults and writes to
allocated pages, memory outside the pool stays as the boot loader left it. Where the range above
the last section is clear, so does every section of the kernel. -/
theorem loaded_kernel_kept {mbTagsPtr size : Word} {info : BootInfo}
    (hinfo : readBootInfo fuel mbTagsPtr m = .ok info m)
    (hlinks : addLowerPages 0 0 (lowerLengthOf m info.lower) (initLlHead 0 m) = .ok () m₁)
    (hinit : mmuInitPf fuel mbTagsPtr m = .ok size m') (hlaw : LoaderLaw m info)
    (hclear : RangeClear m m₁ info) (hvp : mmuInitVp (startMachine m') = .ok () s0)
    (hrun : PermittedRun (s0, ∅) (s, live)) (hnull : .pfAlloc 0 ∉ s.events) :
    Set.EqOn s.mem m
      (frames (0 :: (lowerPages (lowerLengthOf m info.lower) ++ upperRange m')))ᶜ ∧
    ∀ i < info.elf.elfTag.numSecHeadEnts.toNat,
      Set.EqOn s.mem m (sectionBytes m (info.elf.secHeadEnt i)) := by
  obtain ⟨hlower, hhead, hpool, -⟩ := mmuInitPf_after hinfo hlinks hinit
  have hlen := addLowerPages_length hlinks
  obtain ⟨B, rfl, hmanaged⟩ := hclear.bootPool hlower hlinks hhead hpool
  have hboot : Booted B s0 := ⟨startMachine B.mem, rfl, rfl, hvp⟩
  have hspare := PermittedRun.spared hboot hrun hnull
  rw [hmanaged] at hspare
  have hstart := hboot.eqOn
  rw [hmanaged] at hstart
  have hlow : frames (0 :: lowerPages (lowerLengthOf m info.lower)) ⊆
      frames (0 :: (lowerPages (lowerLengthOf m info.lower) ++ upperRange B.mem)) :=
    frames_mono (List.cons_subset_cons 0 (List.subset_append_left _ _))
  have hall := (Set.EqOn.trans hspare hstart).trans
    ((mmuInitPf_eqOn hinfo hlinks hinit).mono (Set.compl_subset_compl.mpr hlow))
  refine ⟨hall, fun i hi => hall.mono ?_⟩
  rintro a ha ⟨p, hp, hap⟩
  rcases List.mem_cons.mp hp with rfl | hp
  · exact Set.disjoint_left.mp (hlaw.head_disjoint (usableLower_base hlower) hclear.upper_ne hlen
      hi) hap ha
  · rcases List.mem_append.mp hp with hp | hp
    · exact Set.disjoint_left.mp (hlaw.lower_disjoint (usableLower_base hlower) hclear.upper_ne hlen
        hp hi) hap ha
    · exact Set.disjoint_left.mp (hclear.upper_disjoint hhead hp hi) hap ha

/-- The kernel of three sections with eight lower pages. -/
def roomyTable : Mem := (tableBefore 0x100800).store64 0x9020 0x9000

def roomyLinked : Mem :=
  final (addLowerPages 0 0 (lowerLengthOf roomyTable tableInfo.lower) (initLlHead 0 roomyTable))

def roomyLoaded : Machine :=
  final (mmuInitVp (startMachine (final (mmuInitPf 4 0x9000 roomyTable))))

theorem roomyTable_law : LoaderLaw roomyTable tableInfo := by
  have hlower : memInfoBase roomyTable 0x9018 = 0 ∧ memInfoLength roomyTable 0x9018 = 0x9000 := by
    decide +kernel
  have hupper : memInfoBase roomyTable 0x9030 = 0x100000 ∧
      memInfoLength roomyTable 0x9030 = 0x4000 := by decide +kernel
  refine ⟨by decide +kernel, by decide +kernel, ?_⟩
  rw [tableInfo, regionBytes, regionBytes, hlower.1, hlower.2, hupper.1, hupper.2]
  exact span_disjoint (by decide) (by decide)

theorem roomyTable_clear : RangeClear roomyTable roomyLinked tableInfo := by
  have hstart : upperStart roomyLinked tableInfo.elf = 0x102000 := by decide +kernel
  have hend : upperEnd roomyLinked tableInfo.upper = 0x104000 := by decide +kernel
  have hends : ∀ i < 4, (secHeadAddr roomyTable (tableInfo.elf.secHeadEnt i)).toNat +
      (secHeadSize roomyTable (tableInfo.elf.secHeadEnt i)).toNat ≤ 0x102000 := by
    decide +kernel
  refine ⟨by decide +kernel, ?_, ?_, fun i hi => ?_⟩
  · rw [hstart]
    decide +kernel
  · rw [hstart, hend]
    decide
  · rw [hstart, hend]
    exact (span_disjoint (hends i hi) (by decide)).symm

theorem loaded_kernel_kept_roomy :
    Set.EqOn (afterCall (.allocPages 1) roomyLoaded).mem roomyTable
      (sectionBytes roomyTable (tableInfo.elf.secHeadEnt 2)) := by
  have hrun : PermittedRun (roomyLoaded, ∅)
      (afterCall (.allocPages 1) roomyLoaded, ∅ ∪ pageRange roomyLoaded.kernHeapTop 1) :=
    .single (.call (.allocPages 1) 3 (Or.inl trivial) (eq_ok_of_returned (by decide +kernel)))
  exact (loaded_kernel_kept (readBootInfo_of_returned (by decide +kernel))
    (eq_ok_of_returned (by decide +kernel))
    (eq_ok_of_returned (a := 0x104000) (by decide +kernel))
    roomyTable_law roomyTable_clear (eq_ok_of_returned (by decide +kernel)) hrun
    (by decide +kernel)).2 2 (by decide)

end SkipOS
