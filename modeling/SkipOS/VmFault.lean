import SkipOS.VmAlloc

/-! The page fault handler: it gives a frame to a reserved page and halts on any other. -/

namespace SkipOS

open Mem Exec Walk

variable {managed : List Word} {limit t f i va : Word} {s s' : Machine} {P Q : Pool} {m : Mem}
  {live : Set Word}

/-- The state after the handler has mapped the page whose L1 entry is at `ptr`. -/
def faulted (s : Machine) (m : Mem) (f ptr : Word) : Machine :=
  { s with
    mem := linkedMem m f ptr
    events := .setEntry ptr (f ||| (writeableMask ||| presentMask)) :: .setEntry ptr f ::
      .pfAlloc f :: s.events }

theorem PagesInv.present (h : PagesInv s live) (htop : s'.kernHeapTop = s.kernHeapTop)
    (hva : va ∈ live) (hself : s'.leafFlags va = some 3) (hother : PagesKept {va} s s') :
    PagesInv s' live := by
  refine ⟨?_, ?_, ?_, ?_, ?_, ?_⟩
  · rw [htop]
    exact h.top_aligned
  · rw [htop]
    exact h.base_le
  · rw [htop]
    exact h.top_le
  · rw [htop]
    exact h.range
  · intro vb hm
    by_cases he : vb = va
    · exact Or.inr (he ▸ hself)
    · exact (hother vb (h.range vb hm).1 he).live_flags (h.live_flags vb hm)
  · intro vb hp hm
    have he : vb ≠ va := fun he => hm (he ▸ hva)
    exact (hother vb hp he).dead_flags (h.dead_flags vb hp hm)

theorem VmInv.linkPage (h : VmInv managed limit s live P) (hva : IsPage va) (hl : va ∈ live)
    (ht : s.node (tablePath va) = some t) (hi : child s.mem t (l1Index va) = none)
    (hf : f ∈ P.free) (hpool : PoolInv managed limit m (f :: outstanding s.events) Q)
    (hne : Q.pages ≠ []) (heq : Set.EqOn m s.mem (frames (0 :: P.free))ᶜ) :
    VmInv managed limit (faulted s m f (entryPtr t (l1Index va))) live Q ∧
      Safely s (faulted s m f (entryPtr t (l1Index va))) ∧
      (faulted s m f (entryPtr t (l1Index va))).node (pathOf va) = some f ∧
      (faulted s m f (entryPtr t (l1Index va))).leafFlags va = some 3 ∧
      PagesKept {va} s (faulted s m f (entryPtr t (l1Index va))) := by
  set s' := faulted s m f (entryPtr t (l1Index va)) with hs'
  have hx : tablePath va ++ [l1Index va] ∈ Paths := hva.pathOf_mem
  have hfa := h.tables.pool.wf.aligned f hf
  have hf0 := h.tables.pool.free_page_ne_zero hf
  obtain ⟨htab, hk, hnode, hother, hcontents⟩ := h.tables.linkFrame s' hx ht hi hf hpool hne heq
    (fun a _ => rfl) rfl (if_neg hf0) rfl rfl
    fun j hj => absurd hj (not_mem_paths_of_length (by simp [tablePath]))
  have hpath : tablePath va ≠ tablePath va ++ [l1Index va] := by
    intro he
    have := congrArg List.length he
    simp [tablePath] at this
  have hself : s'.leafFlags va = some 3 := by
    rw [leafFlags_of_node ((hother _ hva.tablePath_mem hpath).trans ht), hs', faulted,
      linkedMem_load_self, flags_linked hfa]
  have hkept : PagesKept {va} s s' :=
    PagesKept.of_leaf hk hva hother fun vb n hvb _ hn => hcontents vb n hvb hn
  refine ⟨⟨htab, h.pages.present rfl hl hself hkept⟩, ?_, hnode, hself, hkept⟩
  · refine ⟨[_, _, _], rfl, fun e he => ?_⟩
    refine safe_link (h.tables.node_aligned hva.tablePath_mem ht)
      (h.tables.node_ne_zero hva.tablePath_mem ht) (l1Index_lt va) hfa hf0 e ?_
    simp only [List.mem_cons, List.not_mem_nil, or_false] at he ⊢
    rcases he with rfl | rfl | rfl <;> simp

/-- The page with the same indices below `2 ^ 48`. -/
def canonical (va : Word) : Word := BitVec.ofNat 64 (va.toNat % 2 ^ 48)

theorem index_canonical (va : Word) {k : Nat} (hk : k = 39 ∨ k = 30 ∨ k = 21 ∨ k = 12) :
    (canonical va >>> k) &&& 0x1FF = (va >>> k) &&& 0x1FF := by
  have hn : (canonical va).toNat = va.toNat % 2 ^ 48 := by
    rw [canonical, BitVec.toNat_ofNat]
    omega
  apply BitVec.eq_of_toNat_eq
  rw [index_toNat, index_toNat, hn]
  rcases hk with rfl | rfl | rfl | rfl <;> omega

theorem tablePath_canonical (va : Word) : tablePath (canonical va) = tablePath va := by
  simp only [tablePath, index_canonical va (Or.inl rfl), index_canonical va (Or.inr (Or.inl rfl)),
    index_canonical va (Or.inr (Or.inr (Or.inl rfl)))]

theorem l1Index_canonical (va : Word) : l1Index (canonical va) = l1Index va :=
  index_canonical va (Or.inr (Or.inr (Or.inr rfl)))

theorem leafFlags_canonical (s : Machine) (va : Word) :
    s.leafFlags (canonical va) = s.leafFlags va := by
  rw [Machine.leafFlags, Machine.leafFlags, tablePath_canonical, l1Index_canonical]

theorem isPage_canonical (ha : va.toNat % 4096 = 0) (h0 : (va >>> 39) &&& 0x1FF ≠ 0) :
    IsPage (canonical va) := by
  have hn : (canonical va).toNat = va.toNat % 2 ^ 48 := by
    rw [canonical, BitVec.toNat_ofNat]
    omega
  rw [Ne, l4Index_eq_zero] at h0
  exact ⟨by omega, by omega, by omega⟩

/-- The page of the faulting address. -/
def faultPage (s : Machine) : Word := s.cr2 - s.cr2 % pageSize

theorem faultPage_umod (s : Machine) : faultPage s % pageSize = 0 :=
  umod_pageSize_eq_zero.mpr (roundDownNearestMult_aligned s.cr2)

theorem pathOf_canonical (va : Word) : pathOf (canonical va) = pathOf va := by
  rw [pathOf_eq, pathOf_eq, tablePath_canonical, l1Index_canonical]

theorem entryPtr_ne_zero (ha : Aligned t) (h0 : t ≠ 0) (hi : i < 512) : entryPtr t i ≠ 0 := by
  rw [Aligned] at ha
  have hn : t.toNat ≠ 0 := fun he => h0 (BitVec.eq_of_toNat_eq he)
  rw [entryPtr]
  bv_omega

/-- The handler after the walk. -/
theorem pageFaultHandler_of_get {ptr : Word} {level : PtLevel} {prev : Option Word}
    (hget : getLowestPresentPage ⟨s.cr3⟩ (faultPage s) none s = .ok (ptr, level, prev) s)
    (hptr : ptr ≠ 0) : pageFaultHandler pfIntNum s =
      if s.mem.load64 ptr &&& demandMask = 0 ∨ level ≠ .l1 then .error .halt s
      else (pfAlloc >>= fun newPage => setEntry ptr newPage >>= fun _ =>
        updateEntry ptr (· ||| (writeableMask ||| presentMask))) s := by
  rw [pageFaultHandler, bind_assert_of rfl, bind_get]
  dsimp only
  rw [show s.cr2 - s.cr2 % pageSize = faultPage s from rfl, bind_of_ok hget]
  dsimp only
  rw [bind_assert_of hptr]
  split <;> rfl

/-- On an identity mapped address the handler changes nothing either. -/
theorem pageFaultHandler_identity (h0 : (faultPage s >>> 39) &&& 0x1FF = 0) :
    ∃ e, pageFaultHandler pfIntNum s = .error e s := by
  have hget : getLowestPresentPage ⟨s.cr3⟩ (faultPage s) none s =
      .ok (faultPage s, .physical, none) s :=
    getLowestPresentPage_of_identity (faultPage_umod s) h0
  by_cases hptr : faultPage s = 0
  · refine ⟨.assert, ?_⟩
    rw [pageFaultHandler, bind_assert_of rfl, bind_get]
    dsimp only
    rw [show s.cr2 - s.cr2 % pageSize = faultPage s from rfl, bind_of_ok hget]
    exact bind_assert_not (not_not.mpr hptr) _ _
  · exact ⟨.halt, by rw [pageFaultHandler_of_get hget hptr, if_pos (Or.inr (by decide))]⟩

theorem pageFaultHandler_halts (h : VmInv managed limit s live P)
    (h0 : (faultPage s >>> 39) &&& 0x1FF ≠ 0) (hfl : s.leafFlags (faultPage s) ≠ some 0x200) :
    pageFaultHandler pfIntNum s = .error .halt s := by
  have hpage := isPage_canonical (umod_pageSize_eq_zero.mp (faultPage_umod s)) h0
  rcases walk_cases (child s.mem) s.pageTable.l4Table (pathOf (faultPage s)) with
    ⟨f, hf⟩ | ⟨q, i, rest, t, hp, hq, hi⟩
  · have hf0 : f ≠ 0 := h.tables.node_ne_zero hpage.pathOf_mem ((pathOf_canonical _).symm ▸ hf)
    rw [pathOf_eq] at hf
    obtain ⟨t, ht⟩ := walk_prefix_isSome hf
    have hget : getLowestPresentPage ⟨s.cr3⟩ (faultPage s) none s =
        .ok (f, .physical, some (entryPtr t (l1Index (faultPage s)))) s := by
      refine getLowestPresentPage_of_mapped (faultPage_umod s) h0 ?_ ?_
      · rw [h.tables.cr3]
        exact ht
      · exact (walk_snoc_of_some ht).symm.trans hf
    rw [pageFaultHandler_of_get hget hf0, if_pos (Or.inr (by decide))]
  · have hget : ∃ prev, getLowestPresentPage ⟨s.cr3⟩ (faultPage s) none s =
        .ok (entryPtr t i, levelOf (rest.length + 1), prev) s :=
      getLowestPresentPage_of_missing (faultPage_umod s) h0 hp (by rwa [h.tables.cr3]) hi
    obtain ⟨prev, hget⟩ := hget
    have hx : q ++ i :: rest ∈ Paths := by
      rw [← hp, ← pathOf_canonical]
      exact hpage.pathOf_mem
    have hqp : q ∈ Paths := prefixClosed_paths q (i :: rest) hx
    have hi512 : i < 512 := hx.2.1 i (by simp)
    rw [pageFaultHandler_of_get hget (entryPtr_ne_zero (h.tables.node_aligned hqp hq)
      (h.tables.node_ne_zero hqp hq) hi512), if_pos]
    by_contra hd
    rw [not_or, not_not] at hd
    -- an L1 entry with the demand mark belongs to a page that is reserved or present
    obtain rfl := eq_nil_of_levelOf hd.2
    rw [pathOf_eq] at hp
    obtain ⟨rfl, hi'⟩ := List.append_inj' hp rfl
    obtain rfl : l1Index (faultPage s) = i := by simpa using hi'
    have hleaf := leafFlags_of_node hq
    rw [← leafFlags_canonical] at hleaf hfl
    by_cases hm : canonical (faultPage s) ∈ live
    · rcases h.pages.live_flags _ hm with hh | hh
      · exact hfl hh
      · obtain ⟨t', f, ht', hf, -⟩ := leafFlags_present hh
        rw [tablePath_canonical] at ht'
        rw [l1Index_canonical] at hf
        obtain rfl : t = t' := Option.some.inj (hq.symm.trans ht')
        simp [hi] at hf
    · rcases h.pages.dead_flags _ hpage hm with hh | hh
      · simp [hleaf] at hh
      · rw [hleaf, Option.some.injEq] at hh
        exact hd.1 (by rw [demand_eq_flags, hh]; decide)

/-- The frame `f` has been given to the page. -/
structure FaultedIn (managed : List Word) (limit : Word) (live : Set Word) (P : Pool)
    (page f : Word) (s s' : Machine) : Prop where
  inv : ∃ Q, VmInv managed limit s' live Q
  safely : Safely s s'
  top : s'.kernHeapTop = s.kernHeapTop
  free : f ∈ P.free
  node : s'.node (pathOf page) = some f
  flags : s'.leafFlags page = some 3
  kept : PagesKept {page} s s'

theorem pageFaultHandler_reserved (h : VmInv managed limit s live P)
    (h0 : (faultPage s >>> 39) &&& 0x1FF ≠ 0) (hfl : s.leafFlags (faultPage s) = some 0x200)
    {r : EStateM.Result Stop Machine Unit} (hr : pageFaultHandler pfIntNum s = r) :
    (P.free.length = 1 ∧ GotNull s (final r)) ∨
      (r = .ok () (final r) ∧
        ∃ f, FaultedIn managed limit live P (canonical (faultPage s)) f s (final r)) := by
  have hpage := isPage_canonical (umod_pageSize_eq_zero.mp (faultPage_umod s)) h0
  obtain ⟨t, ht, hflags⟩ := leafFlags_eq_some hfl
  have hi : child s.mem t (l1Index (faultPage s)) = none :=
    child_eq_none_iff.mpr (not_present_of_flags (by rw [hflags]; decide))
  have hget : ∃ prev, getLowestPresentPage ⟨s.cr3⟩ (faultPage s) none s =
      .ok (entryPtr t (l1Index (faultPage s)), .l1, prev) s :=
    getLowestPresentPage_of_missing (faultPage_umod s) h0 (pathOf_eq _)
      (by rw [h.tables.cr3]; exact ht) hi
  obtain ⟨prev, hget⟩ := hget
  rw [← leafFlags_canonical] at hfl
  rw [← tablePath_canonical] at ht
  rw [← l1Index_canonical] at hi hget hflags
  generalize canonical (faultPage s) = va at *
  have hlive : va ∈ live := by
    by_contra hm
    rcases h.pages.dead_flags va hpage hm with hh | hh <;> simp [hfl] at hh
  have hd : ¬ (s.mem.load64 (entryPtr t (l1Index va)) &&& demandMask = 0 ∨
      PtLevel.l1 ≠ PtLevel.l1) := by
    rw [demand_eq_flags, hflags]
    decide
  have hptr := entryPtr_ne_zero (h.tables.node_aligned hpage.tablePath_mem ht)
    (h.tables.node_ne_zero hpage.tablePath_mem ht) (l1Index_lt va)
  rw [pageFaultHandler_of_get hget hptr, if_neg hd] at hr
  rcases h.tables.pfAlloc_cases with ⟨hone, hrun⟩ | ⟨f, m, Q, hf, hrun, hpool, hne, heq⟩
  · left
    refine ⟨hone, ?_⟩
    rw [bind_of_ok hrun] at hr
    have hg : GotNull s { s with events := .pfAlloc 0 :: s.events } :=
      ⟨[.pfAlloc 0], rfl, by simp⟩
    rw [← hr]
    exact hg.grows (grows_of_quiet (quiet_bind (quiet_setEntry _ _)
      fun _ => quiet_updateEntry _ _) _)
  · right
    obtain ⟨hinv, hsafe, hnode, hself, hkept⟩ := h.linkPage hpage hlive ht hi hf hpool hne heq
    rw [bind_of_ok hrun, bind_of_ok (setEntry_apply _ _ _), updateEntry_apply,
      load64_store64_self] at hr
    subst hr
    exact ⟨rfl, f, ⟨Q, hinv⟩, hsafe, rfl, hf, hnode, hself, hkept⟩

/-- The handler stops without a change, or the page was reserved and a frame is wanted. -/
theorem pageFaultHandler_spec (h : VmInv managed limit s live P)
    {r : EStateM.Result Stop Machine Unit} (hr : pageFaultHandler pfIntNum s = r) :
    (∃ e, r = .error e s) ∨
      (s.leafFlags (faultPage s) = some 0x200 ∧
        ((P.free.length = 1 ∧ GotNull s (final r)) ∨
          (r = .ok () (final r) ∧
            ∃ f, FaultedIn managed limit live P (canonical (faultPage s)) f s (final r)))) := by
  by_cases h0 : (faultPage s >>> 39) &&& 0x1FF = 0
  · obtain ⟨e, he⟩ := pageFaultHandler_identity h0
    exact Or.inl ⟨e, hr.symm.trans he⟩
  · by_cases hfl : s.leafFlags (faultPage s) = some 0x200
    · exact Or.inr ⟨hfl, pageFaultHandler_reserved h h0 hfl hr⟩
    · exact Or.inl ⟨.halt, hr.symm.trans (pageFaultHandler_halts h h0 hfl)⟩

end SkipOS
