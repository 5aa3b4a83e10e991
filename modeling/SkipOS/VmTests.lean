import SkipOS.PageLife

/-! The kernel's own exercises of the virtual page allocator, from every state that it can be in. -/

namespace SkipOS

open Mem Exec Walk

/-- `virt_test` of `vp_alloc.c` -/
def virtTest (fuel : Nat) : Exec Machine Unit := do
  let test ← mmuAllocPages fuel 2
  storeByteAt test 0xAA
  mmuFreePages test 2

/-- `kmalloc_test`. It uses its page after it has given it back; what is read would be printed. -/
def kmallocTest (fuel : Nat) : Exec Machine (BitVec 32) := do
  let test ← mmuAllocPage fuel
  mmuFreePage test
  let p ← touch test
  let s ← get
  return s.mem.load32 p

/-- The frames that are in use now and were not before are page tables. -/
def OnlyTables (s s' : Machine) : Prop :=
  ∀ f ∈ outstanding s'.events, f ∈ outstanding s.events ∨
    ∃ p ∈ Paths, p.length < 4 ∧ s'.node p = some f

variable {managed : List Word} {limit va f num : Word} {s s' t u s0 : Machine} {P Q : Pool}
  {live : Set Word} {B : BootPool} {fuel : Nat} {p : List Word} {X : Set Word}

/-- The page at the end of a path. -/
theorem exists_page_of_path (hp : p ∈ Paths) (hlen : p.length = 4) :
    ∃ va, IsPage va ∧ pathOf va = p := by
  obtain ⟨-, hlt, hhead⟩ := hp
  match p, hlen with
  | [i, j, k, l], _ =>
    have hi : i < 512 := hlt i (by simp)
    have hj : j < 512 := hlt j (by simp)
    have hk : k < 512 := hlt k (by simp)
    have hl : l < 512 := hlt l (by simp)
    have h0 : i ≠ 0 := by
      rintro rfl
      simp at hhead
    have hn : i.toNat * 2 ^ 39 + j.toNat * 2 ^ 30 + k.toNat * 2 ^ 21 + l.toNat * 2 ^ 12 < 2 ^ 48 := by
      bv_omega
    obtain ⟨va, hva⟩ : ∃ va : Word, va.toNat =
        i.toNat * 2 ^ 39 + j.toNat * 2 ^ 30 + k.toNat * 2 ^ 21 + l.toNat * 2 ^ 12 :=
      ⟨BitVec.ofNat 64 _, toNat_ofNat_of_lt (by omega)⟩
    refine ⟨va, ⟨?_, ?_, ?_⟩, ?_⟩
    · omega
    · bv_omega
    · omega
    · simp only [pathOf, List.cons.injEq, and_true]
      refine ⟨?_, ?_, ?_, ?_⟩ <;> apply BitVec.eq_of_toNat_eq <;> rw [index_toNat, hva] <;> bv_omega

/-- Pages that were not allocated before and are not now look the same. -/
theorem PagesKept.sameStatus_of_dead (hk : PagesKept X s s') (h : VmInv managed limit s live P)
    (h' : VmInv managed limit s' live Q) (hX : ∀ va ∈ X, IsPage va ∧ va ∉ live) :
    SameStatus ∅ s s' := by
  intro va _ hal _
  by_cases hm : canonical va ∈ X
  · obtain ⟨hpage, hdead⟩ := hX _ hm
    rw [← pageStatus_canonical s', ← pageStatus_canonical s, h.pages.pageStatus_of_dead hpage hdead,
      h'.pages.pageStatus_of_dead hpage hdead]
  · exact hk.pageStatus_eq h.tables h'.tables hal hm

theorem PagesKept.onlyTables_of_dead (hk : PagesKept X s s') (h : VmInv managed limit s live P)
    (h' : VmInv managed limit s' live Q) (hX : ∀ va ∈ X, IsPage va ∧ va ∉ live) :
    OnlyTables s s' := by
  intro f hf
  obtain ⟨p, hp, hn⟩ := (h'.tables.owns.mem_iff f).mp hf
  by_cases hlen : p.length < 4
  · exact Or.inr ⟨p, hp, hlen, hn⟩
  · obtain ⟨va, hva, rfl⟩ := exists_page_of_path hp (by have := hp.1; omega)
    have hm : va ∈ live := by
      by_contra hm
      have hnone := h'.pages.node_eq_none hva hm
      exact absurd (hn.symm.trans hnone) (Option.some_ne_none f)
    have hkept := hk va hva fun hx => (hX va hx).2 hm
    exact Or.inl (h.tables.node_mem hva.pathOf_mem (hkept.node.symm.trans hn))

/-- New pages: where they lie, and that they are gone from the set once they are given back. -/
theorem VmInv.allocated (h : VmInv managed limit s live P) (hfuel : 3 ≤ fuel) (num : Word)
    (hheap : s.kernHeapTop.toNat + 4096 * num.toNat ≤ 2 ^ 47)
    (hnull : .pfAlloc 0 ∉ (final (mmuAllocPages fuel num s)).events) :
    ∃ s' Q, mmuAllocPages fuel num s = .ok s.kernHeapTop s' ∧
      VmInv managed limit s' (live ∪ pageRange s.kernHeapTop num.toNat) Q ∧ Grown num.toNat s s' ∧
      (∀ va ∈ pageRange s.kernHeapTop num.toNat, IsPage va ∧ va ∉ live) ∧
      (live ∪ pageRange s.kernHeapTop num.toNat) \ pageRange s.kernHeapTop num.toNat = live := by
  rcases mmuAllocPages_spec fuel h rfl with
    ⟨hgot, -⟩ | ⟨live', Q, hinv, -, ⟨hok, rfl, hgrown⟩ | ⟨e, -, hwhy⟩⟩
  · exact absurd hgot.mem_events hnull
  · have hdead : ∀ va ∈ pageRange s.kernHeapTop num.toNat, IsPage va ∧ va ∉ live := by
      intro va hva
      refine ⟨(hinv.pages.range va (Or.inr hva)).1, fun hm => ?_⟩
      have hlt := (h.pages.range va hm).2
      have hge := (pageRange_toNat (by omega) hva).1
      omega
    refine ⟨_, Q, hok, hinv, hgrown, hdead, ?_⟩
    have hdis : Disjoint live (pageRange s.kernHeapTop num.toNat) :=
      Set.disjoint_right.mpr fun va hva => (hdead va hva).2
    rw [Set.union_sdiff_right, hdis.sdiff_eq_left]
  · omega

theorem grows_after {α β : Type} {x : Exec Machine α} {f : α → Exec Machine β}
    (hf : ∀ a, Moves Grows (f a)) (s : Machine) : Grows (final (x s)) (final ((x >>= f) s)) := by
  rw [bind_apply]
  cases x s with
  | ok a t => exact hf a t
  | error e t => exact Grows.refl t

theorem pageRange_mem_union (base : Word) (live : Set Word) :
    ∀ k < num.toNat, base + BitVec.ofNat 64 (4096 * k) ∈ live ∪ pageRange base num.toNat :=
  fun k hk => Or.inr ⟨k, hk, rfl⟩

/-- `kmalloc_test` never gets to its `printk`: in every reachable state the page it has just given
back faults and the handler halts. Nothing but page tables is left allocated. -/
theorem kmalloc_test_halts (hboot : Booted B s0) (hrun : PermittedRun (s0, ∅) (s, live))
    (hfuel : 3 ≤ fuel) (hheap : s.kernHeapTop.toNat + 4096 ≤ 2 ^ 47)
    (hnull : .pfAlloc 0 ∉ (final (kmallocTest fuel s)).events) :
    ∃ s', kmallocTest fuel s = .error .halt s' ∧ s'.cr2 = s.kernHeapTop ∧ SameStatus ∅ s s' ∧
      OnlyTables s s' := by
  have hheap' : s.kernHeapTop.toNat + 4096 * (1 : Word).toNat ≤ 2 ^ 47 := hheap
  have hrest : ∀ test, Moves Grows (mmuFreePage test >>= fun _ => touch test >>= fun p =>
      get >>= fun s : Machine => pure (s.mem.load32 p)) := by
    intro test
    refine grows_bind ((shoots_mmuFreePages test 1).mono fun _ _ h => h.grows) fun _ => ?_
    refine grows_bind (grows_touch test) fun p => ?_
    exact grows_bind (Moves.get Grows.refl) fun s => Moves.pure Grows.refl _
  have hafter : Grows (final (mmuAllocPages fuel 1 s)) (final (kmallocTest fuel s)) :=
    grows_after hrest s
  have hstart : Grows s (final (kmallocTest fuel s)) := (grows_mmuAllocPages fuel 1 s).trans hafter
  obtain ⟨limit, P, h⟩ := PermittedRun.inv hboot hrun fun hm => hnull (hstart.subset hm)
  obtain ⟨s1, Q, halloc, h1, hgrown, hdead, hlive⟩ := h.allocated hfuel 1
    hheap' fun hm => hnull (hafter.subset hm)
  obtain ⟨s2, hfree, hfreed⟩ := mmuFreePages_spec h1 (by decide : (0 : Word) < 1)
    (pageRange_mem_union s.kernHeapTop live)
  have h2 := hfreed.inv
  rw [hlive] at h2
  obtain ⟨hpage, hout⟩ := hdead s.kernHeapTop (mem_pageRange_self (by decide))
  have hself := hpage.pageBase_self
  have hfault := h2.fault_halts hpage hout hself
  have hcr2 : VmInv B.managed limit { s2 with cr2 := s.kernHeapTop } live _ :=
    h2.of_eq rfl rfl rfl rfl rfl
  have hkept : PagesKept (pageRange s.kernHeapTop (1 : Word).toNat) s s2 :=
    (hgrown.kept.trans hfreed.pages).mono (Set.union_subset subset_rfl subset_rfl)
  have hkept' : PagesKept (pageRange s.kernHeapTop (1 : Word).toNat) s
      { s2 with cr2 := s.kernHeapTop } := by
    intro va hva hm
    obtain ⟨hn, hfl, hc⟩ := hkept va hva hm
    exact ⟨hn, hfl, hc⟩
  refine ⟨{ s2 with cr2 := s.kernHeapTop }, ?_, rfl, hkept'.sameStatus_of_dead h hcr2 hdead,
    hkept'.onlyTables_of_dead h hcr2 hdead⟩
  have htouch : touch s.kernHeapTop s2 = .error .halt { s2 with cr2 := s.kernHeapTop } := by
    rw [touch_of_missing (hself.symm ▸ hpage) (h2.pages.node_eq_none hpage hout)]
    exact bind_of_error hfault _
  rw [kmallocTest, mmuAllocPage, bind_of_ok halloc, mmuFreePage, bind_of_ok hfree]
  exact bind_of_error htouch _

theorem kmalloc_test_halts_roomy : ∃ s', kmallocTest 3 roomyTouched = .error .halt s' ∧
    SameStatus ∅ roomyTouched s' := by
  have hstate : roomyTouched.kernHeapTop.toNat + 4096 ≤ 2 ^ 47 ∧
      .pfAlloc 0 ∉ (final (kmallocTest 3 roomyTouched)).events := by
    decide +kernel
  obtain ⟨s', hrun, -, hsame, -⟩ := kmalloc_test_halts roomyBoot_booted roomyTouched_run.permitted
    (Nat.le_refl 3) hstate.1 hstate.2
  exact ⟨s', hrun, hsame⟩

/-- A reserved page gets its frame at the first access. -/
theorem VmInv.touch_reserved {a : Word} (h : VmInv managed limit s live P)
    (hp : IsPage (pageBase a)) (hfl : s.leafFlags (pageBase a) = some 0x200)
    (hnull : .pfAlloc 0 ∉ (final (touch a s)).events) :
    ∃ f u, touch a s = .ok (f + a % pageSize) u ∧ Touched managed limit live a f s u := by
  have hcr2 : VmInv managed limit { s with cr2 := a } live P := h.of_eq rfl rfl rfl rfl rfl
  have hmissing : s.node (pathOf a) = none := by
    rw [← pathOf_pageBase]
    exact node_eq_none_of_reserved hfl
  have hrun := touch_of_missing hp hmissing
  rcases pageFaultHandler_reserved hcr2 hp.l4Index_ne_zero hfl rfl with ⟨-, hgot⟩ | ⟨hok, f, hin⟩
  · rw [hrun] at hnull
    refine absurd ((grows_after (fun _ => ?_) _).subset hgot.mem_events) hnull
    exact grows_bind (Moves.get Grows.refl) fun u => grows_of_quiet (quiet_deref _)
  · have ht := FaultedIn.touched hp hmissing hin
    refine ⟨f, _, ?_, ht⟩
    rw [hrun, bind_of_ok hok, bind_get]
    simp only [Machine.physical, if_neg (l4Index_ne_zero_of_pageBase hp), ht.node, Option.map_some]
    rfl

theorem VmInv.storeByteAt_reserved {a : Word} {v : Byte} (h : VmInv managed limit s live P)
    (hp : IsPage (pageBase a)) (hfl : s.leafFlags (pageBase a) = some 0x200)
    (hnull : .pfAlloc 0 ∉ (final (storeByteAt a v s)).events) :
    ∃ f s' Q, storeByteAt a v s = .ok () s' ∧ VmInv managed limit s' live Q ∧
      s'.kernHeapTop = s.kernHeapTop ∧ PagesKept {pageBase a} s s' ∧
      s'.node (pathOf a) = some f := by
  have hafter : Grows (final (touch a s)) (final (storeByteAt a v s)) :=
    grows_after (f := fun p => modify fun s : Machine => { s with mem := s.mem.storeByte p v })
      (fun _ => Moves.modify fun _ => List.suffix_rfl) s
  obtain ⟨f, u, htouch, ht⟩ := h.touch_reserved hp hfl fun hm => hnull (hafter.subset hm)
  obtain ⟨Q, hQ⟩ := ht.inv
  have hnode : u.node (pathOf (pageBase a)) = some f := by
    rw [pathOf_pageBase]
    exact ht.node
  have heq := storeByte_eqOn_frame (offset_mem_frame f a) v u.mem
  obtain ⟨h', hnodes, -⟩ := hQ.writeFrame hp hnode heq
  refine ⟨f, _, Q, bind_of_ok htouch _, h', ht.top, ?_, ?_⟩
  · have hall := ht.kept.trans (hQ.writeFrame_kept hp hnode heq)
    rwa [Set.union_self] at hall
  · have hlast := hnodes _ hp.pathOf_mem
    rw [pathOf_pageBase] at hlast
    exact hlast.trans ht.node

/-- `virt_test` returns in every reachable state. Its pages are as before, the translation of the
one it wrote to is out of the TLB, and nothing but page tables is left allocated. -/
theorem virt_test_returns (hboot : Booted B s0) (hrun : PermittedRun (s0, ∅) (s, live))
    (hfuel : 3 ≤ fuel) (hheap : s.kernHeapTop.toNat + 8192 ≤ 2 ^ 47)
    (hnull : .pfAlloc 0 ∉ (final (virtTest fuel s)).events) :
    ∃ s', virtTest fuel s = .ok () s' ∧
      s'.kernHeapTop.toNat = s.kernHeapTop.toNat + 8192 ∧ s'.tlb s.kernHeapTop = none ∧
      SameStatus ∅ s s' ∧ OnlyTables s s' := by
  have hheap' : s.kernHeapTop.toNat + 4096 * (2 : Word).toNat ≤ 2 ^ 47 := hheap
  have hstore : ∀ a, Moves Grows (storeByteAt a 0xAA) := fun a =>
    grows_bind (grows_touch a) fun _ => Moves.modify fun _ => List.suffix_rfl
  have hfree : ∀ a, Moves Grows (mmuFreePages a 2) := fun a =>
    (shoots_mmuFreePages a 2).mono fun _ _ h => h.grows
  have hafter : Grows (final (mmuAllocPages fuel 2 s)) (final (virtTest fuel s)) :=
    grows_after (fun a => grows_bind (hstore a) fun _ => hfree a) s
  have hstart : Grows s (final (virtTest fuel s)) := (grows_mmuAllocPages fuel 2 s).trans hafter
  obtain ⟨limit, P, h⟩ := PermittedRun.inv hboot hrun fun hm => hnull (hstart.subset hm)
  obtain ⟨s1, Q, halloc, h1, hgrown, hdead, hlive⟩ := h.allocated hfuel 2 hheap'
    fun hm => hnull (hafter.subset hm)
  have hmem : s.kernHeapTop ∈ pageRange s.kernHeapTop (2 : Word).toNat :=
    mem_pageRange_self (by decide)
  obtain ⟨hpage, -⟩ := hdead s.kernHeapTop hmem
  have hself := hpage.pageBase_self
  rw [virtTest, bind_of_ok halloc] at hnull ⊢
  -- the write faults the first page in
  have hreserved : s1.leafFlags (pageBase s.kernHeapTop) = some 0x200 := by
    have hfl := hgrown.reserved 0 (by decide)
    simpa [hself] using hfl
  obtain ⟨f, s2, Q', hwrite, h2, htop, hkept2, hnode⟩ := h1.storeByteAt_reserved
    (hself.symm ▸ hpage) hreserved fun hm => hnull ((grows_after (fun _ => hfree _) s1).subset hm)
  rw [hself] at hkept2
  obtain ⟨s3, hfreed3, hfreed⟩ := mmuFreePages_spec h2 (by decide : (0 : Word) < 2)
    (pageRange_mem_union s.kernHeapTop live)
  have h3 := hfreed.inv
  rw [hlive] at h3
  have hkept : PagesKept (pageRange s.kernHeapTop (2 : Word).toNat) s s3 := by
    refine ((hgrown.kept.trans hkept2).trans hfreed.pages).mono ?_
    simp only [Set.union_subset_iff, Set.singleton_subset_iff, subset_rfl, hmem, and_self]
  have hpresent : AnyPresent s2 s.kernHeapTop (2 : Word).toNat := by
    have hfl := (h2.pages.live_flags s.kernHeapTop (Or.inr hmem)).resolve_left fun hres =>
      absurd (hnode.symm.trans (node_eq_none_of_reserved hres)) (Option.some_ne_none f)
    exact ⟨0, by decide, by simpa using hfl⟩
  refine ⟨s3, ?_, ?_, ?_, hkept.sameStatus_of_dead h h3 hdead, hkept.onlyTables_of_dead h h3 hdead⟩
  · rw [bind_of_ok hwrite]
    exact hfreed3
  · rw [hfreed.top, htop, hgrown.top]
    rfl
  · have hdrop := hfreed.dropped hpresent
    rwa [show s.kernHeapTop - s.kernHeapTop % pageSize = s.kernHeapTop from hself] at hdrop

theorem virt_test_returns_roomy : ∃ s', virtTest 3 roomyTouched = .ok () s' ∧
    SameStatus ∅ roomyTouched s' := by
  have hstate : roomyTouched.kernHeapTop.toNat + 8192 ≤ 2 ^ 47 ∧
      .pfAlloc 0 ∉ (final (virtTest 3 roomyTouched)).events := by
    decide +kernel
  obtain ⟨s', hrun, -, -, hsame, -⟩ := virt_test_returns roomyBoot_booted
    roomyTouched_run.permitted (Nat.le_refl 3) hstate.1 hstate.2
  exact ⟨s', hrun, hsame⟩

end SkipOS
