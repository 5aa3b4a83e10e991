import SkipOS.Virtual
import SkipOS.KmallocMoves
import SkipOS.KmallocOps

/-! Loads, stores and fresh pages of the paged heap, as operations on the memory behind its
pages. -/

namespace SkipOS

open Mem Exec Walk

/-- `a` lies behind the frame `f`. A page fault may have come in between. -/
structure Touched (managed : List Word) (limit : Word) (live : Set Word) (a f : Word)
    (s s' : Machine) : Prop where
  inv : ∃ Q, VmInv managed limit s' live Q
  node : s'.node (pathOf a) = some f
  top : s'.kernHeapTop = s.kernHeapTop
  kept : PagesKept {pageBase a} s s'
  same : s.node (pathOf a) ≠ none → s' = s

/-- Only the contents of pages changed. -/
structure Rewritten (s s' : Machine) : Prop where
  inv : ∀ managed limit live P, VmInv managed limit s live P → VmInv managed limit s' live P
  nodes : ∀ p ∈ Paths, s'.node p = s.node p
  flags : ∀ va, IsPage va → s'.leafFlags va = s.leafFlags va
  top : s'.kernHeapTop = s.kernHeapTop
  events : s'.events = s.events

/-- The pages from `base` on are new and the first of them has the frame `f`. -/
structure NewPages (managed : List Word) (limit : Word) (live : Set Word) (base num f : Word)
    (s s' : Machine) : Prop where
  inv : ∃ Q, VmInv managed limit s' (live ∪ pageRange base num.toNat) Q
  base_eq : base = s.kernHeapTop
  top : s'.kernHeapTop.toNat = s.kernHeapTop.toNat + 4096 * num.toNat
  node : s'.node (pathOf base) = some f
  taken : ∀ va ∈ pageRange base num.toNat, s'.pageStatus va ≠ .unmapped
  kept : PagesKept (pageRange base num.toNat) s s'

variable {managed : List Word} {limit a base f num p page v size c : Word} {s s' t u : Machine}
  {P Q : Pool} {live : Set Word} {fuel n : Nat} {k k' : Kernel Machine}

theorem Rewritten.refl (s : Machine) : Rewritten s s :=
  ⟨fun _ _ _ _ h => h, fun _ _ => rfl, fun _ _ => rfl, rfl, rfl⟩

theorem Rewritten.trans (h : Rewritten s t) (h' : Rewritten t u) : Rewritten s u :=
  ⟨fun _ _ _ _ hi => h'.inv _ _ _ _ (h.inv _ _ _ _ hi),
    fun p hp => (h'.nodes p hp).trans (h.nodes p hp),
    fun va hva => (h'.flags va hva).trans (h.flags va hva), h'.top.trans h.top,
    h'.events.trans h.events⟩

theorem Rewritten.pageStatus (h : Rewritten s t) {va : Word} (hva : IsPage va) :
    t.pageStatus va = s.pageStatus va := by
  simp only [Machine.pageStatus, if_neg hva.l4Index_ne_zero, h.nodes _ hva.pathOf_mem,
    h.flags va hva]

/-! Accesses. -/

theorem grows_touch (a : Word) : Moves Grows (touch a) := by
  intro s
  rw [touch, bind_get]
  cases s.physical a with
  | some p => exact Grows.refl s
  | none =>
    have hcr2 : Moves Grows (modify fun s : Machine => { s with cr2 := a }) :=
      Moves.modify fun s => List.suffix_rfl
    refine grows_bind hcr2 (fun _ => ?_) s
    refine grows_bind (grows_of_quiet (quiet_pageFaultHandler _)) fun _ => ?_
    refine grows_bind (Moves.get Grows.refl) fun s => ?_
    exact grows_of_quiet (quiet_deref _)

theorem touch_of_node (hp : IsPage (pageBase a)) (hf : s.node (pathOf a) = some f) :
    touch a s = .ok (f + a % pageSize) s := by
  rw [touch, bind_get]
  simp only [Machine.physical, if_neg (l4Index_ne_zero_of_pageBase hp), hf, Option.map_some]
  rfl

theorem canonical_pageBase (hp : IsPage (pageBase a)) : canonical (pageBase a) = pageBase a := by
  have hlt := hp.2.2
  apply BitVec.eq_of_toNat_eq
  rw [canonical, BitVec.toNat_ofNat]
  omega

theorem touch_of_missing (hp : IsPage (pageBase a)) (hf : s.node (pathOf a) = none) :
    touch a s = (pageFaultHandler pfIntNum >>= fun _ => get >>= fun s => deref (s.physical a))
      { s with cr2 := a } := by
  rw [touch, bind_get]
  simp only [Machine.physical, if_neg (l4Index_ne_zero_of_pageBase hp), hf, Option.map_none]
  rfl

theorem FaultedIn.touched (hp : IsPage (pageBase a)) (hf : s.node (pathOf a) = none)
    (h : FaultedIn managed limit live P (canonical (faultPage { s with cr2 := a })) f
      { s with cr2 := a } s') : Touched managed limit live a f s s' := by
  have hpage : canonical (faultPage { s with cr2 := a }) = pageBase a := canonical_pageBase hp
  have hnode := h.node
  have hkept := h.kept
  rw [hpage] at hkept
  rw [hpage, pathOf_pageBase] at hnode
  refine ⟨h.inv, hnode, h.top, fun va hva hm => ?_, fun hne => absurd hf hne⟩
  obtain ⟨hn, hfl, hc⟩ := hkept va hva hm
  exact ⟨hn, hfl, hc⟩

theorem touch_spec (h : VmInv managed limit s live P) (hp : IsPage (pageBase a))
    (hrun : touch a s = .ok p s') (hnull : .pfAlloc 0 ∉ s'.events) :
    ∃ f, p = f + a % pageSize ∧ Touched managed limit live a f s s' := by
  cases hf : s.node (pathOf a) with
  | some f =>
    rw [touch_of_node hp hf, EStateM.Result.ok.injEq] at hrun
    obtain ⟨rfl, rfl⟩ := hrun
    exact ⟨f, rfl, ⟨P, h⟩, hf, rfl, PagesKept.refl s |>.mono (Set.empty_subset _), fun _ => rfl⟩
  | none =>
    rw [touch_of_missing hp hf] at hrun
    obtain ⟨_, s1, hfault, hrest⟩ := bind_eq_ok.mp hrun
    have hcr2 : VmInv managed limit { s with cr2 := a } live P := h.of_eq rfl rfl rfl rfl rfl
    rcases pageFaultHandler_spec hcr2 hfault with ⟨e, he⟩ | ⟨-, ⟨-, hgot⟩ | ⟨-, f, hin⟩⟩
    · cases he
    · have hg : GotNull s s' := by
        refine GotNull.grows hgot ?_
        have := grows_bind (Moves.get Grows.refl) (fun u : Machine =>
          grows_of_quiet (quiet_deref (u.physical a))) s1
        rwa [hrest] at this
      exact absurd hg.mem_events hnull
    · have htouched := FaultedIn.touched hp hf hin
      rw [final_ok] at htouched
      rw [bind_get] at hrest
      simp only [Machine.physical, if_neg (l4Index_ne_zero_of_pageBase hp), htouched.node,
        Option.map_some, deref, pure_apply, EStateM.Result.ok.injEq] at hrest
      obtain ⟨rfl, rfl⟩ := hrest
      exact ⟨f, rfl, htouched⟩

theorem Touched.again (h : Touched managed limit live a f s s') (hp : IsPage (pageBase a)) :
    touch a s' = .ok (f + a % pageSize) s' := touch_of_node hp h.node

theorem load64_paged (fuel : Nat) (hp : IsPage page) (hf : s.node (pathOf page) = some f)
    (ha : WordIn page a) : (pagedMmu fuel).load64 a s = .ok (s.virt.load64 a) s := by
  have hnode : s.node (pathOf a) = some f := by rw [ha.pathOf hp, hf]
  simp only [pagedMmu]
  rw [bind_of_ok (touch_of_node (ha.pageBase hp ▸ hp) hnode), bind_get, virt_load64 hp hf ha]
  rfl

theorem VmInv.rewritten {m : Mem} (h : VmInv managed limit s live P) (hp : IsPage page)
    (hf : s.node (pathOf page) = some f) (heq : Set.EqOn m s.mem (frame f)ᶜ) :
    Rewritten s { s with mem := m } := by
  obtain ⟨-, hnodes, hflags⟩ := h.writeFrame hp hf heq
  exact ⟨fun _ _ _ _ h' => (h'.writeFrame hp hf heq).1, hnodes, hflags, rfl, rfl⟩

theorem store64_paged (fuel : Nat) (h : VmInv managed limit s live P) (hp : IsPage page)
    (hf : s.node (pathOf page) = some f) (ha : WordIn page a) (v : Word) :
    ∃ s', (pagedMmu fuel).store64 a v s = .ok ⟨⟩ s' ∧ s'.virt = s.virt.store64 a v ∧
      Rewritten s s' := by
  have hnode : s.node (pathOf a) = some f := by rw [ha.pathOf hp, hf]
  exact ⟨_, bind_of_ok (touch_of_node (ha.pageBase hp ▸ hp) hnode) _, h.virt_store64 hp hf ha v,
    h.rewritten hp hf (store64_eqOn_frame hp ha f v)⟩

theorem WordIn.header (hp : IsPage page) (hlo : page.toNat ≤ a.toNat)
    (hhi : a.toNat + 16 ≤ page.toNat + 4096) : WordIn page a ∧ WordIn page (a + 8) := by
  have hlt := hp.2.2
  have h8 : (a + 8).toNat = a.toNat + 8 := by bv_omega
  exact ⟨⟨hlo, by omega⟩, by omega, by omega⟩

theorem storeHeader_paged (fuel : Nat) (h : VmInv managed limit s live P) (hp : IsPage page)
    (hf : s.node (pathOf page) = some f) (hlo : page.toNat ≤ a.toNat)
    (hhi : a.toNat + 16 ≤ page.toNat + 4096) (v w : Word) :
    ∃ s' s'', (pagedMmu fuel).store64 a v s = .ok ⟨⟩ s' ∧
      (pagedMmu fuel).store64 (a + 8) w s' = .ok ⟨⟩ s'' ∧
      s''.virt = (s.virt.store64 a v).store64 (a + 8) w ∧ Rewritten s s'' := by
  obtain ⟨hfirst, hsecond⟩ := WordIn.header hp hlo hhi
  obtain ⟨s', hstore, hvirt, hsame⟩ := store64_paged fuel h hp hf hfirst v
  have hf' : s'.node (pathOf page) = some f := (hsame.nodes _ hp.pathOf_mem).trans hf
  obtain ⟨s'', hstore', hvirt', hsame'⟩ :=
    store64_paged fuel (hsame.inv _ _ _ _ h) hp hf' hsecond w
  exact ⟨s', s'', hstore, hstore', hvirt ▸ hvirt', hsame.trans hsame'⟩

/-! Fresh pages. -/

theorem mem_pageRange_self (hnum : 0 < num) : base ∈ pageRange base num.toNat :=
  ⟨0, by bv_omega, by simp⟩

/-- What `MMU_alloc_pages` and the first access to its pages leave behind. -/
theorem newPages_spec (h : VmInv managed limit s live P) (hnum : 0 < num)
    (halloc : mmuAllocPages fuel num s = .ok base t) (htouch : touch base t = .ok p u)
    (hnull : .pfAlloc 0 ∉ u.events) :
    ∃ f, p = f + base % pageSize ∧ NewPages managed limit live base num f s u := by
  have hgrow : Grows t u := by
    have hg := grows_touch base t
    rwa [htouch] at hg
  rcases mmuAllocPages_spec fuel h halloc with ⟨hgot, -⟩ | ⟨live', Q, hinv, -, hcases⟩
  · exact absurd (hgrow.subset hgot.mem_events) hnull
  · rcases hcases with ⟨hok, hlive, hgrown⟩ | ⟨e, he, -⟩
    · rw [final_ok, EStateM.Result.ok.injEq] at hok
      rw [final_ok] at hinv hgrown
      obtain ⟨rfl, -⟩ := hok
      subst hlive
      have hmem : s.kernHeapTop ∈ pageRange s.kernHeapTop num.toNat := mem_pageRange_self hnum
      have hpage : ∀ va ∈ pageRange s.kernHeapTop num.toNat, IsPage va := fun va hva =>
        (hinv.pages.range va (Or.inr hva)).1
      have hself := (hpage _ hmem).pageBase_self
      obtain ⟨f, hp, htouched⟩ := touch_spec hinv (hself.symm ▸ hpage _ hmem) htouch hnull
      have hkept := htouched.kept
      rw [hself] at hkept
      have hnode := htouched.node
      refine ⟨f, hp, htouched.inv, rfl, ?_, hnode, ?_, ?_⟩
      · rw [htouched.top]
        exact hgrown.top
      · intro va hva
        have h0 := (hpage va hva).l4Index_ne_zero
        by_cases he : va = s.kernHeapTop
        · rw [he, pageStatus_of_node (hpage _ hmem).l4Index_ne_zero hnode]
          exact PageStatus.noConfusion
        · obtain ⟨k, hk, hva'⟩ := id hva
          have hres : t.pageStatus va = .reserved :=
            (pageStatus_eq_reserved_iff h0).mpr (hva' ▸ hgrown.reserved k hk)
          rw [(hkept va (hpage va hva) he).pageStatus h0, hres]
          exact PageStatus.noConfusion
      · refine (hgrown.kept.trans hkept).mono (Set.union_subset subset_rfl ?_)
        exact Set.singleton_subset_iff.mpr hmem
    · cases he

/-! The kernel's operations. -/

/-- The state of the flat heap, with the memory behind the pages and the given ranges. -/
def Kernel.flat (k : Kernel Machine) (ranges : List (Word × Word)) : Kernel Flat :=
  ⟨k.pools, ⟨k.mmu.virt, ranges⟩, k.added⟩

theorem onMmu_of_ok {α : Type} {x : Exec Machine α} {a : α} (h : x k.mmu = .ok a s) :
    onMmu x k = .ok a { k with mmu := s } := zoom_of_ok h

theorem onMmu_bind_eq_ok {α β : Type} {x : Exec Machine α} {g : α → Exec (Kernel Machine) β} {b : β}
    (h : (onMmu x >>= g) k = .ok b k') :
    ∃ a s, x k.mmu = .ok a s ∧ g a { k with mmu := s } = .ok b k' := by
  obtain ⟨a, k1, hx, hrest⟩ := bind_eq_ok.mp h
  obtain ⟨s, hs, rfl⟩ := zoom_eq_ok.mp hx
  exact ⟨a, s, hs, hrest⟩

theorem moves_pagedMmu (fuel : Nat) : (pagedMmu fuel).Moves Grows where
  refl := Grows.refl
  trans _ _ _ := Grows.trans
  load64 a := grows_bind (grows_touch a) fun p =>
    grows_bind (Moves.get Grows.refl) fun s => Moves.pure Grows.refl (s.mem.load64 p)
  store64 a _ := grows_bind (grows_touch a) fun _ => Moves.modify fun _ => List.suffix_rfl
  allocPages num := grows_mmuAllocPages fuel num
  freePages vp num := (shoots_mmuFreePages vp num).mono fun _ _ h => h.grows

theorem grows_of_moves {α : Type} {x : Exec (Kernel Machine) α} {a : α}
    (hx : Moves (Below Grows) x) (h : x k = .ok a k') : Grows k.mmu k'.mmu := by
  have hg := hx k
  rwa [h] at hg

theorem store64_of_touched (fuel : Nat) (hfirst : touch c s = .ok p t)
    (hagain : touch c t = .ok p t) :
    (pagedMmu fuel).store64 c v s = (pagedMmu fuel).store64 c v t := by
  simp only [pagedMmu]
  rw [bind_of_ok hfirst, bind_of_ok hagain]

theorem linkChunks_of_touched (fuel : Nat) (size : Word) (n : Nat) (k : Kernel Machine)
    (hfirst : touch c s = .ok p t) (hagain : touch c t = .ok p t) :
    linkChunks (pagedMmu fuel) size (n + 1) c { k with mmu := s } =
      linkChunks (pagedMmu fuel) size (n + 1) c { k with mmu := t } := by
  have hstore : onMmu ((pagedMmu fuel).store64 c (c + size)) { k with mmu := s } =
      onMmu ((pagedMmu fuel).store64 c (c + size)) { k with mmu := t } := by
    simp only [onMmu, zoom, store64_of_touched fuel hfirst hagain]
  rw [linkChunks, bind_apply, hstore, ← bind_apply]

theorem toNat_lastChunk (hfits : c.toNat + size.toNat * n < 2 ^ 64) :
    (lastChunk size n c).toNat = c.toNat + size.toNat * n := by
  induction n generalizing c with
  | zero => rfl
  | succ n ih =>
    rw [Nat.mul_succ] at hfits
    have hnext : (c + size).toNat = c.toNat + size.toNat := by bv_omega
    rw [lastChunk, ih (by omega), hnext, Nat.mul_succ]
    omega

theorem linkChunks_paged (fuel : Nat) (h : VmInv managed limit k.mmu live P) (hp : IsPage page)
    (hf : k.mmu.node (pathOf page) = some f) (hsize : 8 ≤ size.toNat) (hlo : page.toNat ≤ c.toNat)
    (hhi : c.toNat + size.toNat * (n + 1) ≤ page.toNat + 4096) :
    ∃ s', linkChunks (pagedMmu fuel) size n c k = .ok (lastChunk size n c) { k with mmu := s' } ∧
      s'.virt = linksMem size n c k.mmu.virt ∧ Rewritten k.mmu s' := by
  induction n generalizing c k with
  | zero => exact ⟨k.mmu, rfl, rfl, Rewritten.refl _⟩
  | succ n ih =>
    have hlt := hp.2.2
    have hhi' : c.toNat + size.toNat * (n + 2) ≤ page.toNat + 4096 := hhi
    obtain ⟨hnext, hfits⟩ := toNat_next hsize (c := c) (n := n) (by omega)
    have hmul : size.toNat * (n + 2) = size.toNat + size.toNat * (n + 1) := by
      rw [Nat.mul_succ, Nat.add_comm]
    have hword : WordIn page c := ⟨hlo, by omega⟩
    obtain ⟨s1, hstore, hvirt, hsame⟩ := store64_paged fuel h hp hf hword (c + size)
    have hf1 : s1.node (pathOf page) = some f := (hsame.nodes _ hp.pathOf_mem).trans hf
    have hload := load64_paged fuel hp hf1 hword
    rw [hvirt, load64_store64_self] at hload
    have hinv1 := hsame.inv _ _ _ _ h
    obtain ⟨s', hrest, hvirt', hsame'⟩ := ih (k := { k with mmu := s1 }) hinv1 hf1 (c := c + size)
      (by omega) (by omega)
    refine ⟨s', ?_, ?_, hsame.trans hsame'⟩
    · rw [linkChunks, bind_of_ok (onMmu_of_ok hstore), bind_of_ok (onMmu_of_ok hload), hrest]
      rfl
    · rw [hvirt', linksMem, hvirt]

end SkipOS
