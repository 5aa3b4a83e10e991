import SkipOS.PagedOps

/-! The allocator over pages: what it does there it does to the flat heap as well. -/

namespace SkipOS

open Mem Exec Walk

/-- The ranges of pages that the pools and the large blocks lie in. -/
def heapRanges (added : List (Fin 7 × Word)) (out : List Alloc) : List (Word × Word) :=
  added.map (fun x => (x.2, 1)) ++
    (out.filter fun a => a.pool = none).map fun a => (a.base, a.pageCnt)

def heapPages (ranges : List (Word × Word)) : Set Word :=
  {va | ∃ r ∈ ranges, va ∈ pageRange r.1 r.2.toNat}

variable {managed : List Word} {limit a base f num p page c : Word} {s t u : Machine} {P Q : Pool}
  {live : Set Word} {fuel : Nat} {k k' : Kernel Machine} {arr : PoolArr} {out out' : List Alloc}
  {i : Fin 7} {added : List (Fin 7 × Word)} {R R' : List (Word × Word)} {r : Word × Word}
  {b : Alloc} {w : Unit}

/-! Ranges and their pages. -/

theorem heapRanges_cons_small (h : b.pool = some i) :
    heapRanges added (b :: out) = heapRanges added out := by
  rw [heapRanges, List.filter_cons_of_neg (by simp [h]), heapRanges]

theorem heapRanges_cons_large (h : b.pool = none) :
    (heapRanges added (b :: out)).Perm ((b.base, b.pageCnt) :: heapRanges added out) := by
  rw [heapRanges, List.filter_cons_of_pos (by simp [h]), List.map_cons]
  exact List.perm_middle

theorem heapRanges_perm (h : out.Perm out') :
    (heapRanges added out).Perm (heapRanges added out') :=
  List.Perm.append_left _ ((h.filter _).map _)

theorem mem_heapRanges : r ∈ heapRanges added out ↔
    (∃ i, (i, r.1) ∈ added ∧ r.2 = 1) ∨ ∃ b ∈ out, b.pool = none ∧ r = (b.base, b.pageCnt) := by
  obtain ⟨r1, r2⟩ := r
  simp only [heapRanges, List.mem_append, List.mem_map, List.mem_filter, decide_eq_true_eq,
    Prod.mk.injEq, Prod.exists]
  constructor
  · rintro (⟨i, page, hm, rfl, rfl⟩ | ⟨b, ⟨hb, hp⟩, rfl, rfl⟩)
    · exact Or.inl ⟨i, hm, rfl⟩
    · exact Or.inr ⟨b, hb, hp, rfl, rfl⟩
  · rintro (⟨i, hm, rfl⟩ | ⟨b, hb, hp, rfl, rfl⟩)
    · exact Or.inl ⟨i, r1, hm, rfl, rfl⟩
    · exact Or.inr ⟨b, ⟨hb, hp⟩, rfl, rfl⟩

theorem heapRanges_pos (h : r ∈ heapRanges added out) : 0 < r.2 := by
  rcases mem_heapRanges.mp h with ⟨i, -, he⟩ | ⟨b, -, -, rfl⟩
  · rw [he]
    decide
  · exact newPageCnt_pos b.bytesNeeded

theorem heapPages_perm (h : R.Perm R') : heapPages R = heapPages R' := by
  ext va
  simp only [heapPages, Set.mem_ofPred_eq, h.mem_iff]

theorem heapPages_cons (r : Word × Word) (R : List (Word × Word)) :
    heapPages (r :: R) = heapPages R ∪ pageRange r.1 r.2.toNat := by
  ext va
  simp only [heapPages, Set.mem_ofPred_eq, List.mem_cons, exists_eq_or_imp, Set.mem_union]
  exact or_comm

theorem pageRange_subset_heapPages (h : r ∈ R) : pageRange r.1 r.2.toNat ⊆ heapPages R :=
  fun _ hva => ⟨r, h, hva⟩

theorem mem_bytes_of_pageBase (hal : ∀ va ∈ pageRange base num.toNat, IsPage va)
    (h : pageBase a ∈ pageRange base num.toNat) : a ∈ (rangeRegion (base, num)).bytes := by
  obtain ⟨j, hj, he⟩ := h
  have hn : (base + BitVec.ofNat 64 (4096 * j)).toNat = base.toNat + 4096 * j :=
    range_toNat (fun k hk => hal _ ⟨k, hk, rfl⟩) hj
  have hlt := (hal _ ⟨j, hj, rfl⟩).2.2
  rw [← he, toNat_pageBase] at hn
  have hmod := Nat.mod_lt a.toNat (y := 4096) (by decide)
  have hle := Nat.mod_le a.toNat 4096
  have hsub : (a - base).toNat = 4096 * j + a.toNat % 4096 := by bv_omega
  show (a - base).toNat < 4096 * num.toNat
  omega

/-- In the new pages the flat heap is given what is behind them; elsewhere nothing changed. -/
theorem NewPages.withRange (h : NewPages managed limit live base num f k.mmu u)
    (R : List (Word × Word)) :
    ((k.flat R).withRange ⟨base, u.virt⟩ num).mmu = ⟨u.virt, (base, num) :: R⟩ := by
  obtain ⟨Q, hinv⟩ := h.inv
  have hmem : ∀ x, (if x ∈ (rangeRegion (base, num)).bytes then u.virt x else k.mmu.virt x) =
      u.virt x := by
    intro x
    split
    · rfl
    · rename_i hx
      refine (h.kept.virt fun hp => hx ?_).symm
      exact mem_bytes_of_pageBase (fun va hva => (hinv.pages.range va (Or.inr hva)).1) hp
  exact congrArg (fun m => (⟨m, (base, num) :: R⟩ : Flat)) (funext hmem)

/-! `add_page` -/

theorem addPage_paged (i : Fin 7) (R : List (Word × Word))
    (halloc : mmuAllocPages fuel 1 k.mmu = .ok base t)
    (htouch : touch base t = .ok (f + base % pageSize) u)
    (hnew : NewPages managed limit live base 1 f k.mmu u) :
    ∃ k', addPage (pagedMmu fuel) i k = .ok ⟨⟩ k' ∧
      k'.flat ((base, 1) :: R) = pageAdded (k.flat R) i ⟨base, u.virt⟩ ∧ Rewritten u k'.mmu := by
  obtain ⟨Q, hinv⟩ := hnew.inv
  have hp : IsPage base := (hinv.pages.range base (Or.inr (mem_pageRange_self (by decide)))).1
  have hself := hp.pageBase_self
  have hagain : touch base u = .ok (f + base % pageSize) u :=
    touch_of_node (hself.symm ▸ hp) hnew.node
  obtain ⟨hn, htwo, hsize⟩ := numChunks_bounds i
  have hpage := (maxSize_bounds i).2.2
  have hlt := hp.2.2
  obtain ⟨m, hm⟩ : ∃ m, (numChunks i - 1).toNat = m + 1 := ⟨(numChunks i - 1).toNat - 1, by omega⟩
  have hfits : base.toNat + (maxSize i).toNat * ((numChunks i - 1).toNat + 1) ≤
      base.toNat + 4096 := by
    rw [hn, hpage]
  have hlast : (lastChunk (maxSize i) (numChunks i - 1).toNat base).toNat =
      base.toNat + (maxSize i).toNat * (numChunks i - 1).toNat :=
    toNat_lastChunk (by rw [Nat.mul_succ] at hfits; omega)
  set k1 : Kernel Machine :=
    ⟨Function.update k.pools i { k.pools i with head := base }, t, (i, base) :: k.added⟩ with hk1
  obtain ⟨s1, hlinks, hvirt, hsame⟩ := linkChunks_paged (k := { k1 with mmu := u }) fuel hinv hp
    hnew.node hsize (Nat.le_refl _) hfits
  have hstart : linkChunks (pagedMmu fuel) (maxSize i) (numChunks i - 1).toNat base k1 =
      linkChunks (pagedMmu fuel) (maxSize i) (numChunks i - 1).toNat base { k1 with mmu := u } := by
    rw [hm]
    exact linkChunks_of_touched fuel (maxSize i) m k1 htouch hagain
  have hword : WordIn base (lastChunk (maxSize i) (numChunks i - 1).toNat base) := by
    rw [Nat.mul_succ] at hfits
    exact ⟨by omega, by omega⟩
  obtain ⟨s2, hstore, hvirt', hsame'⟩ := store64_paged fuel (hsame.inv _ _ _ _ hinv) hp
    ((hsame.nodes _ hp.pathOf_mem).trans hnew.node) hword (k.pools i).head
  have hrun : addPage (pagedMmu fuel) i k = .ok ⟨⟩
      ⟨Function.update k1.pools i { k1.pools i with avail := (k1.pools i).avail + numChunks i }, s2,
        k1.added⟩ := by
    rw [addPage, bind_of_ok (onMmu_of_ok (x := (pagedMmu fuel).allocPages 1) halloc), bind_modify,
      bind_get]
    dsimp only
    rw [setPool, bind_modify, bind_of_ok (hstart.trans hlinks)]
    rw [bind_of_ok (onMmu_of_ok (k := { k1 with mmu := s1 }) hstore)]
    rfl
  refine ⟨_, hrun, ?_, hsame.trans hsame'⟩
  rw [pageAdded, hnew.withRange R, pageMem, Kernel.flat]
  simp only [hvirt', hvirt, hk1, Function.update_self, Function.update_idem]
  rfl

theorem addPage_touched (hrun : addPage (pagedMmu fuel) i k = .ok w k') : ∃ base t p u,
    mmuAllocPages fuel 1 k.mmu = .ok base t ∧ touch base t = .ok p u ∧ Grows u k'.mmu := by
  have hM := moves_pagedMmu fuel
  obtain ⟨base, t, halloc, hrest⟩ := onMmu_bind_eq_ok hrun
  rw [bind_modify, bind_get] at hrest
  obtain ⟨_, k2, hset, hrest⟩ := bind_eq_ok.mp hrest
  obtain rfl := modify_eq_ok.mp hset
  obtain ⟨last, k3, hlinks, hrest⟩ := bind_eq_ok.mp hrest
  obtain ⟨m, hm⟩ : ∃ m, (numChunks i - 1).toNat = m + 1 := by
    have := numChunks_bounds i
    exact ⟨(numChunks i - 1).toNat - 1, by omega⟩
  rw [hm, linkChunks] at hlinks
  obtain ⟨_, s4, hstore, hlinks⟩ := onMmu_bind_eq_ok hlinks
  obtain ⟨p, u, htouch, hwrite⟩ := bind_eq_ok.mp hstore
  obtain rfl := modify_eq_ok.mp hwrite
  refine ⟨base, t, p, u, halloc, htouch, ?_⟩
  have hloop : Grows u k3.mmu := grows_of_moves
    (hM.bind (moves_onMmu (hM.load64 _)) fun _ => hM.linkChunks _ _ _) hlinks
  exact hloop.trans (grows_of_moves
    (hM.bind (moves_onMmu (hM.store64 _ _)) fun _ => hM.setPool i _) hrest)

theorem addPage_spec (h : VmInv managed limit k.mmu live P)
    (hrun : addPage (pagedMmu fuel) i k = .ok w k') (hnull : .pfAlloc 0 ∉ k'.mmu.events)
    (R : List (Word × Word)) : ∃ base f u, NewPages managed limit live base 1 f k.mmu u ∧
      k'.flat ((base, 1) :: R) = pageAdded (k.flat R) i ⟨base, u.virt⟩ ∧ Rewritten u k'.mmu := by
  obtain ⟨base, t, p, u, halloc, htouch, hgrow⟩ := addPage_touched hrun
  have hnull' : .pfAlloc 0 ∉ u.events := fun hm => hnull (hgrow.subset hm)
  obtain ⟨f, rfl, hnew⟩ := newPages_spec h (by decide) halloc htouch hnull'
  obtain ⟨k1, hrun', hflat, hsame⟩ := addPage_paged i R halloc htouch hnew
  obtain ⟨-, rfl⟩ := EStateM.Result.ok.inj (hrun'.symm.trans hrun)
  exact ⟨base, f, u, hnew, hflat, hsame⟩

theorem addPage_pools_ne (h : VmInv managed limit k.mmu live P)
    (hrun : addPage (pagedMmu fuel) i k = .ok w k') (hnull : .pfAlloc 0 ∉ k'.mmu.events)
    {j : Fin 7} (hne : j ≠ i) : k'.pools j = k.pools j := by
  obtain ⟨base, f, u, -, hflat, -⟩ := addPage_spec h hrun hnull []
  have hpools : k'.pools = (pageAdded (k.flat []) i ⟨base, u.virt⟩).pools :=
    congrArg (fun x : Kernel Flat => x.pools) hflat
  rw [hpools]
  simp only [pageAdded, Kernel.flat, Function.update_of_ne hne]

/-! `kmalloc` -/

/-- `kmalloc` from a pool that counts a chunk, whose first chunk lies in a page that is present. -/
theorem kmalloc_chunk (arr : PoolArr) (fuel : Nat) (h : VmInv managed limit k.mmu live P)
    (hp : IsPage page) (hf : k.mmu.node (pathOf page) = some f)
    (hlo : page.toNat ≤ (k.pools i).head.toNat)
    (hhi : (k.pools i).head.toNat + 16 ≤ page.toNat + 4096) (bytesNeeded : Word)
    (R : List (Word × Word)) : ∃ k', (do
        let s ← get
        let newMem := (s.pools i).head
        let next ← onMmu ((pagedMmu fuel).load64 newMem)
        setPool i fun p => { p with head := next }
        setPool i fun p => { p with avail := p.avail - 1 }
        onMmu ((pagedMmu fuel).store64 newMem (arr.ptr i))
        onMmu ((pagedMmu fuel).store64 (newMem + 8) bytesNeeded)
        return newMem + sizeofHeader : Exec (Kernel Machine) Word) k =
          .ok ((k.pools i).head + sizeofHeader) k' ∧
      k'.flat R = chunkTaken arr (k.flat R) i bytesNeeded ∧ Rewritten k.mmu k'.mmu := by
  set c := (k.pools i).head with hc
  have hload := load64_paged fuel hp hf (WordIn.header hp hlo hhi).1
  obtain ⟨s1, s2, hstore, hstore', hvirt, hsame⟩ :=
    storeHeader_paged fuel h hp hf hlo hhi (arr.ptr i) bytesNeeded
  set k1 : Kernel Machine := { k with
    pools := Function.update k.pools i ⟨(k.pools i).avail - 1, k.mmu.virt.load64 c⟩ } with hk1
  refine ⟨{ k1 with mmu := s2 }, ?_, ?_, hsame⟩
  · rw [bind_get, ← hc, bind_of_ok (onMmu_of_ok hload), setPool, bind_modify, setPool, bind_modify]
    simp only [Function.update_self, Function.update_idem]
    rw [bind_of_ok (onMmu_of_ok (k := k1) hstore),
      bind_of_ok (onMmu_of_ok (k := { k1 with mmu := s1 }) hstore')]
    rfl
  · rw [chunkTaken, Kernel.flat, hvirt]
    rfl

end SkipOS
