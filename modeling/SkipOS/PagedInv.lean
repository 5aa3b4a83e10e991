import SkipOS.PagedHeap

/-! The invariant of the heap over pages. Links and headers lie in pages that are present, so page
faults and other users of the virtual page allocator do not touch them. -/

namespace SkipOS

open Mem Exec Walk

/-- Pages with links and headers: those of the pools, and the first of each large block. -/
def headPages (added : List (Fin 7 × Word)) (out : List Alloc) : Set Word :=
  {va | (∃ i, (i, va) ∈ added) ∨ ∃ a ∈ out, a.pool = none ∧ va = a.base}

/-- The pages of `others` belong to other users of the virtual page allocator. -/
structure PagedInv (managed : List Word) (limit : Word) (arr : PoolArr) (k : Kernel Machine)
    (out : List Alloc) (freed : Fin 7 → Nat) (free : FreeLists) (others : Set Word) (P : Pool) :
    Prop where
  vm : VmInv managed limit k.mmu (others ∪ heapPages (heapRanges k.added out)) P
  heap : HeapInv arr (k.flat (heapRanges k.added out)) out freed free
  apart : (heapRanges k.added out).Pairwise fun r t => (rangeRegion r).Apart (rangeRegion t)
  below : ∀ r ∈ heapRanges k.added out, r.1.toNat + 4096 * r.2.toNat ≤ k.mmu.kernHeapTop.toNat
  foreign : Disjoint others (heapPages (heapRanges k.added out))
  present : ∀ va ∈ headPages k.added out, k.mmu.node (pathOf va) ≠ none

/-- The pages of the heap that a call makes available. -/
def takenPages (s s' : Machine) : Set Word :=
  {va | IsPage va ∧ s.pageStatus va = .unmapped ∧ s'.pageStatus va ≠ .unmapped}

variable {managed : List Word} {limit base f num page c va : Word} {s s' u : Machine} {P Q : Pool}
  {live others others' : Set Word} {n : Nat} {k k' : Kernel Machine} {arr : PoolArr}
  {out out' : List Alloc} {freed freed' : Fin 7 → Nat} {free free' : FreeLists} {i : Fin 7}
  {added : List (Fin 7 × Word)} {r : Word × Word} {a : Alloc} {m : Mem} {x : Kernel Flat}
  {ranges : List (Word × Word)}

/-! The heap does not read more of memory than links and headers. -/

theorem HeapInv.of_links (h : HeapInv arr x out freed free)
    (hlink : ∀ i, ∀ c ∈ free i, Set.EqOn m x.mmu.mem (span c 8))
    (hheader : ∀ a ∈ out, Set.EqOn m x.mmu.mem (span a.base 16)) :
    HeapInv arr (x.withMem m) out freed free := by
  refine ⟨fun i => ?_, h.count, h.apart, h.housed, h.free_on_page, h.out_on_page, h.large,
    h.added_ok, fun a ha => ?_⟩
  · exact (h.linked i).congr fun c hc => load64_congr (hlink i c hc)
  · obtain ⟨hfirst, hsecond⟩ := h.header a ha
    have h8 : (8 : Word).toNat = 8 := rfl
    have hmem := hheader a ha
    refine ⟨(load64_congr (hmem.mono (span_mono (by omega)))).trans hfirst, ?_⟩
    exact (load64_congr (hmem.mono (span_offset_subset (by omega)))).trans hsecond

theorem HeapInv.mono_ranges (h : HeapInv arr x out freed free) (hsub : x.mmu.ranges ⊆ ranges) :
    HeapInv arr { x with mmu := { x.mmu with ranges := ranges } } out freed free := by
  refine ⟨h.linked, h.count, h.apart, fun r hr => (h.housed r hr).mono hsub, h.free_on_page,
    h.out_on_page, fun a ha ho => ?_, h.added_ok, h.header⟩
  obtain ⟨hmem, hne⟩ := h.large a ha ho
  exact ⟨hsub hmem, hne⟩

theorem HeapInv.flat_perm {R R' : List (Word × Word)} (h : HeapInv arr (k.flat R) out freed free)
    (hp : R.Perm R') : HeapInv arr (k.flat R') out freed free :=
  h.mono_ranges hp.subset

/-! Pages of the heap. -/

theorem headPages_subset : headPages added out ⊆ heapPages (heapRanges added out) := by
  rintro va (⟨i, hm⟩ | ⟨a, ha, hp, rfl⟩)
  · have hr : (va, 1) ∈ heapRanges added out := mem_heapRanges.mpr (Or.inl ⟨i, hm, rfl⟩)
    exact ⟨_, hr, mem_pageRange_self (heapRanges_pos hr)⟩
  · have hr : (a.base, a.pageCnt) ∈ heapRanges added out :=
      mem_heapRanges.mpr (Or.inr ⟨a, ha, hp, rfl⟩)
    exact ⟨_, hr, mem_pageRange_self (heapRanges_pos hr)⟩

theorem PagedInv.heapPage (h : PagedInv managed limit arr k out freed free others P)
    (hva : va ∈ heapPages (heapRanges k.added out)) : IsPage va :=
  (h.vm.pages.range va (Or.inr hva)).1

theorem PagedInv.headPage (h : PagedInv managed limit arr k out freed free others P)
    (hva : va ∈ headPages k.added out) : IsPage va ∧ ∃ f, k.mmu.node (pathOf va) = some f :=
  ⟨h.heapPage (headPages_subset hva), Option.ne_none_iff_exists'.mp (h.present va hva)⟩

theorem OnPage.headPage (hc : OnPage added i c) (out : List Alloc) :
    ∃ page ∈ headPages added out, page.toNat ≤ c.toNat ∧
      c.toNat + (maxSize i).toNat ≤ page.toNat + 4096 := by
  obtain ⟨page, j, hm, hj, he⟩ := hc
  have hsize := (maxSize_bounds i).2.2
  have hle : (maxSize i).toNat * (j + 1) ≤ (maxSize i).toNat * (numChunks i).toNat :=
    Nat.mul_le_mul_left _ hj
  rw [Nat.mul_succ] at hle
  exact ⟨page, Or.inl ⟨i, hm⟩, by omega, by omega⟩

theorem PagedInv.header_page (h : PagedInv managed limit arr k out freed free others P)
    (ha : a ∈ out) : ∃ page ∈ headPages k.added out, page.toNat ≤ a.base.toNat ∧
      a.base.toNat + 16 ≤ page.toNat + 4096 := by
  cases hp : a.pool with
  | none => exact ⟨a.base, Or.inr ⟨a, ha, hp, rfl⟩, Nat.le_refl _, by omega⟩
  | some i =>
    obtain ⟨page, hm, hlo, hhi⟩ := (h.heap.out_on_page a ha i hp).headPage out
    have := (maxSize_bounds i).1
    exact ⟨page, hm, hlo, by omega⟩

/-- Bytes that lie in one page with links or headers are kept with it. -/
theorem PagedInv.virt_eqOn (h : PagedInv managed limit arr k out freed free others P)
    (hm : page ∈ headPages k.added out) (hlo : page.toNat ≤ c.toNat)
    (hhi : c.toNat + n ≤ page.toNat + 4096) (hkept : PageKept k.mmu s' page) :
    Set.EqOn s'.virt k.mmu.virt (span c n) := by
  intro b hb
  obtain ⟨hal, -, hlt⟩ := (h.headPage hm).1
  rw [mem_span] at hb
  have hpage : pageBase b = page := by
    by_cases hn : n = 0
    · omega
    · exact pageBase_eq hal (by bv_omega) (by bv_omega)
  exact (hpage.symm ▸ hkept : PageKept k.mmu s' (pageBase b)).virt

theorem PagedInv.of_kept (h : PagedInv managed limit arr k out freed free others P)
    (hvm : VmInv managed limit s' (others' ∪ heapPages (heapRanges k.added out)) Q)
    (hkept : ∀ va ∈ headPages k.added out, PageKept k.mmu s' va)
    (htop : k.mmu.kernHeapTop.toNat ≤ s'.kernHeapTop.toNat)
    (hforeign : Disjoint others' (heapPages (heapRanges k.added out))) :
    PagedInv managed limit arr { k with mmu := s' } out freed free others' Q := by
  refine ⟨hvm, ?_, h.apart, fun r hr => (h.below r hr).trans htop, hforeign, fun va hva => ?_⟩
  · refine h.heap.of_links (fun i c hc => ?_) fun a ha => ?_
    · obtain ⟨page, hm, hlo, hhi⟩ := (h.heap.free_on_page i c hc).headPage out
      have := (maxSize_bounds i).1
      exact h.virt_eqOn hm hlo (by omega) (hkept page hm)
    · obtain ⟨page, hm, hlo, hhi⟩ := h.header_page ha
      exact h.virt_eqOn hm hlo hhi (hkept page hm)
  · rw [(hkept va hva).node]
    exact h.present va hva

/-- Only bytes in the pages of the heap changed, and no range of pages came or went. -/
theorem PagedInv.of_rewritten (h : PagedInv managed limit arr k out freed free others P)
    (hsame : Rewritten k.mmu k'.mmu)
    (hR : (heapRanges k.added out).Perm (heapRanges k'.added out'))
    (hheads : headPages k'.added out' ⊆ headPages k.added out)
    (hheap : HeapInv arr (k'.flat (heapRanges k'.added out')) out' freed' free') :
    PagedInv managed limit arr k' out' freed' free' others P := by
  have hpages := heapPages_perm hR
  refine ⟨?_, hheap, ?_, fun r hr => ?_, ?_, fun va hva => ?_⟩
  · rw [← hpages]
    exact hsame.inv _ _ _ _ h.vm
  · exact (hR.pairwise_iff Region.Apart.symm).mp h.apart
  · rw [hsame.top]
    exact h.below r (hR.mem_iff.mpr hr)
  · rw [← hpages]
    exact h.foreign
  · rw [hsame.nodes _ (h.headPage (hheads hva)).1.pathOf_mem]
    exact h.present va (hheads hva)

/-! New pages. -/

theorem PagedInv.fresh (h : PagedInv managed limit arr k out freed free others P)
    (hnew : NewPages managed limit live base num f k.mmu u) :
    (k.flat (heapRanges k.added out)).mmu.Fresh base num := by
  obtain ⟨Q, hinv⟩ := hnew.inv
  have hlow := h.vm.pages.base_le
  have hhigh := hinv.pages.top_le
  have hal := h.vm.pages.top_aligned
  have htop := hnew.top
  obtain rfl := hnew.base_eq
  refine ⟨fun hz => ?_, hal, ?_, fun r hr => Or.inl (h.below r hr)⟩
  · have hzero : k.mmu.kernHeapTop.toNat = 0 := congrArg BitVec.toNat hz
    omega
  · simp only [Region.Fits, rangeRegion]
    omega

theorem PagedInv.extend (h : PagedInv managed limit arr k out freed free others P)
    (hnew : NewPages managed limit (others ∪ heapPages (heapRanges k.added out)) base num f k.mmu u)
    (hsame : Rewritten u k'.mmu)
    (hR : ((base, num) :: heapRanges k.added out).Perm (heapRanges k'.added out'))
    (hheads : headPages k'.added out' ⊆ insert base (headPages k.added out))
    (hheap : HeapInv arr (k'.flat (heapRanges k'.added out')) out' freed' free') :
    ∃ Q, PagedInv managed limit arr k' out' freed' free' others Q := by
  have hfresh := h.fresh hnew
  obtain ⟨Q, hinv⟩ := hnew.inv
  have hpages := (heapPages_perm hR).symm.trans (heapPages_cons _ _)
  have htop := hnew.top
  have hhigh := hinv.pages.top_le
  have hbase := hnew.base_eq
  have hnotin : ∀ va ∈ others ∪ heapPages (heapRanges k.added out),
      va ∉ pageRange base num.toNat := by
    intro va hva hm
    have hlt := (h.vm.pages.range va hva).2
    have hge := (pageRange_toNat (by rw [hbase]; omega) hm).1
    rw [hbase] at hge
    omega
  refine ⟨Q, ?_, hheap, ?_, fun r hr => ?_, ?_, fun va hva => ?_⟩
  · rw [hpages, ← Set.union_assoc]
    exact hsame.inv _ _ _ _ hinv
  · refine (hR.pairwise_iff Region.Apart.symm).mp (List.pairwise_cons.mpr ⟨fun r hr => ?_, h.apart⟩)
    exact (hfresh.2.2.2 r hr).symm
  · rw [hsame.top, htop]
    rcases List.mem_cons.mp (hR.mem_iff.mpr hr) with rfl | hr
    · rw [hbase]
    · exact (h.below r hr).trans (Nat.le_add_right _ _)
  · rw [hpages, Set.disjoint_union_right]
    exact ⟨h.foreign, Set.disjoint_left.mpr fun va hva => hnotin va (Or.inl hva)⟩
  · rcases hheads hva with rfl | hva
    · have hpage : IsPage va := by
        refine (hinv.pages.range va (Or.inr (mem_pageRange_self ?_))).1
        exact heapRanges_pos (hR.mem_iff.mp List.mem_cons_self)
      rw [hsame.nodes _ hpage.pathOf_mem, hnew.node]
      exact Option.some_ne_none f
    · obtain ⟨hpage, g, hg⟩ := h.headPage hva
      have hout := hnotin va (Or.inr (headPages_subset hva))
      rw [hsame.nodes _ hpage.pathOf_mem, (hnew.kept va hpage hout).node, hg]
      exact Option.some_ne_none g

theorem NewPages.takenPages (h : NewPages managed limit live base num f s u)
    (hinv : VmInv managed limit s live P) (hsame : Rewritten u s') :
    takenPages s s' = pageRange base num.toNat := by
  obtain ⟨Q, hinv'⟩ := h.inv
  have htop := h.top
  have hhigh := hinv'.pages.top_le
  have hbase := h.base_eq
  ext va
  constructor
  · rintro ⟨hpage, hold, hnew⟩
    by_contra hout
    rw [hsame.pageStatus hpage, (h.kept va hpage hout).pageStatus hpage.l4Index_ne_zero] at hnew
    exact hnew hold
  · intro hva
    have hpage := (hinv'.pages.range va (Or.inr hva)).1
    have hdead : va ∉ live := by
      intro hm
      have hlt := (hinv.pages.range va hm).2
      have hge := (pageRange_toNat (by rw [hbase]; omega) hva).1
      rw [hbase] at hge
      omega
    refine ⟨hpage, hinv.pages.pageStatus_of_dead hpage hdead, ?_⟩
    rw [hsame.pageStatus hpage]
    exact h.taken va hva

end SkipOS
