import SkipOS.PagedSupply

/-! Blocks hold what was written to them: over whole runs of the heap, with page faults and other
users of the virtual page allocator anywhere, it is a map from addresses to the bytes last written
there. -/

namespace SkipOS

open Mem Exec Walk

/-- The holder of a block reads one byte. -/
def loadByteAt (a : Word) : Exec Machine Byte := do
  let p ← touch a
  let s ← get
  return s.mem p

/-- The bytes of the blocks, headers included. -/
def blockBytes (out : List Alloc) : Set Word := {b | ∃ a ∈ out, b ∈ a.block.bytes}

/-- Bytes in pages that are present stay there. -/
def BytesKept (X : Set Word) (s s' : Machine) : Prop :=
  ∀ b ∈ X, s.node (pathOf b) ≠ none → s'.node (pathOf b) ≠ none ∧ s'.virt b = s.virt b

variable {managed : List Word} {limit base f num p size ptr va b : Word} {s s' t u : Machine}
  {P Q : Pool} {live others : Set Word} {fuel : Nat} {k k' : Kernel Machine} {arr : PoolArr}
  {out : List Alloc} {freed : Fin 7 → Nat} {free : FreeLists} {i : Fin 7} {a : Alloc} {w : Unit}
  {X Y : Set Word} {v : Byte}

theorem BytesKept.refl (s : Machine) : BytesKept X s s := fun _ _ hn => ⟨hn, rfl⟩

theorem BytesKept.trans (h : BytesKept X s t) (h' : BytesKept X t u) : BytesKept X s u := by
  intro b hb hn
  obtain ⟨hn', he⟩ := h b hb hn
  obtain ⟨hn'', he'⟩ := h' b hb hn'
  exact ⟨hn'', he'.trans he⟩

theorem BytesKept.mono (h : BytesKept X s t) (hsub : Y ⊆ X) : BytesKept Y s t :=
  fun b hb => h b (hsub hb)

theorem BytesKept.of_pages
    (h : ∀ b ∈ X, s.node (pathOf b) ≠ none → PageKept s s' (pageBase b)) : BytesKept X s s' := by
  intro b hb hn
  have hkept := h b hb hn
  refine ⟨?_, hkept.virt⟩
  have hnode := hkept.node
  rw [pathOf_pageBase] at hnode
  rwa [hnode]

theorem BytesKept.of_rewritten (hsame : Rewritten s s') (hpage : ∀ b ∈ X, IsPage (pageBase b))
    (hmem : Set.EqOn s'.virt s.virt X) : BytesKept X s s' := by
  intro b hb hn
  refine ⟨?_, hmem hb⟩
  rw [← pathOf_pageBase] at hn ⊢
  rwa [hsame.nodes _ (hpage b hb).pathOf_mem]

/-! The blocks and their pages. -/

theorem PagedInv.pages_of_blocks (h : PagedInv managed limit arr k out freed free others P) :
    ∀ b ∈ blockBytes out, IsPage (pageBase b) := by
  rintro b ⟨a, ha, hb⟩
  exact h.page_of_block ha hb

theorem PagedInv.pageBase_mem (h : PagedInv managed limit arr k out freed free others P)
    (hb : b ∈ blockBytes out) : pageBase b ∈ heapPages (heapRanges k.added out) := by
  obtain ⟨a, ha, hb⟩ := hb
  obtain ⟨x, hx, hfits, hlo, hhi⟩ := h.heap.housed _ (block_mem ha)
  have hfirst := h.heapPage ⟨x, hx, mem_pageRange_self (heapRanges_pos hx)⟩
  have hal := hfirst.1
  simp only [Region.Fits, rangeRegion] at hfits hlo hhi
  rw [Region.bytes, mem_span] at hb
  have hge : x.1.toNat ≤ b.toNat := by bv_omega
  have hlt : b.toNat < x.1.toNat + 4096 * x.2.toNat := by bv_omega
  refine ⟨x, hx, (b.toNat - x.1.toNat) / 4096, by omega, BitVec.eq_of_toNat_eq ?_⟩
  rw [BitVec.toNat_add, BitVec.toNat_ofNat, toNat_pageBase]
  omega

/-- Blocks lie apart from what lies apart from all of them. -/
theorem HeapInv.blockBytes_disjoint {x : Kernel Flat} {r : Region}
    (h : HeapInv arr x out freed free) (hr : Hole x out free r) : blockBytes out ⊆ r.bytesᶜ := by
  rintro b ⟨a, ha, hb⟩
  exact h.disjoint_hole hr _ (block_mem ha) hb

theorem NewPages.not_mem (hnew : NewPages managed limit live base num f s u)
    (h : VmInv managed limit s live P) (hva : va ∈ live) : va ∉ pageRange base num.toNat := by
  obtain ⟨Q, hinv⟩ := hnew.inv
  have htop := hnew.top
  have hhigh := hinv.pages.top_le
  have hbase := hnew.base_eq
  intro hm
  have hlt := (h.pages.range va hva).2
  have hge := (pageRange_toNat (by rw [hbase]; omega) hm).1
  rw [hbase] at hge
  omega

theorem PagedInv.kept_of_newPages (h : PagedInv managed limit arr k out freed free others P)
    (hnew : NewPages managed limit (others ∪ heapPages (heapRanges k.added out)) base num f k.mmu u) :
    BytesKept (blockBytes out) k.mmu u := by
  refine .of_pages fun b hb _ => ?_
  exact hnew.kept _ (h.pages_of_blocks b hb) (hnew.not_mem h.vm (Or.inr (h.pageBase_mem hb)))

/-! `kmalloc` -/

theorem pageAdded_eqOn {x : Kernel Flat} {q : Placement} (hfits : q.base.toNat + 4096 ≤ 2 ^ 64) :
    Set.EqOn (pageAdded x i q).mmu.mem (x.withRange q 1).mmu.mem
      (rangeRegion (q.base, 1)).bytesᶜ := by
  obtain ⟨hn, -, hsize⟩ := numChunks_bounds i
  have hpage := (maxSize_bounds i).2.2
  have hpm := pageMem_eqOn (n := (numChunks i - 1).toNat) (m := (x.withRange q 1).mmu.mem) hsize
    (x.pools i).head (by rw [hn, hpage]; exact hfits)
  rwa [hn, hpage] at hpm

theorem pagesTaken_eqOn {x : Kernel Flat} {q : Placement} (hnum : 1 ≤ num.toNat) :
    Set.EqOn (pagesTaken x q num).mmu.mem (x.withRange q num).mmu.mem
      (rangeRegion (q.base, num)).bytesᶜ := by
  refine header_eqOn (r := rangeRegion (q.base, num)) ?_
  simp only [rangeRegion]
  omega

theorem PagedInv.kept_of_addPage (h : PagedInv managed limit arr k out freed free others P)
    (hrun : addPage (pagedMmu fuel) i k = .ok w k') (hnull : .pfAlloc 0 ∉ k'.mmu.events) :
    BytesKept (blockBytes out) k.mmu k'.mmu := by
  obtain ⟨base, f, u, hnew, hflat, hsame⟩ := addPage_spec h.vm hrun hnull (heapRanges k.added out)
  have hfresh := h.fresh hnew
  obtain ⟨hinv, hhole⟩ := h.heap.withRange (p := ⟨base, u.virt⟩) hfresh
  refine (h.kept_of_newPages hnew).trans (.of_rewritten hsame h.pages_of_blocks ?_)
  have hmem : k'.mmu.virt = (pageAdded (k.flat (heapRanges k.added out)) i ⟨base, u.virt⟩).mmu.mem :=
    congrArg (fun x : Kernel Flat => x.mmu.mem) hflat
  have hold : ((k.flat (heapRanges k.added out)).withRange ⟨base, u.virt⟩ 1).mmu.mem = u.virt :=
    congrArg Flat.mem (hnew.withRange _)
  have hwritten := pageAdded_eqOn (x := k.flat (heapRanges k.added out)) (q := ⟨base, u.virt⟩)
    (i := i) hfresh.2.2.1
  rw [hold, ← hmem] at hwritten
  exact hwritten.mono (hinv.blockBytes_disjoint hhole)

theorem PagedInv.kept_of_chunk (h : PagedInv managed limit arr k out freed free others P)
    {bytesNeeded : Word} (havail : (k.pools i).avail ≠ 0)
    (hflat : k'.flat (heapRanges k.added out) =
      chunkTaken arr (k.flat (heapRanges k.added out)) i bytesNeeded)
    (hsame : Rewritten k.mmu k'.mmu) : BytesKept (blockBytes out) k.mmu k'.mmu := by
  obtain ⟨l, hl⟩ := h.heap.exists_head havail
  obtain ⟨hrest, hhole, -⟩ := h.heap.take_chunk hl havail
  have hlen := (maxSize_bounds i).1
  have hmem : k'.mmu.virt =
      (chunkTaken arr (k.flat (heapRanges k.added out)) i bytesNeeded).mmu.mem :=
    congrArg (fun x : Kernel Flat => x.mmu.mem) hflat
  refine .of_rewritten hsame h.pages_of_blocks ?_
  rw [hmem]
  exact (header_eqOn (r := chunk i (k.pools i).head) (by simp only [chunk]; omega)).mono
    (hrest.blockBytes_disjoint ⟨hhole.housed, hhole.apart⟩)

theorem PagedInv.kept_of_large (h : PagedInv managed limit arr k out freed free others P)
    (hbest : getBestPool (size + sizeofHeader) = none)
    (hrun : kmalloc (pagedMmu fuel) arr size k = .ok ptr k') (hnull : .pfAlloc 0 ∉ k'.mmu.events) :
    BytesKept (blockBytes out) k.mmu k'.mmu := by
  obtain ⟨hsize, base, t, p, u, halloc, htouch, hgrow⟩ := kmalloc_large_touched hbest hrun
  have hnum := newPageCnt_pos (size + sizeofHeader)
  obtain ⟨f, rfl, hnew⟩ := newPages_spec h.vm hnum halloc htouch fun hm => hnull (hgrow.subset hm)
  obtain ⟨k1, hrun', hflat, hsame⟩ := kmalloc_large arr hsize hbest halloc htouch hnew
    (heapRanges k.added out)
  obtain ⟨rfl, rfl⟩ := EStateM.Result.ok.inj (hrun'.symm.trans hrun)
  obtain ⟨hinv, hhole⟩ := h.heap.withRange (p := ⟨base, u.virt⟩) (h.fresh hnew)
  refine (h.kept_of_newPages hnew).trans (.of_rewritten hsame h.pages_of_blocks ?_)
  have hmem : k1.mmu.virt = (pagesTaken (k.flat (heapRanges k.added out)) ⟨base, u.virt⟩
      (newPageCnt (size + sizeofHeader))).mmu.mem :=
    congrArg (fun x : Kernel Flat => x.mmu.mem) hflat
  have hold : ((k.flat (heapRanges k.added out)).withRange ⟨base, u.virt⟩
      (newPageCnt (size + sizeofHeader))).mmu.mem = u.virt :=
    congrArg Flat.mem (hnew.withRange _)
  have hwritten := pagesTaken_eqOn (x := k.flat (heapRanges k.added out)) (q := ⟨base, u.virt⟩)
    (le_newPageCnt (size + sizeofHeader))
  rw [hold, ← hmem] at hwritten
  exact hwritten.mono (hinv.blockBytes_disjoint hhole)

theorem PagedInv.kept_of_kmalloc (h : PagedInv managed limit arr k out freed free others P)
    (hrun : kmalloc (pagedMmu fuel) arr size k = .ok ptr k') (hnull : .pfAlloc 0 ∉ k'.mmu.events) :
    BytesKept (blockBytes out) k.mmu k'.mmu := by
  cases hbest : getBestPool (size + sizeofHeader) with
  | none => exact h.kept_of_large hbest hrun hnull
  | some i =>
    obtain ⟨k1, free1, Q, h1, hwhence, havail, -, hflat, hsame⟩ := h.kmalloc_small hbest hrun hnull
    have hlast := h1.kept_of_chunk havail hflat hsame
    rcases hwhence with rfl | ⟨hadd, hnull1⟩
    · exact hlast
    · exact (h.kept_of_addPage hadd hnull1).trans hlast

/-! `kfree` -/

theorem blockBytes_erase : blockBytes (out.erase a) ⊆ blockBytes out := by
  rintro b ⟨c, hc, hb⟩
  exact ⟨c, List.mem_of_mem_erase hc, hb⟩

theorem PagedInv.kept_of_kfree (h : PagedInv managed limit arr k out freed free others P)
    (ha : a ∈ out) (hrun : kfree (pagedMmu fuel) arr a.ptr k = .ok w k') :
    BytesKept (blockBytes (out.erase a)) k.mmu k'.mmu := by
  cases hpool : a.pool with
  | none =>
    obtain ⟨s', hfree, -, hfreed⟩ := h.of_kfree_large ha hpool fuel
    obtain ⟨-, rfl⟩ := EStateM.Result.ok.inj (hfree.symm.trans hrun)
    have hlost := h.disown ha hpool
    have hforeign := hlost.foreign
    rw [Set.disjoint_union_left] at hforeign
    refine .of_pages fun b hb _ => hfreed.pages _ (hlost.pages_of_blocks b hb) fun hm => ?_
    exact Set.disjoint_left.mp hforeign.2 hm (hlost.pageBase_mem hb)
  | some i =>
    obtain ⟨hsize, hfirst⟩ := h.load_header ha fuel
    obtain ⟨page, hm, hlo, hhi⟩ := h.header_page ha
    obtain ⟨hpage, f, hf⟩ := h.headPage hm
    obtain ⟨s1, hstore, hvirt, hsame⟩ := store64_paged fuel h.vm hpage hf
      (WordIn.header hpage hlo hhi).1 (k.pools i).head
    have hfree := kfree_small (h.heap.ptr_ne_zero ha) hsize hfirst hpool
    rw [bind_of_ok (onMmu_of_ok hstore)] at hfree
    obtain ⟨-, rfl⟩ := EStateM.Result.ok.inj (hfree.symm.trans hrun)
    obtain ⟨hrest, hhole⟩ := h.heap.take_out ha
    refine .of_rewritten hsame (fun b hb => h.pages_of_blocks b (blockBytes_erase hb)) ?_
    have hspan : span a.base 8 ⊆ a.block.bytes :=
      Region.span_base_subset_bytes (r := a.block) (by have := a.le_block_len; omega)
    have hmem : Set.EqOn s1.virt k.mmu.virt a.block.bytesᶜ := by
      rw [hvirt]
      exact (store64_eqOn_compl _ _ _).mono (Set.compl_subset_compl.mpr hspan)
    exact hmem.mono (hrest.blockBytes_disjoint hhole)

/-! Writes, and other users of the virtual page allocator. -/

theorem Touched.bytesKept (h : PagedInv managed limit arr k out freed free others P)
    (ht : Touched managed limit live b f k.mmu u) : BytesKept (blockBytes out) k.mmu u := by
  refine .of_pages fun c hc hn => ?_
  by_cases he : pageBase c = pageBase b
  · have hsame : u = k.mmu := ht.same (by rwa [← pathOf_pageBase, ← he, pathOf_pageBase])
    rw [hsame]
    exact PageKept.refl _ _
  · exact ht.kept _ (h.pages_of_blocks c hc) he

theorem PagedInv.kept_of_write (h : PagedInv managed limit arr k out freed free others P)
    (ha : a ∈ out) (hb : b ∈ a.data) (hrun : storeByteAt b v k.mmu = .ok w s')
    (hnull : .pfAlloc 0 ∉ s'.events) :
    BytesKept (blockBytes out \ {b}) k.mmu s' ∧ s'.node (pathOf b) ≠ none ∧ s'.virt b = v := by
  have hpage := h.page_of_block ha (data_subset_block a hb)
  obtain ⟨p, u, htouch, hwrite⟩ := bind_eq_ok.mp hrun
  obtain rfl := modify_eq_ok.mp hwrite
  obtain ⟨f, rfl, ht⟩ := touch_spec h.vm hpage htouch hnull
  obtain ⟨Q, h1⟩ := h.of_touched ht
  have hnode : u.node (pathOf (pageBase b)) = some f := by
    rw [pathOf_pageBase]
    exact ht.node
  have hsame := h1.vm.rewritten hpage hnode (storeByte_eqOn_frame (offset_mem_frame f b) v u.mem)
  have hvirt := h1.vm.virt_storeByte hpage ht.node v
  refine ⟨((Touched.bytesKept h ht).mono Set.sdiff_subset).trans
    (.of_rewritten hsame (fun c hc => h.pages_of_blocks c hc.1) ?_), ?_, ?_⟩
  · intro c hc
    have hne : c ≠ b := hc.2
    rw [hvirt]
    simp [storeByte, hne]
  · rw [← pathOf_pageBase, hsame.nodes _ hpage.pathOf_mem, hnode]
    exact Option.some_ne_none f
  · rw [hvirt]
    simp [storeByte]

theorem PagedInv.kept_of_call {call : VmCall}
    (h : PagedInv managed limit arr k out freed free others P) (hal : call.Allowed k.mmu others)
    (hrun : call.exec fuel k.mmu = .ok w s') (hnull : .pfAlloc 0 ∉ s'.events) :
    BytesKept (blockBytes out) k.mmu s' := by
  refine .of_pages fun b hb hn => ?_
  have hm := h.pageBase_mem hb
  rw [← pathOf_pageBase] at hn
  exact VmCall.pageKept h.vm Set.subset_union_left hal hrun hnull (Or.inr hm)
    (fun ho => Set.disjoint_left.mp h.foreign ho hm) hn

/-! Runs with a record of what was written. -/

instance (a : Alloc) (b : Word) : Decidable (b ∈ a.data) := inferInstanceAs (Decidable (b ∈ span _ _))

/-- The bytes last written to blocks by their holders. -/
abbrev Record := Word → Option Byte

def Record.forget (w : Record) (a : Alloc) : Record := fun b => if b ∈ a.data then none else w b

/-- A step of the system, and what becomes of the record. -/
inductive RecordStep (arr : PoolArr) : SystemState × Record → SystemState × Record → Prop
  | kmalloc {x : SystemState} {w : Record} {k' : Kernel Machine} {ptr : Word} (fuel : Nat)
      (size : Word) (hrun : kmalloc (pagedMmu fuel) arr size x.kernel = .ok ptr k') :
      RecordStep arr (x, w) (⟨k', ⟨ptr, size⟩ :: x.out, x.others,
        Function.update x.taken ⟨ptr, size⟩ (takenPages x.machine k'.mmu)⟩, w)
  | kfree {x : SystemState} {w : Record} {k' : Kernel Machine} (fuel : Nat) (a : Alloc)
      (ha : a ∈ x.out) (hrun : kfree (pagedMmu fuel) arr a.ptr x.kernel = .ok () k') :
      RecordStep arr (x, w) (⟨k', x.out.erase a, x.others, x.taken⟩, w.forget a)
  | write {x : SystemState} {w : Record} {s' : Machine} (a : Alloc) (b : Word) (v : Byte)
      (ha : a ∈ x.out) (hb : b ∈ a.data) (hrun : storeByteAt b v x.machine = .ok () s') :
      RecordStep arr (x, w) (⟨{ x.kernel with mmu := s' }, x.out, x.others, x.taken⟩,
        Function.update w b (some v))
  | call {x : SystemState} {w : Record} {s' : Machine} (c : VmCall) (fuel : Nat)
      (hal : c.Allowed x.machine x.others) (hrun : c.exec fuel x.machine = .ok () s') :
      RecordStep arr (x, w)
        (⟨{ x.kernel with mmu := s' }, x.out, c.live x.machine x.others, x.taken⟩, w)

abbrev RecordRun (arr : PoolArr) := Relation.ReflTransGen (RecordStep arr)

/-- What is recorded belongs to a block and is in memory. -/
def Recorded (x : SystemState) (w : Record) : Prop :=
  ∀ b v, w b = some v → (∃ a ∈ x.out, b ∈ a.data) ∧ x.machine.node (pathOf b) ≠ none ∧
    x.machine.virt b = v

variable {x y x0 : SystemState} {w' : Record} {z z' : SystemState × Record} {B : BootPool}
  {r r' : Record}

theorem Record.forget_eq_some : r.forget a b = some v ↔ b ∉ a.data ∧ r b = some v := by
  rw [Record.forget]
  split <;> simp [*]

theorem RecordStep.step (h : RecordStep arr z z') : SystemStep arr z.1 z'.1 := by
  cases h with
  | kmalloc fuel size hrun => exact .kmalloc fuel size hrun
  | kfree fuel a ha hrun => exact .kfree fuel a ha hrun
  | write a b v ha hb hrun => exact .write a b v ha hb hrun
  | call c fuel hal hrun => exact .call c fuel hal hrun

theorem RecordRun.run (h : RecordRun arr z z') : SystemRun arr z.1 z'.1 := by
  induction h with
  | refl => exact .refl
  | tail _ hstep ih => exact ih.tail hstep.step

theorem Recorded.of_kept (h : Recorded x r) {X : Set Word}
    (hkept : BytesKept X x.machine y.machine)
    (hsub : ∀ b v, r' b = some v → r b = some v ∧ b ∈ X ∧ ∃ a ∈ y.out, b ∈ a.data) :
    Recorded y r' := by
  intro b v hb
  obtain ⟨hold, hX, hout⟩ := hsub b v hb
  obtain ⟨-, hn, hv⟩ := h b v hold
  obtain ⟨hn', hv'⟩ := hkept b hX hn
  exact ⟨hout, hn', hv'.trans hv⟩

theorem Recorded.mem_block (h : Recorded x r) (hb : r b = some v) : b ∈ blockBytes x.out := by
  obtain ⟨⟨a, ha, hd⟩, -⟩ := h b v hb
  exact ⟨a, ha, data_subset_block a hd⟩

theorem RecordStep.recorded (hstep : RecordStep arr z z')
    (hinv : SystemInv managed limit arr z.1) (hnull : .pfAlloc 0 ∉ z'.1.machine.events)
    (h : Recorded z.1 z.2) : Recorded z'.1 z'.2 := by
  obtain ⟨⟨freed, free, P, hP⟩, -⟩ := hinv
  cases hstep with
  | kmalloc fuel size hrun =>
    refine h.of_kept (hP.kept_of_kmalloc hrun hnull) fun b v hb => ⟨hb, h.mem_block hb, ?_⟩
    obtain ⟨⟨a, ha, hd⟩, -⟩ := h b v hb
    exact ⟨a, List.mem_cons_of_mem _ ha, hd⟩
  | @kfree x r k' fuel a ha hrun =>
    refine h.of_kept (hP.kept_of_kfree ha hrun) fun b v hb => ?_
    obtain ⟨hd, hb⟩ := Record.forget_eq_some.mp hb
    obtain ⟨⟨c, hc, hd'⟩, -⟩ := h b v hb
    have hne : c ≠ a := by
      rintro rfl
      exact hd hd'
    have hc' : c ∈ x.out.erase a := (List.mem_erase_of_ne hne).mpr hc
    exact ⟨hb, ⟨c, hc', data_subset_block c hd'⟩, c, hc', hd'⟩
  | @write x r s' a c v ha hc hrun =>
    obtain ⟨hkept, hn, hv⟩ := hP.kept_of_write ha hc hrun hnull
    intro b v' hb
    replace hb : Function.update r c (some v) b = some v' := hb
    by_cases he : b = c
    · subst he
      rw [Function.update_self] at hb
      cases hb
      exact ⟨⟨a, ha, hc⟩, hn, hv⟩
    · rw [Function.update_of_ne he] at hb
      obtain ⟨hout, hn', hv'⟩ := h b v' hb
      obtain ⟨hn'', hv''⟩ := hkept b ⟨h.mem_block hb, he⟩ hn'
      exact ⟨hout, hn'', hv''.trans hv'⟩
  | call c fuel hal hrun =>
    exact h.of_kept (hP.kept_of_call hal hrun hnull)
      fun b v hb => ⟨hb, h.mem_block hb, (h b v hb).1⟩

theorem RecordRun.recorded (hstart : SystemStarted B x0)
    (hrun : RecordRun arr (x0, fun _ => none) z) (hnull : .pfAlloc 0 ∉ z.1.machine.events) :
    Recorded z.1 z.2 := by
  induction hrun with
  | refl =>
    intro b v hb
    cases hb
  | tail hbefore hstep ih =>
    have hnull' := fun hm => hnull (hstep.step.grows.subset hm)
    obtain ⟨limit, hinv⟩ := SystemRun.inv hstart (RecordRun.run hbefore) hnull'
    exact hstep.recorded hinv hnull (ih hnull')

/-- In every run of `kmalloc`, `kfree`, writes to blocks, page faults and other users, blocks do not
meet, and a byte of a block that was written reads back as last written, without a fault. -/
theorem heap_holds_writes (hstart : SystemStarted B x0)
    (hrun : RecordRun arr (x0, fun _ => none) (x, r)) (hnull : .pfAlloc 0 ∉ x.machine.events) :
    x.out.Pairwise (fun a c => Disjoint a.data c.data) ∧
    ∀ b v, r b = some v → loadByteAt b x.machine = .ok v x.machine := by
  obtain ⟨limit, ⟨freed, free, P, h⟩, -⟩ := SystemRun.inv hstart hrun.run hnull
  refine ⟨?_, fun b v hb => ?_⟩
  · have hapart := (List.pairwise_append.mp h.heap.apart).1
    rw [List.pairwise_map] at hapart
    refine List.Pairwise.imp_of_mem ?_ hapart
    intro a c ha hc hac
    have hdis := hac.disjoint (h.heap.housed _ (block_mem ha)).fits
      (h.heap.housed _ (block_mem hc)).fits
    exact hdis.mono (data_subset_block a) (data_subset_block c)
  · have hrec := RecordRun.recorded hstart hrun hnull
    obtain ⟨-, hn, hv⟩ := hrec b v hb
    have hpage := h.pages_of_blocks b (hrec.mem_block hb)
    obtain ⟨f, hf⟩ := Option.ne_none_iff_exists'.mp hn
    rw [virt_of_node hpage hf] at hv
    rw [loadByteAt, bind_of_ok (touch_of_node hpage hf), bind_get, hv]
    rfl

/-- A block of two pages, with one byte written. -/
theorem heap_holds_writes_large : ∃ k k1 s, kmallocInit (pagedMmu 3) (zeroHeap (initMachine fortyBoot)) =
      .ok () k ∧
    kmalloc (pagedMmu 3) samplePools 5000 k = .ok 0x10000007010 k1 ∧
    storeByteAt 0x10000007010 0x41 k1.mmu = .ok () s ∧
    loadByteAt 0x10000007010 s = .ok 0x41 s := by
  obtain ⟨k, hinit, hnull, htop, hout⟩ := fortyBoot_pools
  have hstart : SystemStarted fortyBoot ⟨k, [], ∅, fun _ => ∅⟩ :=
    ⟨_, 3, k, fortyBoot_booted, hinit, rfl⟩
  obtain ⟨limit, ⟨freed, free, P, hinv⟩, -⟩ := hstart.inv samplePools hnull
  have hvm : VmInv fortyBoot.managed limit k.mmu (∅ ∪ heapPages (heapRanges k.added [])) P :=
    hinv.vm
  have hcnt : (newPageCnt (5000 + sizeofHeader)).toNat = 2 := by decide
  obtain ⟨k1, htaken, hnull1⟩ := kmalloc_large_of_room samplePools hvm hnull (Nat.le_refl 3)
    (by decide : (0 : Word) < 5000) (by decide) (by rw [htop, hcnt]; decide)
    (by rw [fortyBoot_length, hcnt]; omega)
  have hptr : k.mmu.kernHeapTop + sizeofHeader = 0x10000007010 := by
    rw [htop]
    decide
  rw [hptr] at htaken
  have hfirst : RecordRun samplePools (⟨k, [], ∅, fun _ => ∅⟩, fun _ => none) _ :=
    .single (.kmalloc 3 5000 htaken)
  obtain ⟨limit', ⟨freed', free', P', hinv'⟩, -⟩ := SystemRun.inv hstart hfirst.run hnull1
  -- the first page of the block holds its header and is present
  have hhead : (0x10000007000 : Word) ∈ headPages k1.added [⟨0x10000007010, 5000⟩] :=
    Or.inr ⟨_, List.mem_singleton_self _, by decide, by decide⟩
  obtain ⟨hpage, f, hf⟩ := hinv'.headPage hhead
  have hbase : pageBase 0x10000007010 = 0x10000007000 := by decide
  rw [← hbase] at hpage hf
  rw [pathOf_pageBase] at hf
  have hwrite := bind_of_ok (touch_of_node hpage hf)
    fun p => modify fun s : Machine => { s with mem := s.mem.storeByte p 0x41 }
  have hrun := hfirst.tail (.write (w := _) ⟨0x10000007010, 5000⟩ 0x10000007010 0x41
    (List.mem_singleton_self _) (by decide) hwrite)
  exact ⟨k, k1, _, hinit, htaken, hwrite,
    (heap_holds_writes hstart hrun hnull1).2 _ _ (Function.update_self _ _ _)⟩

end SkipOS
