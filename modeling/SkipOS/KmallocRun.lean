import SkipOS.KmallocOps
import Mathlib.Logic.Relation

/-! Runs of the heap after `kmalloc_init`, and the counter `avail`: `kfree` puts a chunk on
its list without counting it. -/

namespace SkipOS

open Mem Exec

/-- The kernel, the blocks handed out and the chunks given back so far to each pool. -/
structure HeapState where
  kernel : Kernel Flat
  out : List Alloc
  freed : Fin 7 → Nat

/-- A call that returns, or one byte written by a client. Requested sizes meet `sizes`, and
the holder of a block writes in `writable` of it. -/
inductive HeapStep (arr : PoolArr) (sizes : Word → Prop) (writable : Alloc → Set Word) :
    HeapState → HeapState → Prop
  | kmalloc {x : HeapState} {s' : Kernel Flat} {ptr : Word} (size : Word)
      (place : Flat → Word → Placement) (hsize : sizes size)
      (hrun : kmalloc (flatMmu place) arr size x.kernel = .ok ptr s') :
      HeapStep arr sizes writable x ⟨s', ⟨ptr, size⟩ :: x.out, x.freed⟩
  | kfree {x : HeapState} {s' : Kernel Flat} (a : Alloc) (place : Flat → Word → Placement)
      (ha : a ∈ x.out) (hrun : kfree (flatMmu place) arr a.ptr x.kernel = .ok () s') :
      HeapStep arr sizes writable x ⟨s', x.out.erase a, freedAfter x.freed a⟩
  | write {x : HeapState} (a : Alloc) (b : Word) (v : Byte) (ha : a ∈ x.out) (hb : b ∈ writable a) :
      HeapStep arr sizes writable x
        ⟨x.kernel.withMem (x.kernel.mmu.mem.storeByte b v), x.out, x.freed⟩

abbrev HeapRun (arr : PoolArr) (sizes : Word → Prop) (writable : Alloc → Set Word) :=
  Relation.ReflTransGen (HeapStep arr sizes writable)

/-- `kmalloc_init` has returned; before it the statics were zero. -/
def Initialized (s : Kernel Flat) : Prop :=
  ∃ place s0, (∀ i, s0.pools i = ⟨0, 0⟩) ∧ s0.added = [] ∧ kmallocInit (flatMmu place) s0 = .ok () s

def heapStart (s : Kernel Flat) : HeapState := ⟨s, [], fun _ => 0⟩

/-- `avail` is the number of chunks on the free list. -/
def AvailCounts (s : Kernel Flat) (i : Fin 7) : Prop :=
  ∃ l, LinkedList s.mmu.mem.load64 0 (s.pools i).head l ∧ (s.pools i).avail.toNat = l.length

variable {arr : PoolArr} {s s' s0 : Kernel Flat} {out : List Alloc} {freed : Fin 7 → Nat}
  {free : FreeLists} {i : Fin 7} {place : Flat → Word → Placement} {x y : HeapState}
  {sizes : Word → Prop} {writable : Alloc → Set Word}

theorem HeapInv.start (arr : PoolArr) (hpools : ∀ i, s.pools i = ⟨0, 0⟩) (hadded : s.added = []) :
    HeapInv arr s [] (fun _ => 0) fun _ => [] := by
  have hblocks : blocks [] (fun _ => []) = [] := by simp [blocks, chunks]
  refine ⟨fun i => ?_, fun i => ?_, ?_, ?_, by simp, by simp, by simp, by simp [hadded], by simp⟩
  · rw [hpools]
    rfl
  · rw [hpools]
    rfl
  · rw [hblocks]
    exact List.Pairwise.nil
  · rw [hblocks]
    simp

/-- Pools that count no chunk are not changed before their page is added. -/
theorem initLoop_cons {σ : Type} {M : Mmu σ} {k : Kernel σ} (h : (k.pools i).avail = 0)
    (is : List (Fin 7)) :
    initLoop M (i :: is) k = (addPage M i >>= fun _ => initLoop M is) k := by
  have hsame : Function.update k.pools i { k.pools i with avail := 0 } = k.pools := by
    rw [← h, Function.update_eq_self]
  rw [initLoop, setPool, bind_modify, hsame]

theorem HeapInv.initLoop {is : List (Fin 7)} {u : Unit} (h : HeapInv arr s out freed free)
    (hnd : is.Nodup) (havail : ∀ i ∈ is, (s.pools i).avail = 0)
    (hrun : initLoop (flatMmu place) is s = .ok u s') :
    ∃ free', HeapInv arr s' out freed free' := by
  induction is generalizing s free with
  | nil =>
    obtain ⟨-, rfl⟩ : u = () ∧ s = s' := by simpa [SkipOS.initLoop] using hrun
    exact ⟨free, h⟩
  | cons i is ih =>
    obtain ⟨hi, hnd⟩ := List.nodup_cons.mp hnd
    have hzero : (s.pools i).avail = 0 := havail i List.mem_cons_self
    rw [initLoop_cons hzero] at hrun
    obtain ⟨_, s1, hadd, hrest⟩ := bind_eq_ok.mp hrun
    obtain ⟨p, hfresh, rfl⟩ := addPage_eq_ok hadd
    refine ih (h.addPage hzero hfresh) hnd (fun j hj => ?_) hrest
    have hne : j ≠ i := by
      rintro rfl
      exact hi hj
    simp only [pageAdded, Function.update_of_ne hne]
    exact havail j (List.mem_cons_of_mem _ hj)

theorem Initialized.inv (h : Initialized s) (arr : PoolArr) :
    ∃ free, HeapInv arr s [] (fun _ => 0) free := by
  obtain ⟨place, s0, hpools, hadded, hrun⟩ := h
  refine (HeapInv.start arr hpools hadded).initLoop (List.nodup_finRange 7) (fun i _ => ?_) hrun
  rw [hpools]

theorem HeapStep.inv (hw : ∀ a : Alloc, sizes a.size → writable a ⊆ a.data)
    (hstep : HeapStep arr sizes writable x y)
    (hx : (∃ free, HeapInv arr x.kernel x.out x.freed free) ∧ ∀ a ∈ x.out, sizes a.size) :
    (∃ free, HeapInv arr y.kernel y.out y.freed free) ∧ ∀ a ∈ y.out, sizes a.size := by
  obtain ⟨⟨free, h⟩, hsizes⟩ := hx
  cases hstep with
  | kmalloc size place hsize hrun =>
    exact ⟨h.of_kmalloc hrun, List.forall_mem_cons.mpr ⟨hsize, hsizes⟩⟩
  | kfree a place ha hrun =>
    obtain ⟨s1, free', hrun', hinv⟩ := h.of_kfree ha place
    obtain ⟨-, rfl⟩ := EStateM.Result.ok.inj (hrun'.symm.trans hrun)
    exact ⟨⟨free', hinv⟩, fun b hb => hsizes b (List.mem_of_mem_erase hb)⟩
  | write a b v ha hb => exact ⟨⟨free, h.of_write ha (hw a (hsizes a ha) hb) v⟩, hsizes⟩

theorem HeapRun.inv (hinit : Initialized s0) (hw : ∀ a : Alloc, sizes a.size → writable a ⊆ a.data)
    (hrun : HeapRun arr sizes writable (heapStart s0) x) :
    (∃ free, HeapInv arr x.kernel x.out x.freed free) ∧ ∀ a ∈ x.out, sizes a.size := by
  induction hrun with
  | refl => exact ⟨hinit.inv arr, by simp [heapStart]⟩
  | tail _ hstep ih => exact hstep.inv hw ih

/-- The counters fall short of the lists by the chunks given back. -/
theorem HeapInv.availCounts_iff (h : HeapInv arr s out freed free) (i : Fin 7) :
    AvailCounts s i ↔ freed i = 0 := by
  have hcount := h.count i
  constructor
  · rintro ⟨l, hl, hlen⟩
    rw [hl.unique (h.linked i)] at hlen
    omega
  · intro hz
    exact ⟨free i, h.linked i, by omega⟩

/-- In every run, clients writing anywhere in their blocks: `avail` counts the free lists,
and pages are taken only for empty ones, exactly as long as no chunk has been given back. -/
theorem avail_counts_iff (hinit : Initialized s0)
    (hrun : HeapRun arr (fun _ => True) Alloc.data (heapStart s0) x) :
    ((∀ i, AvailCounts x.kernel i) ∧
      ∀ i, (x.kernel.pools i).avail = 0 → (x.kernel.pools i).head = 0) ↔
    ∀ i, x.freed i = 0 := by
  obtain ⟨⟨free, h⟩, -⟩ := HeapRun.inv hinit (fun _ _ => subset_rfl) hrun
  constructor
  · intro hcounts i
    exact (h.availCounts_iff i).mp (hcounts.1 i)
  · intro hz
    refine ⟨fun i => (h.availCounts_iff i).mpr (hz i), fun i havail => ?_⟩
    have hcount := h.count i
    have hnone : (0 : Word).toNat = 0 := rfl
    rw [havail, hz i, hnone] at hcount
    exact (h.linked i).eq_null_iff.mpr (List.eq_nil_of_length_eq_zero hcount.symm)

/-- Single pages one after the other from the heap base on. -/
def pagesUpwards (s : Flat) (_num : Word) : Placement :=
  ⟨0x10000000000 + 0x1000 * BitVec.ofNat 64 s.ranges.length, fun _ => 0⟩

def samplePools : PoolArr := ⟨0x5000, by decide⟩

def zeroKernel : Kernel Flat := ⟨fun _ => ⟨0, 0⟩, ⟨fun _ => 0, []⟩, []⟩

@[irreducible] def readyKernel : Kernel Flat := final (kmallocInit (flatMmu pagesUpwards) zeroKernel)

@[irreducible] def oneTaken : Kernel Flat := final (kmalloc (flatMmu pagesUpwards) samplePools 1 readyKernel)

def oneBlock : Alloc := ⟨0x10000000010, 1⟩

theorem readyKernel_returned :
    kmallocInit (flatMmu pagesUpwards) zeroKernel = .ok () readyKernel := by
  delta readyKernel
  exact eq_ok_of_returned (by decide +kernel)

theorem readyKernel_initialized : Initialized readyKernel :=
  ⟨pagesUpwards, zeroKernel, fun _ => rfl, rfl, readyKernel_returned⟩

theorem oneTaken_returned :
    kmalloc (flatMmu pagesUpwards) samplePools 1 readyKernel = .ok oneBlock.ptr oneTaken := by
  delta oneTaken
  exact eq_ok_of_returned (by decide +kernel)

theorem oneTaken_run (sizes : Word → Prop) (writable : Alloc → Set Word) (hsize : sizes 1) :
    HeapRun samplePools sizes writable (heapStart readyKernel)
      ⟨oneTaken, [oneBlock], fun _ => 0⟩ := by
  rw [heapStart]
  exact .single (.kmalloc 1 pagesUpwards hsize oneTaken_returned)

theorem avail_counts_taken : AvailCounts oneTaken 0 := by
  have hrun := oneTaken_run (fun _ => True) Alloc.data trivial
  exact ((avail_counts_iff readyKernel_initialized hrun).mpr fun _ => rfl).1 0

/-- One chunk taken and given back: 128 chunks, 127 counted. -/
theorem avail_counts_fails : ¬ ∀ (arr : PoolArr) (s0 : Kernel Flat) (x : HeapState), Initialized s0 →
    HeapRun arr (fun _ => True) Alloc.data (heapStart s0) x → ∀ i, AvailCounts x.kernel i := by
  intro h
  have hrun := oneTaken_run (fun _ => True) Alloc.data trivial
  obtain ⟨⟨free, hinv⟩, -⟩ := HeapRun.inv readyKernel_initialized (fun _ _ => subset_rfl) hrun
  obtain ⟨s', free', hfree, hinv'⟩ := hinv.of_kfree (List.mem_singleton_self oneBlock) pagesUpwards
  have hcounts := h samplePools readyKernel _ readyKernel_initialized
    (hrun.tail (.kfree oneBlock pagesUpwards (List.mem_singleton_self _) hfree)) 0
  have hfreed : freedAfter (fun _ => 0) oneBlock 0 = 1 := by decide
  have hzero := (hinv'.availCounts_iff 0).mp hcounts
  rw [hfreed] at hzero
  exact Nat.one_ne_zero hzero

end SkipOS
