import SkipOS.Lib.Region
import SkipOS.PfAlloc
import Mathlib.Logic.Function.Basic

/-! The allocator of `kmalloc.c`, over any memory and virtual page allocator. Free chunks
hold the link to the next one, and a block that is handed out starts with its header. -/

namespace SkipOS

open Mem Exec

/-- What the allocator uses of memory and of the virtual page allocator. -/
structure Mmu (σ : Type) where
  load64 : Word → Exec σ Word
  store64 : Word → Word → Exec σ Unit
  allocPages : Word → Exec σ Word
  freePages : Word → Word → Exec σ Unit

/-- The members of `kmalloc_pool_t` that change. -/
structure KmallocPool where
  avail : Word
  head : Word

def maxSize : Fin 7 → Word
  | 0 => 32
  | 1 => 64
  | 2 => 128
  | 3 => 256
  | 4 => 512
  | 5 => 1024
  | 6 => 2048

def sizeofPool : Word := 24

def sizeofHeader : Word := 16

/-- Where `pool_arr` lies; no element of it is at NULL. -/
structure PoolArr where
  addr : Word
  ne_null : ∀ i : Fin 7, addr + sizeofPool * BitVec.ofNat 64 i ≠ 0

/-- `&pool_arr[i]` -/
def PoolArr.ptr (arr : PoolArr) (i : Fin 7) : Word := arr.addr + sizeofPool * BitVec.ofNat 64 i

structure Kernel (σ : Type) where
  pools : Fin 7 → KmallocPool
  mmu : σ
  /-- the pages added to each pool, newest first; a record that no code reads -/
  added : List (Fin 7 × Word)

def onMmu {σ α : Type} (x : Exec σ α) : Exec (Kernel σ) α :=
  zoom Kernel.mmu (fun m s => { s with mmu := m }) x

def setPool {σ : Type} (i : Fin 7) (f : KmallocPool → KmallocPool) : Exec (Kernel σ) Unit :=
  modify fun s => { s with pools := Function.update s.pools i (f (s.pools i)) }

def getBestPool (size : Word) : Option (Fin 7) := (List.finRange 7).find? fun i => size ≤ maxSize i

/-- The pool that a pointer into `pool_arr` designates. -/
def PoolArr.poolAt {σ : Type} (arr : PoolArr) (p : Word) : Exec (Kernel σ) (Fin 7) :=
  match (List.finRange 7).find? fun i => arr.ptr i = p with
  | some i => return i
  | none => throw .undefined

/-- The loop of `add_page`. -/
def linkChunks {σ : Type} (M : Mmu σ) (size : Word) : Nat → Word → Exec (Kernel σ) Word
  | 0, chunk => return chunk
  | n + 1, chunk => do
    onMmu (M.store64 chunk (chunk + size))
    let chunk ← onMmu (M.load64 chunk)
    linkChunks M size n chunk

def numChunks (i : Fin 7) : Word := pageSize / maxSize i

def addPage {σ : Type} (M : Mmu σ) (i : Fin 7) : Exec (Kernel σ) Unit := do
  let newPage ← onMmu (M.allocPages 1)
  modify fun s => { s with added := (i, newPage) :: s.added }
  let s ← get
  let oldHead := (s.pools i).head
  setPool i fun p => { p with head := newPage }
  let chunk ← linkChunks M (maxSize i) (numChunks i - 1).toNat newPage
  onMmu (M.store64 chunk oldHead)
  setPool i fun p => { p with avail := p.avail + numChunks i }

def initLoop {σ : Type} (M : Mmu σ) : List (Fin 7) → Exec (Kernel σ) Unit
  | [] => return ()
  | i :: is => do
    setPool i fun p => { p with avail := 0 }
    addPage M i
    initLoop M is

def kmallocInit {σ : Type} (M : Mmu σ) : Exec (Kernel σ) Unit := initLoop M (List.finRange 7)

def newPageCnt (bytesNeeded : Word) : Word := (bytesNeeded - 1) / pageSize + 1

def kmalloc {σ : Type} (M : Mmu σ) (arr : PoolArr) (size : Word) : Exec (Kernel σ) Word := do
  assert (0 < size)
  let bytesNeeded := size + sizeofHeader
  match getBestPool bytesNeeded with
  | none =>
    let newPage ← onMmu (M.allocPages (newPageCnt bytesNeeded))
    onMmu (M.store64 newPage 0)
    onMmu (M.store64 (newPage + 8) (newPageCnt bytesNeeded * pageSize))
    return newPage + sizeofHeader
  | some i =>
    let s ← get
    (if (s.pools i).avail = 0 then addPage M i else return ())
    let s ← get
    let newMem := (s.pools i).head
    let next ← onMmu (M.load64 newMem)
    setPool i fun p => { p with head := next }
    setPool i fun p => { p with avail := p.avail - 1 }
    onMmu (M.store64 newMem (arr.ptr i))
    onMmu (M.store64 (newMem + 8) bytesNeeded)
    return newMem + sizeofHeader

def kfree {σ : Type} (M : Mmu σ) (arr : PoolArr) (ptr : Word) : Exec (Kernel σ) Unit := do
  assert (ptr ≠ 0)
  let oldMem := ptr - sizeofHeader
  let size ← onMmu (M.load64 (oldMem + 8))
  let poolPtr ← onMmu (M.load64 oldMem)
  if poolPtr = 0 then onMmu (M.freePages oldMem (size / pageSize))
  else do
    let i ← arr.poolAt poolPtr
    let s ← get
    onMmu (M.store64 oldMem (s.pools i).head)
    setPool i fun p => { p with head := oldMem }

/-! Flat memory, with the page ranges handed out. -/

structure Flat where
  mem : Mem
  /-- base and number of pages -/
  ranges : List (Word × Word)

def rangeRegion (r : Word × Word) : Region := ⟨r.1, 4096 * r.2.toNat⟩

/-- `num` pages at `base` that no other range meets. -/
def Flat.Fresh (s : Flat) (base num : Word) : Prop :=
  base ≠ 0 ∧ base.toNat % 4096 = 0 ∧ (rangeRegion (base, num)).Fits ∧
    ∀ r ∈ s.ranges, (rangeRegion r).Apart (rangeRegion (base, num))

instance (s : Flat) (base num : Word) : Decidable (s.Fresh base num) :=
  haveI := List.decidableBAll (fun r => (rangeRegion r).Apart (rangeRegion (base, num))) s.ranges
  inferInstanceAs (Decidable (_ ∧ _))

/-- Which pages a call returns, and what is in them. -/
structure Placement where
  base : Word
  contents : Mem

/-- `place` chooses among the fresh ranges; a call it gives no fresh range does not return. -/
def flatMmu (place : Flat → Word → Placement) : Mmu Flat where
  load64 a := do
    let s ← get
    return s.mem.load64 a
  store64 a v := modify fun s => { s with mem := s.mem.store64 a v }
  allocPages num := do
    let s ← get
    let p := place s num
    assert (s.Fresh p.base num)
    set { s with
      mem := fun a => if a ∈ (rangeRegion (p.base, num)).bytes then p.contents a else s.mem a
      ranges := (p.base, num) :: s.ranges : Flat }
    return p.base
  freePages vp num := do
    let s ← get
    assert ((vp, num) ∈ s.ranges)
    set { s with ranges := s.ranges.erase (vp, num) }

end SkipOS
