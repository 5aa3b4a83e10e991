import SkipOS.PfAlloc

/-! The virtual page allocator of `vp_alloc.c`. Physical memory is accessed at its own
address. Pointers to the one static page table are values and never NULL. -/

namespace SkipOS

open Exec

def kernHeapBase : Word := 0x10000000000

def entriesPerTable : Nat := 512

def pfIntNum : BitVec 8 := 0xE

def presentMask : Word := 0x1

def writeableMask : Word := 0x1 <<< 1

def demandMask : Word := 0x1 <<< 9

def pageSize1gbMsk : Word := 0x1 <<< 7

inductive PtLevel where
  | physical | l1 | l2 | l3 | l4
  deriving DecidableEq

structure PageTable where
  l4Table : Word

/-- What the code has done to frames and entries. -/
inductive VmEvent where
  | pfAlloc (p : Word)
  | pfFree (p : Word)
  | memset (a : Word)
  | setEntry (a v : Word)
  deriving DecidableEq

/-- Memory is physical: a frame is accessed at its own address, as the tables of `MMU_init_vp` have
it below 1 GiB. -/
structure Machine where
  mem : Mem
  pageTable : PageTable
  kernHeapTop : Word
  cr2 : Word
  cr3 : Word
  /-- the frame cached for a page -/
  tlb : Word → Option Word
  /-- newest first; a record that no code reads -/
  events : List VmEvent

def record (e : VmEvent) : Exec Machine Unit := modify fun s => { s with events := e :: s.events }

def onMem {α : Type} (x : Exec Mem α) : Exec Machine α :=
  zoom Machine.mem (fun m s => { s with mem := m }) x

def pfAlloc : Exec Machine Word := do
  let p ← onMem mmuPfAlloc
  record (.pfAlloc p)
  return p

def pfFree (pf : Word) : Exec Machine Unit := do
  onMem (mmuPfFree pf)
  record (.pfFree pf)

/-- `memset(a, 0, PAGE_SIZE)` -/
def memsetPage (a : Word) : Exec Machine Unit := do
  modify fun s => { s with mem := s.mem.fill a 4096 0 }
  record (.memset a)

/-- `&table[index]` -/
def entryPtr (table index : Word) : Word := table + 8 * index

def setEntry (p v : Word) : Exec Machine Unit := do
  modify fun s => { s with mem := s.mem.store64 p v }
  record (.setEntry p v)

/-- `*p = f(*p)` -/
def updateEntry (p : Word) (f : Word → Word) : Exec Machine Unit := do
  let s ← get
  setEntry p (f (s.mem.load64 p))

/-- `invlpg [va]` -/
def invlpg (va : Word) : Exec Machine Unit :=
  modify fun s => { s with tlb := fun page => if page = va - va % pageSize then none else s.tlb page }

def isNextPagePresent (entry : Word) : Bool := entry &&& presentMask != 0

/-- The entry or frame, its level, and `*prev_entry_ptr_ptr` afterwards; `prev` is what
it held before. -/
def getLowestPresentPage (pageTable : PageTable) (virtualAddr : Word) (prev : Option Word) :
    Exec Machine (Word × PtLevel × Option Word) := do
  assert (virtualAddr % pageSize = 0)
  let l4Index := (virtualAddr >>> 39) &&& 0x1FF
  let l3Index := (virtualAddr >>> 30) &&& 0x1FF
  let l2Index := (virtualAddr >>> 21) &&& 0x1FF
  let l1Index := (virtualAddr >>> 12) &&& 0x1FF
  if l4Index = 0 then return (virtualAddr, .physical, prev)
  else
    let s ← get
    let l4Table := pageTable.l4Table
    let l4Entry := s.mem.load64 (entryPtr l4Table l4Index)
    if ¬ isNextPagePresent l4Entry then return (entryPtr l4Table l4Index, .l4, prev)
    else
      let l3Table := l4Entry &&& ~~~0xFFF
      let l3Entry := s.mem.load64 (entryPtr l3Table l3Index)
      if ¬ isNextPagePresent l3Entry then
        return (entryPtr l3Table l3Index, .l3, some (entryPtr l4Table l4Index))
      else
        let l2Table := l3Entry &&& ~~~0xFFF
        let l2Entry := s.mem.load64 (entryPtr l2Table l2Index)
        if ¬ isNextPagePresent l2Entry then
          return (entryPtr l2Table l2Index, .l2, some (entryPtr l3Table l3Index))
        else
          let l1Table := l2Entry &&& ~~~0xFFF
          let l1Entry := s.mem.load64 (entryPtr l1Table l1Index)
          if ¬ isNextPagePresent l1Entry then
            return (entryPtr l1Table l1Index, .l1, some (entryPtr l2Table l2Index))
          else return (l1Entry &&& ~~~0xFFF, .physical, some (entryPtr l1Table l1Index))

/-- NULL for a page that is not mapped. -/
def getPhysicalAddr (pageTable : PageTable) (virtualAddr : Word) : Exec Machine Word := do
  assert (virtualAddr % pageSize = 0)
  let (physicalAddr, ptLevel, _) ← getLowestPresentPage pageTable virtualAddr none
  if ptLevel ≠ .physical then return 0 else return physicalAddr

/-- The `while` loop of `alloc_virtual_page`, with at most `fuel` rounds. -/
def allocVirtualPageLoop (pageTable : PageTable) (virtualAddr : Word) (lowest : PtLevel) :
    Nat → Word → PtLevel → Exec Machine (Word × PtLevel)
  | 0, lowestEntryPtr, ptLevel =>
    if ptLevel = lowest then return (lowestEntryPtr, ptLevel) else throw .fuel
  | fuel + 1, lowestEntryPtr, ptLevel =>
    if ptLevel = lowest then return (lowestEntryPtr, ptLevel)
    else do
      let newPage ← pfAlloc
      memsetPage newPage
      setEntry lowestEntryPtr newPage
      updateEntry lowestEntryPtr (· ||| (writeableMask ||| presentMask))
      let (lowestEntryPtr, ptLevel, _) ← getLowestPresentPage pageTable virtualAddr none
      allocVirtualPageLoop pageTable virtualAddr lowest fuel lowestEntryPtr ptLevel

def allocVirtualPage (fuel : Nat) (pageTable : PageTable) (virtualAddr : Word)
    (allocOnDemand : Bool) : Exec Machine Unit := do
  assert (virtualAddr % pageSize = 0)
  let (lowestEntryPtr, ptLevel, _) ← getLowestPresentPage pageTable virtualAddr none
  assert (ptLevel ≠ .physical)
  let lowest := if allocOnDemand then PtLevel.l1 else PtLevel.physical
  let (lowestEntryPtr, ptLevel) ←
    allocVirtualPageLoop pageTable virtualAddr lowest fuel lowestEntryPtr ptLevel
  if allocOnDemand then
    assert (ptLevel = .l1)
    let s ← get
    assert (s.mem.load64 lowestEntryPtr &&& demandMask = 0)
    updateEntry lowestEntryPtr (· ||| demandMask)
  else return ()

def allocPagesLoop (fuel : Nat) : Nat → Exec Machine Unit
  | 0 => return ()
  | n + 1 => do
    let s ← get
    allocVirtualPage fuel s.pageTable s.kernHeapTop true
    modify fun s => { s with kernHeapTop := s.kernHeapTop + pageSize }
    allocPagesLoop fuel n

def mmuAllocPages (fuel : Nat) (num : Word) : Exec Machine Word := do
  let s ← get
  allocPagesLoop fuel num.toNat
  return s.kernHeapTop

def mmuAllocPage (fuel : Nat) : Exec Machine Word := mmuAllocPages fuel 1

/-- The loop of `MMU_free_pages`; `prev` is the local `prev_entry_ptr`. -/
def freePagesLoop (vp : Word) : Nat → Word → Option Word → Exec Machine Unit
  | 0, _, _ => return ()
  | n + 1, nextToFree, prev => do
    let s ← get
    let (lowestEntryPtr, level, prev) ← getLowestPresentPage s.pageTable nextToFree prev
    assert (level = .physical ∨ level = .l1)
    if level = .physical then
      let prevEntryPtr ← deref prev
      updateEntry prevEntryPtr (· &&& ~~~(presentMask ||| writeableMask))
      pfFree lowestEntryPtr
      invlpg vp
    else
      let s ← get
      assert (s.mem.load64 lowestEntryPtr &&& demandMask ≠ 0)
      assert (s.mem.load64 lowestEntryPtr &&& (presentMask ||| writeableMask) = 0)
      updateEntry lowestEntryPtr (· &&& ~~~demandMask)
    freePagesLoop vp n (nextToFree + pageSize) prev

def mmuFreePages (vp num : Word) : Exec Machine Unit := do
  assert (vp % pageSize = 0)
  assert (0 < num)
  freePagesLoop vp num.toNat vp none

def mmuFreePage (vp : Word) : Exec Machine Unit := mmuFreePages vp 1

def identityLoop (l3IdentityTable : Word) : Nat → Word → Exec Machine Unit
  | 0, _ => return ()
  | n + 1, i => do
    setEntry (entryPtr l3IdentityTable i) (presentMask ||| writeableMask ||| pageSize1gbMsk)
    identityLoop l3IdentityTable n (i + 1)

def setupIdentityPaging (pageTable : PageTable) : Exec Machine Unit := do
  let l3IdentityTable ← pfAlloc
  memsetPage l3IdentityTable
  setEntry (entryPtr pageTable.l4Table 0) l3IdentityTable
  updateEntry (entryPtr pageTable.l4Table 0) (· ||| (presentMask ||| writeableMask))
  identityLoop l3IdentityTable entriesPerTable 0

def mmuInitVp : Exec Machine Unit := do
  let l4Table ← pfAlloc
  modify fun s => { s with pageTable := ⟨l4Table⟩ }
  memsetPage l4Table
  setupIdentityPaging ⟨l4Table⟩
  -- the load of CR3 drops every cached translation
  modify fun s => { s with cr3 := s.pageTable.l4Table, tlb := fun _ => none }
  modify fun s => { s with kernHeapTop := kernHeapBase }

/-- The page fault handler; the faulting address is in CR2 and `hlt` ends it. -/
def pageFaultHandler (irqIndex : BitVec 8) : Exec Machine Unit := do
  assert (irqIndex = pfIntNum)
  let s ← get
  let faultAddr := s.cr2 - s.cr2 % pageSize
  let (lowestEntryPtr, level, _) ← getLowestPresentPage ⟨s.cr3⟩ faultAddr none
  assert (lowestEntryPtr ≠ 0)
  if s.mem.load64 lowestEntryPtr &&& demandMask = 0 ∨ level ≠ .l1 then throw .halt
  else
    let newPage ← pfAlloc
    setEntry lowestEntryPtr newPage
    updateEntry lowestEntryPtr (· ||| (writeableMask ||| presentMask))

end SkipOS
