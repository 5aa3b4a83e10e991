import SkipOS.Lib.Exec
import SkipOS.Lib.Memory

/-! The page frame allocator of `pf_alloc.c`. Its state is physical memory: the
pool head lies at address 0 and the links of the pool inside the free pages. -/

namespace SkipOS

open Exec

def pageSize : Word := 0x1000

def mmapTagType : BitVec 32 := 6

def endTagType : BitVec 32 := 0

def elfTagType : BitVec 32 := 9

def validMemInfoEntType : BitVec 32 := 1

def fixedHeaderSize : Word := 8

def pagesToAddIfPoolEmpty : Word := 500

def sizeofMmapTag : Word := 16

def sizeofMemInfoEntry : Word := 24

def sizeofElfTag : Word := 20

def sizeofSecHeadEnt : Word := 64

structure BasicTag where
  type : BitVec 32
  size : BitVec 32

structure MmapTag where
  basicTagInfo : BasicTag
  memInfoEntrySize : BitVec 32
  memInfoEntryVersion : BitVec 32

structure MmapInfo where
  mmapTag : MmapTag
  memInfoEntryArr : Word
  numMemInfoEntries : Word

structure ElfTag where
  basicTagInfo : BasicTag
  numSecHeadEnts : BitVec 32
  secHeadEntSize : BitVec 32
  stringTblIndex : BitVec 32

structure ElfInfo where
  elfTag : ElfTag
  secHeadEntArr : Word

/-- Pointers into the memory map; `none` is a member that was never assigned. -/
structure UsableMemInfoPtrs where
  lower : Option Word
  upper : Option Word

def roundUpNearestMult (val mult : Word) : Word :=
  if val % mult ≠ 0 then val + (mult - val % mult) else val

def roundDownNearestMult (val mult : Word) : Word := val - val % mult

/-! Members of the structures laid out in memory. -/

def readBasicTag (m : Mem) (p : Word) : BasicTag := ⟨m.load32 p, m.load32 (p + 4)⟩

def memInfoBase (m : Mem) (p : Word) : Word := m.field p 0

def memInfoLength (m : Mem) (p : Word) : Word := m.field p 8

def memInfoType (m : Mem) (p : Word) : BitVec 32 := m.load32 (p + 16)

def secHeadAddr (m : Mem) (p : Word) : Word := m.field p 16

def secHeadSize (m : Mem) (p : Word) : Word := m.field p 32

def llNext (m : Mem) (p : Word) : Word := m.field p 0

def llPrev (m : Mem) (p : Word) : Word := m.field p 8

def setLlNext (p v : Word) (m : Mem) : Mem := m.setField p 0 v

def setLlPrev (p v : Word) (m : Mem) : Mem := m.setField p 8 v

def headBaseAddr (m : Mem) (p : Word) : Word := m.field p 16

def headLength (m : Mem) (p : Word) : Word := m.field p 24

def headUnpooledPageCnt (m : Mem) (p : Word) : Word := m.field p 32

def setHeadBaseAddr (p v : Word) (m : Mem) : Mem := m.setField p 16 v

def setHeadLength (p v : Word) (m : Mem) : Mem := m.setField p 24 v

def setHeadUnpooledPageCnt (p v : Word) (m : Mem) : Mem := m.setField p 32 v

/-! The linked list of free pages. -/

/-- `init_ll_head`; the head pointer it returns is `base` itself. -/
def initLlHead (base : Word) (m : Mem) : Mem := setLlPrev base base (setLlNext base base m)

def isEmpty (m : Mem) (head : Word) : Bool := llNext m head == llPrev m head

def addElem (head new : Word) (m : Mem) : Mem :=
  let m := setLlNext new head m
  let m := setLlPrev new (llPrev m head) m
  let m := setLlNext (llPrev m head) new m
  setLlPrev head new m

def popElem (head : Word) : Exec Mem Word := do
  let m ← get
  assert (¬ isEmpty m head)
  let popped := llPrev m head
  modify fun m => setLlNext (llPrev m popped) head m
  modify fun m => setLlPrev head (llPrev m popped) m
  return popped

def getLlHeadInfoPtr : Word := 0x0

/-! Reading the boot information. -/

/-- The loop of `find_tag`; `fuel` bounds the number of tags looked at. -/
def findTagLoop (m : Mem) (tagType : BitVec 32) : Nat → Word → Except Stop Word
  | 0, _ => .error .fuel
  | fuel + 1, curr =>
    if m.load32 curr = tagType then .ok curr
    else
      let basicTag := readBasicTag m curr
      let curr := curr + roundUpNearestMult (basicTag.size.setWidth 64) 8
      if basicTag.type = endTagType then .ok 0 else findTagLoop m tagType fuel curr

def findTag (fuel : Nat) (mbTagsPtr : Word) (tagType : BitVec 32) : Exec Mem Word := do
  let m ← get
  match findTagLoop m tagType fuel (mbTagsPtr + fixedHeaderSize) with
  | .ok p => return p
  | .error e => throw e

def getMmapInfo (mmapPtr : Word) : Exec Mem MmapInfo := do
  assert (mmapPtr ≠ 0)
  let m ← get
  let tag : MmapTag := ⟨readBasicTag m mmapPtr, m.load32 (mmapPtr + 8), m.load32 (mmapPtr + 12)⟩
  assert (tag.basicTagInfo.type = mmapTagType)
  assert (tag.memInfoEntrySize.setWidth 64 = sizeofMemInfoEntry)
  assert (tag.memInfoEntryVersion = 0)
  let arrSizeBytes := tag.basicTagInfo.size.setWidth 64 - sizeofMmapTag
  assert (arrSizeBytes % sizeofMemInfoEntry = 0)
  return ⟨tag, mmapPtr + sizeofMmapTag, arrSizeBytes / sizeofMemInfoEntry⟩

def getElfInfo (elfPtr : Word) : Exec Mem ElfInfo := do
  assert (elfPtr ≠ 0)
  let m ← get
  let tag : ElfTag := ⟨readBasicTag m elfPtr, m.load32 (elfPtr + 8), m.load32 (elfPtr + 12),
    m.load32 (elfPtr + 16)⟩
  assert (tag.basicTagInfo.type = elfTagType)
  assert (tag.secHeadEntSize.setWidth 64 = sizeofSecHeadEnt)
  assert (tag.numSecHeadEnts.setWidth 64 =
    (tag.basicTagInfo.size.setWidth 64 - sizeofElfTag) / sizeofSecHeadEnt)
  return ⟨tag, elfPtr + sizeofElfTag⟩

/-- The entries from `ent` on: the count of usable ones and the pointers they leave. -/
def scanMemInfoEntries (m : Mem) :
    Nat → Word → Word → UsableMemInfoPtrs → Word × UsableMemInfoPtrs
  | 0, _, cnt, ret => (cnt, ret)
  | n + 1, ent, cnt, ret =>
    if memInfoType m ent = validMemInfoEntType then
      if memInfoBase m ent = 0 then
        scanMemInfoEntries m n (ent + sizeofMemInfoEntry) (cnt + 1) { ret with lower := some ent }
      else
        scanMemInfoEntries m n (ent + sizeofMemInfoEntry) (cnt + 1) { ret with upper := some ent }
    else scanMemInfoEntries m n (ent + sizeofMemInfoEntry) cnt ret

def getUsableMemInfoPtrs (mmapInfo : MmapInfo) : Exec Mem UsableMemInfoPtrs := do
  let m ← get
  let (cnt, ret) := scanMemInfoEntries m mmapInfo.numMemInfoEntries.toNat
    mmapInfo.memInfoEntryArr 0 ⟨none, none⟩
  assert (cnt = 2)
  return ret

def getSysMemSizeByte (mmapInfo : MmapInfo) : Exec Mem Word := do
  let m ← get
  let p := mmapInfo.memInfoEntryArr + sizeofMemInfoEntry * (mmapInfo.numMemInfoEntries - 1)
  return memInfoBase m p + memInfoLength m p

/-! Filling the pool. -/

/-- The loop of `add_lower_pages`, with the final address and count. -/
def addLowerPagesLoop (head lowerLength : Word) : Nat → Word → Word → Exec Mem (Word × Word)
  | 0, curr, cnt => if curr < lowerLength then throw .fuel else return (curr, cnt)
  | fuel + 1, curr, cnt =>
    if curr < lowerLength then do
      modify (addElem head curr)
      addLowerPagesLoop head lowerLength fuel (curr + pageSize) (cnt + 1)
    else return (curr, cnt)

def addLowerPages (head lowerBase lowerLength : Word) : Exec Mem Unit := do
  let (curr, cnt) ← addLowerPagesLoop head lowerLength (lowerLength / pageSize).toNat
    (lowerBase + pageSize) 0
  assert (curr = lowerLength)
  assert (cnt = lowerLength / pageSize - 1)

def addNewUpperPagesLoop (head : Word) : Nat → Mem → Mem
  | 0, m => m
  | n + 1, m =>
    let m := addElem head (headBaseAddr m head) m
    addNewUpperPagesLoop head n (setHeadBaseAddr head (headBaseAddr m head + pageSize) m)

def addNewUpperPages (head numNewPages : Word) : Exec Mem Unit := do
  let m ← get
  assert (numNewPages ≤ headUnpooledPageCnt m head)
  assert (0 < numNewPages)
  let origLimitAddr := headBaseAddr m head + headLength m head
  modify (addNewUpperPagesLoop head numNewPages.toNat)
  modify fun m => setHeadLength head (headLength m head - numNewPages * pageSize) m
  modify fun m => setHeadUnpooledPageCnt head (headUnpooledPageCnt m head - numNewPages) m
  let m ← get
  assert (origLimitAddr = headBaseAddr m head + headLength m head)

def initLlHeadInfo (head : Word) (elfInfo : ElfInfo) (upper : Word) : Exec Mem Word := do
  assert (head = 0)
  let m ← get
  assert (memInfoBase m upper = secHeadAddr m (elfInfo.secHeadEntArr + sizeofSecHeadEnt * 1))
  let finalSecHeadIndex := elfInfo.elfTag.numSecHeadEnts - 1
  let finalSec := elfInfo.secHeadEntArr + sizeofSecHeadEnt * finalSecHeadIndex.setWidth 64
  let upperBase := roundUpNearestMult (secHeadAddr m finalSec + secHeadSize m finalSec) pageSize
  let upperLength :=
    roundDownNearestMult (memInfoLength m upper + memInfoBase m upper) pageSize - upperBase
  modify (setHeadBaseAddr head upperBase)
  modify (setHeadLength head upperLength)
  modify fun m => setHeadUnpooledPageCnt head (headLength m head / pageSize) m
  let m ← get
  assert (headLength m head % pageSize = 0)
  return head

/-- A dereference of a pointer that may be unset. -/
def deref {σ : Type} : Option Word → Exec σ Word
  | some p => pure p
  | none => throw .undefined

def initPool (mmapInfo : MmapInfo) (elfInfo : ElfInfo) : Exec Mem Word := do
  let usable ← getUsableMemInfoPtrs mmapInfo
  let lower ← deref usable.lower
  let m ← get
  let lowerLength := roundDownNearestMult (memInfoLength m lower) pageSize
  let lowerBase := roundUpNearestMult (memInfoBase m lower) pageSize
  assert (lowerBase = 0)
  modify (initLlHead lowerBase)
  addLowerPages lowerBase lowerBase lowerLength
  let upper ← deref usable.upper
  initLlHeadInfo lowerBase elfInfo upper

def mmuInitPf (fuel : Nat) (mbTagsPtr : Word) : Exec Mem Word := do
  let mmapPtr ← findTag fuel mbTagsPtr mmapTagType
  assert (mmapPtr ≠ 0)
  let mmapInfo ← getMmapInfo mmapPtr
  let elfPtr ← findTag fuel mbTagsPtr elfTagType
  assert (elfPtr ≠ 0)
  let elfInfo ← getElfInfo elfPtr
  let _ ← initPool mmapInfo elfInfo
  getSysMemSizeByte mmapInfo

/-! Handing frames out and taking them back. -/

def mmuPfAlloc : Exec Mem Word := do
  let head := getLlHeadInfoPtr
  let m ← get
  if isEmpty m head then
    if headUnpooledPageCnt m head = 0 then return 0
    else
      let pagesToAdd :=
        if pagesToAddIfPoolEmpty > headUnpooledPageCnt m head then headUnpooledPageCnt m head
        else pagesToAddIfPoolEmpty
      addNewUpperPages head pagesToAdd
      popElem head
  else popElem head

def mmuPfFree (pf : Word) : Exec Mem Unit := do
  assert (pf ≠ 0)
  modify (addElem getLlHeadInfoPtr pf)

end SkipOS
