import SkipOS.Kmalloc
import SkipOS.VmFault

/-! The kernel's own accesses to heap memory, through the page tables. An access to a page that
is not present runs the page fault handler and is then repeated. -/

namespace SkipOS

open Mem Exec Walk

/-- Where the tables take an address: to itself below 512 GiB, else into the frame of its page. -/
def Machine.physical (s : Machine) (a : Word) : Option Word :=
  if (a >>> 39) &&& 0x1FF = 0 then some a
  else (s.node (pathOf a)).map (· + a % pageSize)

/-- The physical address of an access. -/
def touch (a : Word) : Exec Machine Word := do
  let s ← get
  match s.physical a with
  | some p => return p
  | none =>
    modify fun s => { s with cr2 := a }
    pageFaultHandler pfIntNum
    let s ← get
    deref (s.physical a)

/-- Words lie in one page. `fuel` bounds the rounds for each page that is allocated. -/
def pagedMmu (fuel : Nat) : Mmu Machine where
  load64 a := do
    let p ← touch a
    let s ← get
    return s.mem.load64 p
  store64 a v := do
    let p ← touch a
    modify fun s => { s with mem := s.mem.store64 p v }
  allocPages num := mmuAllocPages fuel num
  freePages vp num := mmuFreePages vp num

/-- A client writes one byte. -/
def storeByteAt (a : Word) (v : Byte) : Exec Machine Unit := do
  let p ← touch a
  modify fun s => { s with mem := s.mem.storeByte p v }

end SkipOS
