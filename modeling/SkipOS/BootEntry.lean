import SkipOS.BootTables
import SkipOS.InterruptEntry
import SkipOS.Lib.Bytes
import Mathlib.Tactic.IntervalCases

/-! `boot.asm` and `long_mode_init.asm`: from the entry that the boot loader jumps to up to
`kernel_main`, or to the error it shows. -/

namespace SkipOS

open Mem Exec

structure CpuidResult where
  eax : BitVec 32
  ebx : BitVec 32
  ecx : BitVec 32
  edx : BitVec 32

/-- What differs between processors: the answers of `cpuid` and whether it exists, which is
whether the ID flag can be changed. -/
structure Hardware where
  cpuid : BitVec 32 → CpuidResult
  idFlag : Bool

/-- The registers in protected mode, each segment with base 0. -/
structure BootCpu where
  gen : Cpu32
  ebx : BitVec 32
  esp : BitVec 32
  edi : BitVec 32
  eflags : BitVec 32
  cr0 : BitVec 32
  cr3 : BitVec 32
  cr4 : BitVec 32
  efer : Word
  ss : BitVec 16
  gdtr : TableReg
  idtr : TableReg
  tr : TaskReg

/-- Where the linker puts `p4_table`, with the other tables and the stack behind it in `.bss`, and
`gdt64`; and the addresses behind the five calls of `start`. -/
structure BootVars where
  p4Table : BitVec 32
  gdt64 : BitVec 32
  ret : Fin 5 → BitVec 32

def BootVars.stackTop (v : BootVars) : BitVec 32 := v.p4Table + 20480

def idFlagMask : BitVec 32 := (1 : BitVec 32) <<< 21

def cr0Pg : BitVec 32 := (1 : BitVec 32) <<< 31

def cr4Pae : BitVec 32 := (1 : BitVec 32) <<< 5

def eferLme : Word := (1 : Word) <<< 8

def eferLma : Word := (1 : Word) <<< 10

def eferMsr : BitVec 32 := 0xC0000080

namespace BootCpu

/-- Where an access goes; with paging it is long mode's. -/
def address (c : BootCpu) (a : BitVec 32) : Option Word :=
  if c.cr0 &&& cr0Pg = 0 then some (dwordAddr a)
  else if c.efer &&& eferLma = 0 then none
  else translate c.gen.mem (dwordAddr c.cr3) (dwordAddr a)

/-- No exception has a handler. -/
def addressOf (a : BitVec 32) : Exec BootCpu Word := do
  match (← get).address a with
  | some pa => return pa
  | none => throw .halt

def onGen {α : Type} (x : Exec Cpu32 α) : Exec BootCpu α :=
  zoom BootCpu.gen (fun g c => { c with gen := g }) x

def setMem (f : Mem → Mem) : Exec BootCpu Unit :=
  modify fun c => { c with gen := { c.gen with mem := f c.gen.mem } }

def push (x : BitVec 32) : Exec BootCpu Unit := do
  modify fun c => { c with esp := c.esp - 4 }
  let pa ← addressOf (← get).esp
  setMem fun m => m.storeLE pa 4 x.toNat

def pop : Exec BootCpu (BitVec 32) := do
  let pa ← addressOf (← get).esp
  let x := (← get).gen.mem.load32 pa
  modify fun c => { c with esp := c.esp + 4 }
  return x

/-- A procedure up to its `ret`, which has to find the address that the call has pushed. -/
def callNear (ret : BitVec 32) (f : Exec BootCpu Unit) : Exec BootCpu Unit := do
  push ret
  f
  let a ← pop
  if a = ret then return () else throw .undefined

/-- RF and VM are pushed as 0. -/
def pushfd : Exec BootCpu Unit := do
  push ((← get).eflags &&& 0x00FCFFFF)

/-- The flags after `popfd`. -/
def poppedFlags (hw : Hardware) (x flags : BitVec 32) : BitVec 32 :=
  if hw.idFlag then x else (x &&& ~~~idFlagMask) ||| (flags &&& idFlagMask)

def popfd (hw : Hardware) : Exec BootCpu Unit := do
  let x ← pop
  modify fun c => { c with eflags := poppedFlags hw x c.eflags }

def movEax (x : BitVec 32) : Exec BootCpu Unit :=
  modify fun c => { c with gen := { c.gen with eax := x } }

def movEcx (x : BitVec 32) : Exec BootCpu Unit :=
  modify fun c => { c with gen := { c.gen with ecx := x } }

def cpuid (hw : Hardware) : Exec BootCpu Unit :=
  modify fun c =>
    let r := hw.cpuid c.gen.eax
    { c with
      gen := { c.gen with eax := r.eax, ecx := r.ecx, edx := r.edx }
      ebx := r.ebx }

/-- The other model specific registers are not given. -/
def rdmsr : Exec BootCpu Unit := do
  let c ← get
  if c.gen.ecx = eferMsr then
    set { c with gen := { c.gen with
      eax := c.efer.setWidth 32, edx := (c.efer >>> 32).setWidth 32 } }
  else throw .undefined

def wrmsr : Exec BootCpu Unit := do
  let c ← get
  if c.gen.ecx = eferMsr then set { c with efer := c.gen.edx ++ c.gen.eax } else throw .undefined

/-- Paging with long mode enabled needs PAE, and makes long mode active. -/
def movCr0 (x : BitVec 32) : Exec BootCpu Unit := do
  let c ← get
  if x &&& cr0Pg ≠ 0 ∧ c.efer &&& eferLme ≠ 0 then
    if c.cr4 &&& cr4Pae = 0 then throw .halt
    else set { c with cr0 := x, efer := c.efer ||| eferLma }
  else set { c with cr0 := x }

/-- Six bytes outside 64-bit mode. -/
def lgdt32 (a : BitVec 32) : Exec BootCpu Unit := do
  let pa ← addressOf a
  modify fun c => { c with
    gdtr := ⟨BitVec.ofNat 16 (c.gen.mem.loadLE pa 2), (c.gen.mem.load32 (pa + 2)).setWidth 64⟩ }

end BootCpu

open BootCpu

/-- `error` with the code in `al`. -/
def bootError (al : Byte) : Exec BootCpu Unit := do
  BootCpu.movEax ((((← get).gen.eax >>> 8) <<< 8) ||| al.setWidth 32)
  let pa ← addressOf 0xB8000
  setMem fun m => m.storeLE pa 4 0x4F524F45
  let pa ← addressOf 0xB8004
  setMem fun m => m.storeLE pa 4 0x4F3A4F52
  let pa ← addressOf 0xB8008
  setMem fun m => m.storeLE pa 4 0x4F204F20
  let pa ← addressOf 0xB800A
  let eax := (← get).gen.eax
  setMem fun m => m.storeLE pa 1 (eax.setWidth 8).toNat
  throw .halt

def multibootMagic : BitVec 32 := 0x36D76289

def checkMultiboot : Exec BootCpu Unit := do
  if (← get).gen.eax ≠ multibootMagic then bootError 0x30 else return ()

def checkCpuid (hw : Hardware) : Exec BootCpu Unit := do
  pushfd
  BootCpu.movEax (← pop)
  BootCpu.movEcx (← get).gen.eax
  BootCpu.movEax ((← get).gen.eax ^^^ idFlagMask)
  push (← get).gen.eax
  popfd hw
  pushfd
  BootCpu.movEax (← pop)
  push (← get).gen.ecx
  popfd hw
  let c ← get
  if c.gen.eax = c.gen.ecx then bootError 0x31 else return ()

def checkLongMode (hw : Hardware) : Exec BootCpu Unit := do
  BootCpu.movEax 0x80000000
  cpuid hw
  if (← get).gen.eax < 0x80000001 then bootError 0x32
  else do
    BootCpu.movEax 0x80000001
    cpuid hw
    if (← get).gen.edx &&& (1 : BitVec 32) <<< 29 = 0 then bootError 0x32 else return ()

def enablePaging (v : BootVars) : Exec BootCpu Unit := do
  BootCpu.movEax v.p4Table
  modify fun c => { c with cr3 := c.gen.eax }
  BootCpu.movEax (← get).cr4
  BootCpu.movEax ((← get).gen.eax ||| cr4Pae)
  modify fun c => { c with cr4 := c.gen.eax }
  BootCpu.movEcx eferMsr
  rdmsr
  BootCpu.movEax ((← get).gen.eax ||| (1 : BitVec 32) <<< 8)
  wrmsr
  BootCpu.movEax (← get).cr0
  BootCpu.movEax ((← get).gen.eax ||| cr0Pg)
  movCr0 (← get).gen.eax

/-- `start` before its jump; `fuel` is for the loop over the entries. -/
def start (hw : Hardware) (v : BootVars) (fuel : Nat) : Exec BootCpu Unit := do
  modify fun c => { c with esp := v.stackTop }
  push (← get).ebx
  callNear (v.ret 0) checkMultiboot
  callNear (v.ret 1) (checkCpuid hw)
  callNear (v.ret 2) (checkLongMode hw)
  callNear (v.ret 3) (onGen (setUpPageTables v.p4Table fuel))
  callNear (v.ret 4) (enablePaging v)
  lgdt32 (v.gdt64 + 16)
  let edi ← pop
  modify fun c => { c with edi := edi }

/-- The registers in 64-bit mode: the upper halves of those that the code uses are zero, the other
registers are as they happen to be. -/
def widened (rest : Reg → Word) (c : BootCpu) : Reg → Word
  | .rax => c.gen.eax.setWidth 64
  | .rbx => c.ebx.setWidth 64
  | .rcx => c.gen.ecx.setWidth 64
  | .rdx => c.gen.edx.setWidth 64
  | .rsp => c.esp.setWidth 64
  | .rdi => c.edi.setWidth 64
  | r => rest r

/-- The jump through a code descriptor to 64-bit code. -/
def farJump (rest : Reg → Word) (selector : BitVec 16) (target : Word) (c : BootCpu) :
    Option Processor :=
  let p : Processor := {
    cpu := ⟨widened rest c, c.gen.mem⟩
    rip := target
    cs := selector
    ss := c.ss
    rflags := c.eflags.setWidth 64
    gdtr := c.gdtr
    idtr := c.idtr
    tr := c.tr }
  if c.efer &&& eferLma ≠ 0 ∧ p.LoadsCode selector then some p else none

/-- `long_mode_start`. Of the data segments only `ss` is kept here. -/
def longModeStart (kernelMain ret : Word) (p : Processor) : Processor :=
  let rax := (p.cpu.regs .rax >>> 16) <<< 16
  { p with
    cpu := (p.cpu.set .rax rax).push ret
    ss := 0
    rip := kernelMain }

/-- `(1<<43) | (1<<44) | (1<<47) | (1<<53)` in `gdt64`. -/
def codeSegment : Word :=
  (1 : Word) <<< 43 ||| (1 : Word) <<< 44 ||| (1 : Word) <<< 47 ||| (1 : Word) <<< 53

/-- The digit of the first check that fails. -/
def firstFailing (hw : Hardware) (eax : BitVec 32) : Option Byte :=
  if eax ≠ multibootMagic then some 0x30
  else if hw.idFlag = false then some 0x31
  else if (hw.cpuid 0x80000000).eax < 0x80000001 ∨
      (hw.cpuid 0x80000001).edx &&& (1 : BitVec 32) <<< 29 = 0 then some 0x32
  else none

/-- `ERR: ` and a digit, each with its attribute. -/
def errorText (n : Byte) : List Byte :=
  [0x45, 0x4F, 0x52, 0x4F, 0x52, 0x4F, 0x3A, 0x4F, 0x20, 0x4F, n, 0x4F]

/-- The part of the stack that `start` uses. -/
def stackUsed (v : BootVars) : Set Word := span (dwordAddr (v.stackTop - 12)) 12

/-- From `p4_table` up to `stack_top`. -/
def tablesAndStack (v : BootVars) : Set Word := span (dwordAddr v.p4Table) 20480

structure ErrorShown (v : BootVars) (c : BootCpu) (n : Byte) (c' : BootCpu) : Prop where
  text : c'.gen.mem.Holds 0xB8000 (errorText n)
  mem : Set.EqOn c'.gen.mem c.gen.mem (span 0xB8000 12 ∪ stackUsed v)ᶜ

/-- The layout of the kernel, `.bss` with zeros and `gdt64` with its contents. -/
structure BootVars.Placed (v : BootVars) (m : Mem) : Prop where
  aligned : v.p4Table.toNat % 4096 = 0
  bss : v.p4Table.toNat + 20480 ≤ 2 ^ 30
  rodata : v.gdt64.toNat + 26 ≤ 2 ^ 30
  apart : Disjoint (span (dwordAddr v.gdt64) 26) (span (dwordAddr v.p4Table) 20480)
  zero : ∀ a ∈ span (dwordAddr v.p4Table) 12288, m a = 0
  code : m.load64 (dwordAddr v.gdt64 + 8) = codeSegment
  limit : m.loadLE (dwordAddr v.gdt64 + 16) 2 = 15
  base : m.load32 (dwordAddr v.gdt64 + 18) = v.gdt64

/-- The first instruction of `kernel_main`. -/
structure AtKernelMain (v : BootVars) (c : BootCpu) (kernelMain ret : Word) (p : Processor) :
    Prop where
  rip : p.rip = kernelMain
  cs : p.cs = gdtOffsetKernelCode
  ss : p.ss = 0
  rdi : p.cpu.regs .rdi = c.ebx.setWidth 64
  rsp : p.cpu.regs .rsp + 8 = dwordAddr v.stackTop
  ret : p.cpu.mem.load64 (p.cpu.regs .rsp) = ret
  identity : ∀ va pa, translate p.cpu.mem (dwordAddr v.p4Table) va = some pa ↔
    va.toNat < 2 ^ 30 ∧ pa = va
  mem : Set.EqOn p.cpu.mem c.gen.mem (tablesAndStack v)ᶜ

variable {hw : Hardware} {v : BootVars} {c c₀ c₁ : BootCpu} {x ret a : BitVec 32} {pa : Word}
  {f : Exec BootCpu Unit} {n : Byte}

def pushed (x : BitVec 32) (c : BootCpu) : BootCpu :=
  { c with
    esp := c.esp - 4
    gen := { c.gen with mem := c.gen.mem.storeLE (dwordAddr (c.esp - 4)) 4 x.toNat } }

theorem address_flat (h : c.cr0 &&& cr0Pg = 0) (a : BitVec 32) :
    c.address a = some (dwordAddr a) := if_pos h

theorem addressOf_of_some (h : c.address a = some pa) : addressOf a c = .ok pa c := by
  rw [addressOf, bind_get, h]
  rfl

theorem push_flat (h : c.cr0 &&& cr0Pg = 0) (x : BitVec 32) : push x c = .ok () (pushed x c) := by
  rw [push, bind_modify, bind_get]
  exact bind_of_ok (addressOf_of_some (address_flat (c := { c with esp := c.esp - 4 }) h _)) _

theorem pop_of_address (h : c.address c.esp = some pa) :
    pop c = .ok (c.gen.mem.load32 pa) { c with esp := c.esp + 4 } := by
  rw [pop, bind_get]
  exact bind_of_ok (addressOf_of_some h) _

theorem callNear_of_ok (hflat : c.cr0 &&& cr0Pg = 0) (hrun : f (pushed ret c) = .ok () c₁)
    (haddr : c₁.address c₁.esp = some pa) (hret : c₁.gen.mem.load32 pa = ret) :
    callNear ret f c = .ok () { c₁ with esp := c₁.esp + 4 } := by
  rw [callNear, bind_of_ok (push_flat hflat ret), bind_of_ok hrun,
    bind_of_ok (pop_of_address haddr), if_pos hret]
  rfl

theorem callNear_of_error {e : Stop} (hflat : c.cr0 &&& cr0Pg = 0)
    (hrun : f (pushed ret c) = .error e c₁) : callNear ret f c = .error e c₁ := by
  rw [callNear, bind_of_ok (push_flat hflat ret), bind_of_error hrun]

/-! The error. -/

def textMem (n : Byte) (m : Mem) : Mem :=
  (((m.storeLE 0xB8000 4 0x4F524F45).storeLE 0xB8004 4 0x4F3A4F52).storeLE 0xB8008 4
    0x4F204F20).storeLE 0xB800A 1 n.toNat

theorem textMem_eqOn (n : Byte) (m : Mem) :
    Set.EqOn (textMem n m) m (span 0xB8000 12)ᶜ := by
  intro b hb
  have hout {d : Word} {k : Nat} (h : d.toNat + k ≤ 12) : b ∉ span (0xB8000 + d) k :=
    fun hc => hb (span_offset_subset h hc)
  have hstore {a : Word} {k w : Nat} (m : Mem) (h : b ∉ span a k) : m.storeLE a k w b = m b :=
    storeLE_apply_of_not_mem h
  have h₀ : b ∉ span 0xB8000 4 := hout (d := 0) (by decide)
  have h₁ : b ∉ span 0xB8004 4 := hout (d := 4) (by decide)
  have h₂ : b ∉ span 0xB8008 4 := hout (d := 8) (by decide)
  have h₃ : b ∉ span 0xB800A 1 := hout (d := 10) (by decide)
  rw [textMem, hstore _ h₃, hstore _ h₂, hstore _ h₁, hstore _ h₀]

theorem textMem_holds (n : Byte) (m : Mem) : (textMem n m).Holds 0xB8000 (errorText n) := by
  intro i b hb
  have hi : i < 12 := (List.getElem?_eq_some_iff.mp hb).1
  interval_cases i
  all_goals
    obtain rfl := Option.some.inj hb
    simp [textMem, storeLE, mem_span]

theorem setWidth_al (eax : BitVec 32) (n : Byte) :
    ((((eax >>> 8) <<< 8) ||| n.setWidth 32).setWidth 8) = n := by
  ext i hi
  simp

theorem bootError_run (hflat : c.cr0 &&& cr0Pg = 0) (n : Byte) :
    ∃ c', bootError n c = .error .halt c' ∧ c'.gen.mem = textMem n c.gen.mem := by
  have hat (g : Cpu32) (a : BitVec 32) :
      addressOf a { c with gen := g } = .ok (dwordAddr a) { c with gen := g } :=
    addressOf_of_some (address_flat (c := { c with gen := g }) hflat a)
  refine ⟨{ c with gen := ⟨((c.gen.eax >>> 8) <<< 8) ||| n.setWidth 32, c.gen.ecx, c.gen.edx,
    textMem n c.gen.mem⟩ }, ?_, rfl⟩
  simp only [bootError, BootCpu.movEax, setMem, bind_apply, get_apply, modify_apply, hat,
    throw_apply, setWidth_al]
  rfl

/-! The stack of `start`: the pointer of the boot loader, and a return address or not. -/

/-- Between calls, with memory changed in `A` so far. -/
structure Midway (v : BootVars) (A : Set Word) (c₀ c : BootCpu) : Prop where
  esp : c.esp = v.stackTop - 4
  saved : c.gen.mem.load32 (dwordAddr (v.stackTop - 4)) = c₀.ebx
  flat : c.cr0 &&& cr0Pg = 0
  mem : Set.EqOn c.gen.mem c₀.gen.mem Aᶜ

/-- In a procedure. -/
structure InCall (v : BootVars) (A : Set Word) (ret : BitVec 32) (c₀ c : BootCpu) : Prop where
  esp : c.esp = v.stackTop - 8
  saved : c.gen.mem.load32 (dwordAddr (v.stackTop - 4)) = c₀.ebx
  ret : c.gen.mem.load32 (dwordAddr (v.stackTop - 8)) = ret
  flat : c.cr0 &&& cr0Pg = 0
  mem : Set.EqOn c.gen.mem c₀.gen.mem Aᶜ

/-- What is left of a word that was pushed and popped. -/
def spilled (x : BitVec 32) (c : BootCpu) : BootCpu :=
  { c with gen := { c.gen with mem := c.gen.mem.storeLE (dwordAddr (c.esp - 4)) 4 x.toNat } }

@[simp] theorem spilled_cr0 (x : BitVec 32) (c : BootCpu) : (spilled x c).cr0 = c.cr0 := rfl

@[simp] theorem spilled_esp (x : BitVec 32) (c : BootCpu) : (spilled x c).esp = c.esp := rfl

@[simp] theorem spilled_eflags (x : BitVec 32) (c : BootCpu) :
    (spilled x c).eflags = c.eflags := rfl

@[simp] theorem spilled_eax (x : BitVec 32) (c : BootCpu) :
    (spilled x c).gen.eax = c.gen.eax := rfl

@[simp] theorem spilled_ecx (x : BitVec 32) (c : BootCpu) :
    (spilled x c).gen.ecx = c.gen.ecx := rfl

theorem load32_storeLE_self (m : Mem) (a : Word) (x : BitVec 32) :
    (m.storeLE a 4 x.toNat).load32 a = x :=
  ofNat_loadLE_storeLE_self m a x rfl (by decide)

theorem load32_storeLE_of_disjoint {m : Mem} {a b : Word} {k : Nat} (w : Nat)
    (h : Disjoint (span b 4) (span a k)) : (m.storeLE a k w).load32 b = m.load32 b :=
  congrArg (BitVec.ofNat 32) (loadLE_storeLE_of_disjoint (by decide) h)

theorem pop_pushed (hflat : c.cr0 &&& cr0Pg = 0) (x : BitVec 32) :
    pop (pushed x c) = .ok x (spilled x c) := by
  have hload : (pushed x c).gen.mem.load32 (dwordAddr (pushed x c).esp) = x :=
    load32_storeLE_self c.gen.mem _ x
  have hesp : { pushed x c with esp := (pushed x c).esp + 4 } = spilled x c :=
    congrArg (fun esp => { pushed x c with esp := esp }) (BitVec.sub_add_cancel c.esp 4)
  rw [pop_of_address (address_flat (c := pushed x c) hflat _), hload, hesp]

variable {m : Mem} {A A' : Set Word}

theorem BootVars.Placed.stackTop_toNat (hp : v.Placed m) :
    v.stackTop.toNat = v.p4Table.toNat + 20480 := by
  have hbss := hp.bss
  rw [BootVars.stackTop]
  bv_omega

theorem slot_subset (hp : v.Placed m) {d : BitVec 32} (h : 4 ≤ d.toNat ∧ d.toNat ≤ 12) :
    span (dwordAddr (v.stackTop - d)) 4 ⊆ stackUsed v := by
  have htop := hp.stackTop_toNat
  have h₁ := dwordAddr_toNat (v.stackTop - d)
  have h₂ := dwordAddr_toNat (v.stackTop - 12)
  intro b hb
  rw [stackUsed]
  rw [mem_span] at hb ⊢
  bv_omega

theorem slots_disjoint (hp : v.Placed m) {d e : BitVec 32} (hd : d.toNat + 4 ≤ e.toNat)
    (he : e.toNat ≤ 12) :
    Disjoint (span (dwordAddr (v.stackTop - d)) 4) (span (dwordAddr (v.stackTop - e)) 4) := by
  have htop := hp.stackTop_toNat
  have h₁ := dwordAddr_toNat (v.stackTop - d)
  have h₂ := dwordAddr_toNat (v.stackTop - e)
  rw [Set.disjoint_left]
  intro b hb hb'
  rw [mem_span] at hb hb'
  bv_omega

theorem Midway.pushed (hp : v.Placed m) (hA : stackUsed v ⊆ A) (h : Midway v A c₀ c)
    (ret : BitVec 32) :
    InCall v A ret c₀ (pushed ret c) := by
  have hesp : c.esp - 4 = v.stackTop - 8 := by
    rw [h.esp]
    bv_omega
  have hmem : (SkipOS.pushed ret c).gen.mem =
      c.gen.mem.storeLE (dwordAddr (v.stackTop - 8)) 4 ret.toNat := by
    rw [← hesp]
    rfl
  refine ⟨hesp, ?_, ?_, h.flat, fun b hb => ?_⟩
  · rw [hmem, load32_storeLE_of_disjoint _ (slots_disjoint hp (by decide) (by decide)), h.saved]
  · rw [hmem, load32_storeLE_self]
  · rw [hmem, storeLE_apply_of_not_mem fun hc => hb (hA (slot_subset hp (by decide) hc))]
    exact h.mem hb

theorem InCall.spilled (hp : v.Placed m) (hA : stackUsed v ⊆ A) (h : InCall v A ret c₀ c)
    (x : BitVec 32) :
    InCall v A ret c₀ (spilled x c) := by
  have hesp : c.esp - 4 = v.stackTop - 12 := by
    rw [h.esp]
    bv_omega
  have hmem : (SkipOS.spilled x c).gen.mem =
      c.gen.mem.storeLE (dwordAddr (v.stackTop - 12)) 4 x.toNat := by
    rw [← hesp]
    rfl
  have hkept {d : BitVec 32} (hd : d.toNat + 4 ≤ 12) :
      (SkipOS.spilled x c).gen.mem.load32 (dwordAddr (v.stackTop - d)) =
        c.gen.mem.load32 (dwordAddr (v.stackTop - d)) := by
    rw [hmem, load32_storeLE_of_disjoint _ (slots_disjoint hp hd (by decide))]
  refine ⟨h.esp, (hkept (by decide)).trans h.saved, (hkept (by decide)).trans h.ret, h.flat,
    fun b hb => ?_⟩
  rw [hmem, storeLE_apply_of_not_mem fun hc => hb (hA (slot_subset hp (by decide) hc))]
  exact h.mem hb

theorem InCall.of_eq (h : InCall v A ret c₀ c) (hesp : c₁.esp = c.esp) (hcr0 : c₁.cr0 = c.cr0)
    (hmem : c₁.gen.mem = c.gen.mem) : InCall v A ret c₀ c₁ :=
  ⟨hesp.trans h.esp, hmem ▸ h.saved, hmem ▸ h.ret, hcr0 ▸ h.flat, hmem ▸ h.mem⟩

theorem InCall.returned (h : InCall v A ret c₀ c) :
    Midway v A c₀ { c with esp := c.esp + 4 } := by
  refine ⟨?_, h.saved, h.flat, h.mem⟩
  rw [h.esp]
  bv_omega

theorem Midway.call (h : Midway v A c₀ c) (hrun : f (SkipOS.pushed ret c) = .ok () c₁)
    (hin : InCall v A' ret c₀ c₁) :
    BootCpu.callNear ret f c = .ok () { c₁ with esp := c₁.esp + 4 } := by
  have haddr : c₁.address c₁.esp = some (dwordAddr (v.stackTop - 8)) := by
    rw [address_flat hin.flat, hin.esp]
  exact callNear_of_ok h.flat hrun haddr hin.ret

theorem InCall.error (h : InCall v (stackUsed v) ret c₀ c) (n : Byte) :
    ∃ c', bootError n c = .error .halt c' ∧ ErrorShown v c₀ n c' := by
  obtain ⟨c', hrun, hmem⟩ := bootError_run h.flat n
  refine ⟨c', hrun, ?_, fun b hb => ?_⟩
  · rw [hmem]
    exact textMem_holds n _
  · rw [hmem]
    exact (textMem_eqOn n _ fun hc => hb (Or.inl hc)).trans (h.mem fun hc => hb (Or.inr hc))

/-! The checks. -/

theorem checkMultiboot_ok (h : c.gen.eax = multibootMagic) : checkMultiboot c = .ok () c := by
  rw [checkMultiboot, bind_get, if_neg (not_not.mpr h)]
  rfl

theorem checkMultiboot_error (hin : InCall v (stackUsed v) ret c₀ c)
    (h : c.gen.eax ≠ multibootMagic) :
    ∃ c', checkMultiboot c = .error .halt c' ∧ ErrorShown v c₀ 0x30 c' := by
  rw [checkMultiboot, bind_get, if_pos h]
  exact hin.error 0x30

theorem push_pop_bind {α : Type} {k : BitVec 32 → Exec BootCpu α} (hflat : c.cr0 &&& cr0Pg = 0)
    (x : BitVec 32) : (push x >>= fun _ => pop >>= k) c = k x (spilled x c) := by
  rw [bind_of_ok (push_flat hflat x), bind_of_ok (pop_pushed hflat x)]

/-- The ID flag reads back flipped exactly where it can be changed. -/
theorem poppedFlags_eq_iff (flags : BitVec 32) :
    poppedFlags hw ((flags &&& 0x00FCFFFF) ^^^ idFlagMask) flags &&& 0x00FCFFFF =
      flags &&& 0x00FCFFFF ↔ hw.idFlag = false := by
  have hid : idFlagMask[21] = true := by decide
  rw [poppedFlags]
  cases hw.idFlag with
  | true =>
    refine iff_of_false (fun he => ?_) nofun
    have hbit := congrArg (fun x => x[21]) he
    simp [hid] at hbit
  | false =>
    refine iff_of_true ?_ rfl
    ext i hi
    simp only [Bool.false_eq_true, if_false, BitVec.getElem_and, BitVec.getElem_or,
      BitVec.getElem_xor, BitVec.getElem_not]
    cases flags[i] <;> cases idFlagMask[i] <;> simp

theorem checkCpuid_eq (hw : Hardware) (hp : v.Placed m) (hA : stackUsed v ⊆ A)
    (h : InCall v A ret c₀ c) : ∃ c₁, InCall v A ret c₀ c₁ ∧
      checkCpuid hw c = (if hw.idFlag = false then bootError 0x31 else pure ()) c₁ := by
  let flags := c.eflags &&& 0x00FCFFFF
  let flipped := flags ^^^ idFlagMask
  let again := poppedFlags hw flipped c.eflags &&& 0x00FCFFFF
  have hin := (((h.spilled hp hA flags).spilled hp hA flipped).spilled hp hA again).spilled hp hA
    flags
  have hrun : ∃ c₁, checkCpuid hw c = (if again = flags then bootError 0x31 else pure ()) c₁ ∧
      c₁.esp = c.esp ∧ c₁.cr0 = c.cr0 ∧ c₁.gen.mem =
        (spilled flags (spilled again (spilled flipped (spilled flags c)))).gen.mem := by
    simp only [checkCpuid, pushfd, popfd, BootCpu.movEax, BootCpu.movEcx, bind_assoc, bind_get,
      bind_modify, push_pop_bind, spilled_cr0, h.flat, spilled_eflags, spilled_eax, spilled_ecx]
    exact ⟨_, rfl, rfl, rfl, rfl⟩
  obtain ⟨c₁, hrun, hesp, hcr0, hmem⟩ := hrun
  rw [if_congr (poppedFlags_eq_iff c.eflags) rfl rfl] at hrun
  exact ⟨c₁, hin.of_eq hesp hcr0 hmem, hrun⟩

theorem checkLongMode_eq (hw : Hardware) (h : InCall v A ret c₀ c) : ∃ c₁, InCall v A ret c₀ c₁ ∧
    checkLongMode hw c = (if (hw.cpuid 0x80000000).eax < 0x80000001 ∨
        (hw.cpuid 0x80000001).edx &&& (1 : BitVec 32) <<< 29 = 0
      then bootError 0x32 else pure ()) c₁ := by
  have hrun (r : CpuidResult) : InCall v A ret c₀ { c with
      gen := { c.gen with eax := r.eax, ecx := r.ecx, edx := r.edx }
      ebx := r.ebx } := h.of_eq rfl rfl rfl
  by_cases hmax : (hw.cpuid 0x80000000).eax < 0x80000001
  · refine ⟨_, hrun (hw.cpuid 0x80000000), ?_⟩
    rw [if_pos (Or.inl hmax)]
    simp only [checkLongMode, BootCpu.movEax, cpuid, bind_modify, bind_get, if_pos hmax]
  · refine ⟨_, hrun (hw.cpuid 0x80000001), ?_⟩
    rw [if_congr (or_iff_right hmax) rfl rfl]
    simp only [checkLongMode, BootCpu.movEax, cpuid, bind_modify, bind_get, if_neg hmax]

/-! Paging. -/

theorem bind_set {σ α : Type} (t : σ) (f : PUnit → Exec σ α) (s : σ) :
    (set t >>= f) s = f ⟨⟩ t := rfl

theorem or_and_self_ne_zero {w : Nat} {mask : BitVec w} (h : mask ≠ 0) (x : BitVec w) :
    (x ||| mask) &&& mask ≠ 0 := by
  have hself : (x ||| mask) &&& mask = mask := by
    ext i hi
    rw [BitVec.getElem_and, BitVec.getElem_or]
    cases x[i] <;> cases mask[i] <;> rfl
  rwa [hself]

theorem efer_lme (x y : BitVec 32) : (x ++ (y ||| (1 : BitVec 32) <<< 8)) &&& eferLme ≠ 0 := by
  intro h0
  have hbit : ((x ++ (y ||| (1 : BitVec 32) <<< 8)) &&& eferLme).getLsbD 8 = false := by
    rw [h0]
    rfl
  have hlme : eferLme.getLsbD 8 = true := by decide
  have hone : ((1 : BitVec 32) <<< 8).getLsbD 8 = true := by decide
  rw [BitVec.getLsbD_and, BitVec.getLsbD_append, if_pos (by decide), BitVec.getLsbD_or, hone, hlme,
    Bool.or_true] at hbit
  exact absurd hbit (by decide)

/-- Long mode and PAE are there before paging is. -/
theorem enablePaging_run (v : BootVars) (c : BootCpu) : ∃ c₁, enablePaging v c = .ok () c₁ ∧
    c₁.cr0 &&& cr0Pg ≠ 0 ∧ c₁.cr3 = v.p4Table ∧ c₁.efer &&& eferLma ≠ 0 ∧ c₁.esp = c.esp ∧
    c₁.gen.mem = c.gen.mem := by
  have hpg := or_and_self_ne_zero (show cr0Pg ≠ 0 by decide) c.cr0
  have hpae := or_and_self_ne_zero (show cr4Pae ≠ 0 by decide) c.cr4
  have hlme := efer_lme ((c.efer >>> 32).setWidth 32) (c.efer.setWidth 32)
  simp only [enablePaging, BootCpu.movEax, BootCpu.movEcx, rdmsr, wrmsr, movCr0, bind_modify,
    bind_get, bind_assoc, if_true, bind_set, if_pos (And.intro hpg hlme), if_neg hpae]
  exact ⟨_, rfl, hpg, rfl, or_and_self_ne_zero (by decide) _, rfl, rfl⟩

/-! From `start` to `kernel_main`. -/

/-- `start` up to the checks that can fail. -/
def checks (hw : Hardware) (v : BootVars) : Exec BootCpu Unit := do
  modify fun c => { c with esp := v.stackTop }
  push (← get).ebx
  callNear (v.ret 0) checkMultiboot
  callNear (v.ret 1) (checkCpuid hw)
  callNear (v.ret 2) (checkLongMode hw)

/-- The rest of `start`. -/
def enterLongMode (v : BootVars) (fuel : Nat) : Exec BootCpu Unit := do
  callNear (v.ret 3) (onGen (setUpPageTables v.p4Table fuel))
  callNear (v.ret 4) (enablePaging v)
  lgdt32 (v.gdt64 + 16)
  let edi ← pop
  modify fun c => { c with edi := edi }

theorem start_eq (hw : Hardware) (v : BootVars) (fuel : Nat) :
    start hw v fuel = checks hw v >>= fun _ => enterLongMode v fuel := by
  simp only [start, checks, enterLongMode, bind_assoc]

theorem midway_start (hp : v.Placed m) (hflat : c.cr0 &&& cr0Pg = 0) :
    Midway v (stackUsed v) c (pushed c.ebx { c with esp := v.stackTop }) :=
  ⟨rfl, load32_storeLE_self _ _ _, hflat, fun _ hb =>
    storeLE_apply_of_not_mem fun hc => hb (slot_subset hp (by decide) hc)⟩

theorem checks_run (hw : Hardware) (hp : v.Placed m) (hflat : c.cr0 &&& cr0Pg = 0) :
    match firstFailing hw c.gen.eax with
    | some n => ∃ c', checks hw v c = .error .halt c' ∧ ErrorShown v c n c'
    | none => ∃ c', checks hw v c = .ok () c' ∧ Midway v (stackUsed v) c c' := by
  have hA := Set.Subset.refl (stackUsed v)
  have hmid := midway_start hp hflat
  have hin := hmid.pushed hp hA (v.ret 0)
  have hbegin : checks hw v c = (callNear (v.ret 0) checkMultiboot >>= fun _ =>
      callNear (v.ret 1) (checkCpuid hw) >>= fun _ => callNear (v.ret 2) (checkLongMode hw))
        (pushed c.ebx { c with esp := v.stackTop }) := by
    rw [checks, bind_modify, bind_get]
    exact bind_of_ok (push_flat (c := { c with esp := v.stackTop }) hflat c.ebx) _
  rw [firstFailing, hbegin]
  by_cases hmagic : c.gen.eax = multibootMagic
  swap
  · obtain ⟨c', hrun, hshown⟩ := checkMultiboot_error hin hmagic
    rw [if_pos hmagic]
    exact ⟨c', bind_of_error (callNear_of_error hmid.flat hrun) _, hshown⟩
  rw [if_neg (not_not.mpr hmagic), bind_of_ok (hmid.call (checkMultiboot_ok hmagic) hin)]
  have hmid := hin.returned
  obtain ⟨c₁, hin, hrun⟩ := checkCpuid_eq hw hp hA (hmid.pushed hp hA (v.ret 1))
  by_cases hid : hw.idFlag = false
  · obtain ⟨c', herror, hshown⟩ := hin.error 0x31
    rw [if_pos hid] at hrun ⊢
    exact ⟨c', bind_of_error (callNear_of_error hmid.flat (hrun.trans herror)) _, hshown⟩
  rw [if_neg hid] at hrun ⊢
  rw [bind_of_ok (hmid.call hrun hin)]
  have hmid := hin.returned
  obtain ⟨c₂, hin, hrun⟩ := checkLongMode_eq hw (hmid.pushed hp hA (v.ret 2))
  split at hrun
  case isTrue hlong =>
    obtain ⟨c', herror, hshown⟩ := hin.error 0x32
    rw [if_pos hlong]
    exact ⟨c', callNear_of_error hmid.flat (hrun.trans herror), hshown⟩
  case isFalse hlong =>
    rw [if_neg hlong]
    exact ⟨_, hmid.call hrun hin, hin.returned⟩

/-! The tables, below the stack. -/

theorem stackUsed_subset (hp : v.Placed m) : stackUsed v ⊆ tablesAndStack v := by
  have htop := hp.stackTop_toNat
  have hbss := hp.bss
  have h₁ := dwordAddr_toNat (v.stackTop - 12)
  have h₂ := dwordAddr_toNat v.p4Table
  intro b hb
  rw [stackUsed, mem_span] at hb
  rw [tablesAndStack, mem_span]
  bv_omega

theorem frame_subset_tables (hp : v.Placed m) {d : BitVec 32} (hd : d.toNat ≤ 8192) :
    frame (dwordAddr (v.p4Table + d)) ⊆ span (dwordAddr v.p4Table) 12288 := by
  have hbss := hp.bss
  have h₁ := dwordAddr_toNat (v.p4Table + d)
  have h₂ := dwordAddr_toNat v.p4Table
  intro b hb
  rw [frame, mem_span] at hb
  rw [mem_span]
  bv_omega

theorem stackUsed_disjoint_tables (hp : v.Placed m) :
    Disjoint (stackUsed v) (span (dwordAddr v.p4Table) 12288) := by
  have htop := hp.stackTop_toNat
  have hbss := hp.bss
  have h₁ := dwordAddr_toNat (v.stackTop - 12)
  have h₂ := dwordAddr_toNat v.p4Table
  rw [Set.disjoint_left]
  intro b hb hb'
  rw [stackUsed, mem_span] at hb
  rw [mem_span] at hb'
  bv_omega

theorem tables_subset (v : BootVars) : span (dwordAddr v.p4Table) 12288 ⊆ tablesAndStack v :=
  span_mono (by decide)

/-- The three tables. -/
def bootFrames (v : BootVars) : List (BitVec 32) :=
  [v.p4Table, p3TableOf v.p4Table, p2TableOf v.p4Table]

theorem bootFrame_subset (hp : v.Placed m) {t : BitVec 32} (ht : t ∈ bootFrames v) :
    frame (dwordAddr t) ⊆ span (dwordAddr v.p4Table) 12288 := by
  rw [bootFrames, List.mem_cons, List.mem_cons, List.mem_singleton] at ht
  obtain rfl | rfl | rfl := ht
  · exact span_mono (by decide)
  · exact frame_subset_tables hp (by decide)
  · exact frame_subset_tables hp (by decide)

theorem tablesMem_eqOn (p4 p3 p2 : Word) (m : Mem) :
    Set.EqOn (tablesMem p4 p3 p2 m) m (frame p4 ∪ frame p3 ∪ frame p2)ᶜ := by
  intro b hb
  have h2 : tablesMem p4 p3 p2 m b =
      storeLow (storeLow m p4 0 (linked p3)) p3 0 (linked p2) b :=
    p2Mem_eqOn (by decide) fun hc => hb (Or.inr hc)
  have h3 := storeLow_eqOn (m := storeLow m p4 0 (linked p3)) (v := linked p2) (i := 0)
    (by decide) fun hc => hb (Or.inl (Or.inr hc))
  have h4 := storeLow_eqOn (m := m) (v := linked p3) (i := 0) (by decide)
    fun hc => hb (Or.inl (Or.inl hc))
  exact h2.trans (h3.trans h4)

/-- The tables of `v`. -/
def TablesOf (v : BootVars) (m : Mem) : Prop :=
  BootTables m (dwordAddr v.p4Table) (dwordAddr (p3TableOf v.p4Table))
    (dwordAddr (p2TableOf v.p4Table))

theorem TablesOf.congr {m' : Mem} (hp : v.Placed m) {m₁ : Mem} (h : TablesOf v m₁)
    (he : Set.EqOn m' m₁ (span (dwordAddr v.p4Table) 12288)) : TablesOf v m' := by
  refine BootTables.congr h fun _ ht => ?_
  obtain ⟨t, hframe, rfl⟩ := List.mem_map.mp (show _ ∈ (bootFrames v).map dwordAddr from ht)
  exact he.mono (bootFrame_subset hp hframe)

/-- The call of `set_up_page_tables`: the frames of `.bss` are still zero when it starts. -/
theorem tables_call (hp : v.Placed c₀.gen.mem) (h : Midway v (stackUsed v) c₀ c) : ∃ c',
    Returns (fun fuel => callNear (v.ret 3) (onGen (setUpPageTables v.p4Table fuel))) c () c' ∧
    Midway v (tablesAndStack v) c₀ c' ∧ TablesOf v c'.gen.mem := by
  have hin := h.pushed hp (Set.Subset.refl _) (v.ret 3)
  let c₁ := pushed (v.ret 3) c
  have hzero : ∀ t ∈ bootFrames v, ZeroFrame c₁.gen.mem (dwordAddr t) := by
    intro t ht b hb
    have htable := bootFrame_subset hp ht hb
    rw [hin.mem fun hc => Set.disjoint_left.mp (stackUsed_disjoint_tables hp) hc htable]
    exact hp.zero b htable
  obtain ⟨g, hrun, hmem⟩ := setUpPageTables_returns hp.aligned c₁.gen
  obtain ⟨g', hrun', htables⟩ := setUpPageTables_builds hp.aligned c₁.gen hzero
  obtain ⟨-, rfl⟩ := hrun.unique hrun'
  have heq : Set.EqOn g.mem c₁.gen.mem (span (dwordAddr v.p4Table) 12288)ᶜ := by
    have hsub {t : BitVec 32} (ht : t ∈ bootFrames v) := bootFrame_subset hp ht
    rw [hmem]
    refine (tablesMem_eqOn _ _ _ _).mono (Set.compl_subset_compl.mpr ?_)
    exact Set.union_subset (Set.union_subset (hsub (by simp [bootFrames]))
      (hsub (by simp [bootFrames]))) (hsub (by simp [bootFrames]))
  have hkept {d : BitVec 32} (hd : 4 ≤ d.toNat ∧ d.toNat ≤ 12) :
      g.mem.load32 (dwordAddr (v.stackTop - d)) =
        c₁.gen.mem.load32 (dwordAddr (v.stackTop - d)) :=
    congrArg (BitVec.ofNat 32) (loadLE_congr (by decide) (heq.mono fun b hb hc =>
      Set.disjoint_left.mp (stackUsed_disjoint_tables hp) (slot_subset hp hd hb) hc))
  have hin' : InCall v (tablesAndStack v) (v.ret 3) c₀ { c₁ with gen := g } :=
    ⟨hin.esp, (hkept (by decide)).trans hin.saved, (hkept (by decide)).trans hin.ret, hin.flat,
      fun b hb => (heq fun hc => hb (tables_subset v hc)).trans
        (hin.mem fun hc => hb (stackUsed_subset hp hc))⟩
  obtain ⟨rounds, hrun⟩ := hrun
  have hcall : ∀ fuel ≥ rounds, callNear (v.ret 3) (onGen (setUpPageTables v.p4Table fuel)) c =
      .ok () { c₁ with gen := g, esp := c₁.esp + 4 } := fun fuel hle =>
    h.call (zoom_of_ok (hrun fuel hle)) hin'
  exact ⟨_, ⟨rounds, hcall⟩, hin'.returned, htables⟩

/-- Long mode is active with the tables of `v`. -/
structure Paged (v : BootVars) (c : BootCpu) : Prop where
  pg : c.cr0 &&& cr0Pg ≠ 0
  lma : c.efer &&& eferLma ≠ 0
  cr3 : c.cr3 = v.p4Table
  tables : TablesOf v c.gen.mem

theorem Paged.address (h : Paged v c) {a : BitVec 32} (ha : a.toNat < 2 ^ 30) :
    c.address a = some (dwordAddr a) := by
  have hlt : (dwordAddr a).toNat < 2 ^ 30 := by rwa [dwordAddr_toNat]
  rw [BootCpu.address, if_neg h.pg, if_neg h.lma, h.cr3]
  exact h.tables.translate_iff.mpr ⟨hlt, rfl⟩

theorem InCall.tables (hp : v.Placed m) (h : Midway v A c₀ c) (ht : TablesOf v c.gen.mem)
    (ret : BitVec 32) : TablesOf v (SkipOS.pushed ret c).gen.mem := by
  refine ht.congr hp fun b hb => storeLE_apply_of_not_mem fun hc => ?_
  have hesp : c.esp - 4 = v.stackTop - 8 := by
    rw [h.esp]
    bv_omega
  rw [hesp] at hc
  exact Set.disjoint_left.mp (stackUsed_disjoint_tables hp) (slot_subset hp (by decide) hc) hb

/-- The return from `enable_paging` goes through the tables. -/
theorem paging_call (hp : v.Placed m) (h : Midway v (tablesAndStack v) c₀ c)
    (ht : TablesOf v c.gen.mem) : ∃ c', callNear (v.ret 4) (enablePaging v) c = .ok () c' ∧
      Paged v c' ∧ c'.esp = v.stackTop - 4 ∧ c'.gen.mem = (pushed (v.ret 4) c).gen.mem := by
  have hin := h.pushed hp (stackUsed_subset hp) (v.ret 4)
  obtain ⟨c₁, hrun, hpg, hcr3, hlma, hesp, hmem⟩ := enablePaging_run v (pushed (v.ret 4) c)
  have hpaged : Paged v c₁ := by
    refine ⟨hpg, hlma, hcr3, ?_⟩
    rw [hmem]
    exact InCall.tables hp h ht (v.ret 4)
  have htop := hp.stackTop_toNat
  have hbss := hp.bss
  have hslot : c₁.esp = v.stackTop - 8 := hesp.trans hin.esp
  have haddr : c₁.address c₁.esp = some (dwordAddr (v.stackTop - 8)) := by
    rw [hslot]
    exact hpaged.address (by bv_omega)
  have hret : c₁.gen.mem.load32 (dwordAddr (v.stackTop - 8)) = v.ret 4 := by
    rw [hmem]
    exact hin.ret
  refine ⟨_, callNear_of_ok h.flat hrun haddr hret, ⟨hpg, hlma, hcr3, hpaged.tables⟩, ?_, hmem⟩
  show c₁.esp + 4 = _
  rw [hslot]
  bv_omega

/-- `start` from the tables on. -/
structure InLongMode (v : BootVars) (c₀ c : BootCpu) : Prop where
  paged : Paged v c
  esp : c.esp = v.stackTop
  edi : c.edi = c₀.ebx
  gdtr : c.gdtr = ⟨15, dwordAddr v.gdt64⟩
  mem : Set.EqOn c.gen.mem c₀.gen.mem (tablesAndStack v)ᶜ

theorem gdt64_eqOn (hp : v.Placed m) {m₁ m₂ : Mem} (h : Set.EqOn m₂ m₁ (tablesAndStack v)ᶜ) :
    Set.EqOn m₂ m₁ (span (dwordAddr v.gdt64) 26) :=
  h.mono (Set.subset_compl_iff_disjoint_right.mpr hp.apart)

theorem enterLongMode_returns (hp : v.Placed c₀.gen.mem) (h : Midway v (stackUsed v) c₀ c) :
    ∃ c', Returns (enterLongMode v) c () c' ∧ InLongMode v c₀ c' := by
  obtain ⟨c₁, hrun₁, hmid, htables⟩ := tables_call hp h
  obtain ⟨c₂, hrun₂, hpaged, hesp, hmem⟩ := paging_call hp hmid htables
  have hin := hmid.pushed hp (stackUsed_subset hp) (v.ret 4)
  have htop := hp.stackTop_toNat
  have hbss := hp.bss
  have hgdt := hp.rodata
  have hkept : Set.EqOn c₂.gen.mem c₀.gen.mem (tablesAndStack v)ᶜ := hmem ▸ hin.mem
  have hrodata := gdt64_eqOn hp hkept
  have hoffset {d : BitVec 32} (hd : d.toNat + 4 ≤ 26) :
      dwordAddr (v.gdt64 + d) = dwordAddr v.gdt64 + d.setWidth 64 := by
    apply BitVec.eq_of_toNat_eq
    rw [dwordAddr_toNat, dwordAddr]
    bv_omega
  have hlimit : c₂.gen.mem.loadLE (dwordAddr v.gdt64 + 16) 2 = 15 := by
    rw [loadLE_congr (by decide) (hrodata.mono (span_offset_subset (by decide)))]
    exact hp.limit
  have hbase : c₂.gen.mem.load32 (dwordAddr v.gdt64 + 16 + 2) = v.gdt64 := by
    rw [BitVec.add_assoc, load32, loadLE_congr (by decide)
      (hrodata.mono (span_offset_subset (by decide)))]
    exact hp.base
  have haddr : c₂.address (v.gdt64 + 16) = some (dwordAddr v.gdt64 + 16) := by
    rw [hpaged.address (by bv_omega), hoffset (by decide)]
    rfl
  let c₃ : BootCpu := { c₂ with gdtr := ⟨15, dwordAddr v.gdt64⟩ }
  have hlgdt : lgdt32 (v.gdt64 + 16) c₂ = .ok () c₃ := by
    rw [lgdt32, bind_of_ok (addressOf_of_some haddr), modify_apply, hlimit, hbase]
    rfl
  have hpop : c₃.address c₃.esp = some (dwordAddr (v.stackTop - 4)) := by
    have hslot : c₃.esp = v.stackTop - 4 := hesp
    rw [hslot]
    exact Paged.address (c := c₃) ⟨hpaged.pg, hpaged.lma, hpaged.cr3, hpaged.tables⟩ (by bv_omega)
  have hsaved : c₃.gen.mem.load32 (dwordAddr (v.stackTop - 4)) = c₀.ebx := by
    show c₂.gen.mem.load32 _ = _
    rw [hmem]
    exact hin.saved
  refine ⟨{ c₃ with esp := c₃.esp + 4, edi := c₀.ebx }, ?_, ?_⟩
  · refine hrun₁.bind ⟨0, fun fuel _ => ?_⟩
    refine (bind_of_ok hrun₂ _).trans ((bind_of_ok hlgdt _).trans ?_)
    rw [bind_of_ok (pop_of_address hpop), hsaved]
    rfl
  · refine ⟨⟨hpaged.pg, hpaged.lma, hpaged.cr3, hpaged.tables⟩, ?_, rfl, rfl, hkept⟩
    show c₂.esp + 4 = _
    rw [hesp]
    bv_omega

theorem InLongMode.atKernelMain {kernelMain ret : Word} {p : Processor}
    (hp : v.Placed c₀.gen.mem) (h : InLongMode v c₀ c) (hcs : p.cs = gdtOffsetKernelCode)
    (hrdi : p.cpu.regs .rdi = c.edi.setWidth 64) (hrsp : p.cpu.regs .rsp = c.esp.setWidth 64)
    (hmem : p.cpu.mem = c.gen.mem) :
    AtKernelMain v c₀ kernelMain ret (longModeStart kernelMain ret p) := by
  have htop := hp.stackTop_toNat
  have hbss := hp.bss
  have hwide := dwordAddr_toNat v.stackTop
  have hbase := dwordAddr_toNat v.p4Table
  have hsp : p.cpu.regs .rsp = dwordAddr v.stackTop := by
    rw [hrsp, h.esp]
    rfl
  let cpu := p.cpu.set .rax ((p.cpu.regs .rax >>> 16) <<< 16)
  have hslot : (longModeStart kernelMain ret p).cpu.regs .rsp = dwordAddr v.stackTop - 8 := by
    have hkept : cpu.regs .rsp = p.cpu.regs .rsp := Cpu.set_regs_ne (by decide) _ _
    have hpush : (longModeStart kernelMain ret p).cpu.regs .rsp = cpu.regs .rsp - 8 :=
      Cpu.set_regs_self .rsp (cpu.regs .rsp - 8) cpu
    rw [hpush, hkept, hsp]
  have hstore : (longModeStart kernelMain ret p).cpu.mem =
      c.gen.mem.store64 (dwordAddr v.stackTop - 8) ret := by
    rw [← hslot, ← hmem]
    rfl
  have hout : Disjoint (span (dwordAddr v.stackTop - 8) 8)
      (span (dwordAddr v.p4Table) 12288) := by
    rw [Set.disjoint_left]
    intro b hb hb'
    rw [mem_span] at hb hb'
    bv_omega
  have htables : TablesOf v (longModeStart kernelMain ret p).cpu.mem := by
    rw [hstore]
    exact h.paged.tables.congr hp fun b hb =>
      storeLE_apply_of_not_mem fun hc => Set.disjoint_left.mp hout hc hb
  refine ⟨rfl, hcs, rfl, ?_, ?_, ?_, fun va pa => htables.translate_iff, fun b hb => ?_⟩
  · have hrsp' : (longModeStart kernelMain ret p).cpu.regs .rdi = cpu.regs .rdi :=
      Cpu.set_regs_ne (show Reg.rdi ≠ .rsp by decide) (cpu.regs .rsp - 8) cpu
    have hrax : cpu.regs .rdi = p.cpu.regs .rdi := Cpu.set_regs_ne (by decide) _ _
    rw [hrsp', hrax, hrdi, h.edi]
  · rw [hslot, BitVec.sub_add_cancel]
  · rw [hslot, hstore, load64_store64_self]
  · rw [hstore]
    refine (storeLE_apply_of_not_mem fun hc => hb ?_).trans (h.mem hb)
    rw [mem_span] at hc
    rw [tablesAndStack, mem_span]
    bv_omega

theorem InLongMode.farJump (rest : Reg → Word) (target : Word) (hp : v.Placed c₀.gen.mem)
    (h : InLongMode v c₀ c) : ∃ p, SkipOS.farJump rest gdtOffsetKernelCode target c = some p ∧
      p.cs = gdtOffsetKernelCode ∧ p.cpu = ⟨widened rest c, c.gen.mem⟩ := by
  have hcode : c.gen.mem.load64 (dwordAddr v.gdt64 + 8) = codeSegment := by
    rw [load64_congr ((gdt64_eqOn hp h.mem).mono (span_offset_subset (by decide)))]
    exact hp.code
  have hroom : (selectorOffset gdtOffsetKernelCode).toNat + 7 ≤ (15 : BitVec 16).toNat := by
    decide
  have hoffset : (selectorOffset gdtOffsetKernelCode).setWidth 64 = (8 : Word) := by decide
  have henters : (decodeUsrDesc codeSegment).Enters := by decide
  have hloads {p : Processor} (hgdtr : p.gdtr = c.gdtr) (hmem : p.cpu.mem = c.gen.mem) :
      p.LoadsCode gdtOffsetKernelCode := by
    rw [Processor.LoadsCode, hgdtr, hmem, h.gdtr, hoffset, hcode]
    exact ⟨by decide, by decide, hroom, henters⟩
  exact ⟨_, if_pos ⟨h.paged.lma, hloads rfl rfl⟩, rfl, rfl⟩

/-- Either the checks pass and `kernel_main` is entered in long mode with the pointer of the boot
loader, the first gigabyte mapped to itself and the whole stack free, or the digit of the first
check that fails is on the screen; nothing else in memory has changed. -/
theorem boots (hw : Hardware) (hp : v.Placed c.gen.mem) (hflat : c.cr0 &&& cr0Pg = 0)
    (rest : Reg → Word) (target kernelMain ret : Word) :
    match firstFailing hw c.gen.eax with
    | some n => ∃ c', (∀ fuel, start hw v fuel c = .error .halt c') ∧ ErrorShown v c n c'
    | none => ∃ c' p, Returns (start hw v) c () c' ∧ c'.cr3 = v.p4Table ∧
        farJump rest gdtOffsetKernelCode target c' = some p ∧
        AtKernelMain v c kernelMain ret (longModeStart kernelMain ret p) := by
  have hchecks := checks_run hw hp hflat
  cases hfail : firstFailing hw c.gen.eax with
  | some n =>
    rw [hfail] at hchecks
    obtain ⟨c', hrun, hshown⟩ := hchecks
    refine ⟨c', fun fuel => ?_, hshown⟩
    rw [start_eq, bind_of_error hrun]
  | none =>
    rw [hfail] at hchecks
    obtain ⟨c₁, hrun, hmid⟩ := hchecks
    obtain ⟨c₂, ⟨rounds, hrest⟩, hlong⟩ := enterLongMode_returns hp hmid
    obtain ⟨p, hjump, hcs, hcpu⟩ := hlong.farJump rest target hp
    refine ⟨c₂, p, ⟨rounds, fun fuel hle => ?_⟩, hlong.paged.cr3, hjump, ?_⟩
    · rw [start_eq, bind_of_ok hrun, hrest fuel hle]
    · exact hlong.atKernelMain hp hcs (by rw [hcpu]; rfl) (by rw [hcpu]; rfl) (by rw [hcpu])

def kernelBoot : BootVars where
  p4Table := 0x110000
  gdt64 := 0x105000
  ret i := 0x10000B + 5 * BitVec.ofNat 32 i

/-- A processor with long mode. -/
def amd64 : Hardware where
  cpuid leaf := if leaf = 0x80000000 then ⟨0x80000008, 0, 0, 0⟩ else ⟨0, 0, 0, 0x2C100800⟩
  idFlag := true

/-- What the boot loader leaves: the kernel loaded, and a pointer to its tags. -/
def loaded : BootCpu where
  gen := ⟨multibootMagic, 0, 0, (((Mem.store64 (fun _ => 0) 0x105008 codeSegment).storeLE
    0x105010 2 15).storeLE 0x105012 4 0x105000)⟩
  ebx := 0x120000
  esp := 0x7FF00
  edi := 0
  eflags := 0x2
  cr0 := 0x11
  cr3 := 0
  cr4 := 0
  efer := 0
  ss := 0x10
  gdtr := ⟨0, 0⟩
  idtr := ⟨0, 0⟩
  tr := ⟨0, 0, 0⟩

theorem kernelBoot_placed : kernelBoot.Placed loaded.gen.mem where
  aligned := by decide
  bss := by decide
  rodata := by decide
  apart := span_disjoint (by decide) (by decide)
  zero := by
    intro b hb
    have hout {a : Word} {k : Nat} (h : Disjoint (span (0x110000 : Word) 12288) (span a k)) :
        b ∉ span a k := Set.disjoint_left.mp h hb
    refine (storeLE_apply_of_not_mem (hout ?_)).trans ((storeLE_apply_of_not_mem (hout ?_)).trans
      (storeLE_apply_of_not_mem (hout ?_)))
    · exact (span_disjoint (by decide) (by decide)).symm
    · exact (span_disjoint (by decide) (by decide)).symm
    · exact (span_disjoint (by decide) (by decide)).symm
  code := by decide
  limit := by decide
  base := by decide

theorem boots_amd64 : ∃ c' p, Returns (start amd64 kernelBoot) loaded () c' ∧
    c'.cr3 = kernelBoot.p4Table ∧
    farJump (fun _ => 0) gdtOffsetKernelCode 0x100200 c' = some p ∧
    AtKernelMain kernelBoot loaded 0x101000 0x100220 (longModeStart 0x101000 0x100220 p) :=
  boots amd64 kernelBoot_placed rfl (fun _ => 0) 0x100200 0x101000 0x100220

end SkipOS
