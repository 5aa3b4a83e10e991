import SkipOS.Lib.Stack

/-! The interrupt stubs of `isr_entry.asm` and `isr_common.asm`, from the entry of
`isr_N` up to `iretq`, around an arbitrary `isr_helper`. -/

namespace SkipOS

inductive Reg where
  | rax | rbx | rcx | rdx | rsi | rdi | rbp | rsp
  | r8 | r9 | r10 | r11 | r12 | r13 | r14 | r15
  deriving DecidableEq

structure Cpu where
  regs : Reg → Word
  mem : Mem

namespace Cpu

def set (r : Reg) (v : Word) (s : Cpu) : Cpu :=
  { s with regs := fun x => if x = r then v else s.regs x }

def push (v : Word) (s : Cpu) : Cpu :=
  let s := s.set .rsp (s.regs .rsp - 8)
  { s with mem := s.mem.store64 (s.regs .rsp) v }

end Cpu

/-- The straight-line instructions of the stubs. -/
inductive Op where
  | push (r : Reg)
  | pop (r : Reg)
  | movImm (r : Reg) (v : Word)
  /-- `mov r, [rsp + off]` -/
  | movLoad (r : Reg) (off : Word)
  /-- `mov [rsp + off], r` -/
  | movStore (off : Word) (r : Reg)

def Op.run : Op → Cpu → Cpu
  | .push r, s => s.push (s.regs r)
  | .pop r, s =>
    let v := s.mem.load64 (s.regs .rsp)
    (s.set .rsp (s.regs .rsp + 8)).set r v
  | .movImm r v, s => s.set r v
  | .movLoad r off, s => s.set r (s.mem.load64 (s.regs .rsp + off))
  | .movStore off r, s => { s with mem := s.mem.store64 (s.regs .rsp + off) (s.regs r) }

inductive Label where
  | isrNonerror | isrError | isrGeneral

inductive Instr where
  | op (o : Op)
  | jmp (l : Label)
  | callIsrHelper
  | iretq

/-- `isr_common.asm`. -/
def isrCommon : Label → List Instr
  | .isrNonerror => [.op (.push .rsi), .op (.push .rax), .jmp .isrGeneral]
  | .isrError =>
    [.op (.push .rax), .op (.push .rsi), .op (.movLoad .rsi 16), .op (.pop .rax),
      .op (.movStore 8 .rax), .jmp .isrGeneral]
  | .isrGeneral =>
    [.op (.push .rcx), .op (.push .rdx), .op (.push .r8), .op (.push .r9), .op (.push .r10),
      .op (.push .r11), .callIsrHelper, .op (.pop .r11), .op (.pop .r10), .op (.pop .r9),
      .op (.pop .r8), .op (.pop .rdx), .op (.pop .rcx), .op (.pop .rax), .op (.pop .rsi),
      .op (.pop .rdi), .iretq]

def errorIsrs : List (BitVec 8) := [8, 10, 11, 12, 13, 14, 17, 30]

instance (n : BitVec 8) : Decidable (n ∈ errorIsrs) := List.instDecidableMemOfLawfulBEq n errorIsrs

/-- The stub `isr_N` as `gen_isrs` prints it. -/
def isrEntry (n : BitVec 8) : List Instr :=
  [.op (.push .rdi), .op (.movImm .rdi (n.setWidth 64)),
    .jmp (if n ∈ errorIsrs then .isrError else .isrNonerror)]

/-- The processor and the arguments of the calls of `isr_helper` so far. -/
structure IsrState where
  cpu : Cpu
  calls : List (BitVec 8 × BitVec 32)

/-- Runs to the first `iretq`. `helper` is the effect of `isr_helper`, its `ret` included,
and `ret` the return address that `call` pushes. -/
def execIsr (helper : Cpu → Cpu) (ret : Word) : Nat → List Instr → IsrState → Option IsrState
  | 0, _, _ => none
  | _ + 1, [], _ => none
  | _ + 1, .iretq :: _, s => some s
  | fuel + 1, .jmp l :: _, s => execIsr helper ret fuel (isrCommon l) s
  | fuel + 1, .op o :: rest, s => execIsr helper ret fuel rest { s with cpu := o.run s.cpu }
  | fuel + 1, .callIsrHelper :: rest, s =>
    execIsr helper ret fuel rest
      ⟨helper (s.cpu.push ret), s.calls ++ [((s.cpu.regs .rdi).setWidth 8, (s.cpu.regs .rsi).setWidth 32)]⟩

/-- More than the instructions of any stub. -/
def stubFuel : Nat := 32

/-- The registers a C function gives back as it found them. -/
def calleeSaved : List Reg := [.rbx, .rbp, .r12, .r13, .r14, .r15]

/-- The C ABI for `isr_helper`: entered with `rsp` at the return address, it returns past
it, keeps the callee-saved registers and leaves the nine registers saved above alone. -/
structure FollowsAbi (helper : Cpu → Cpu) : Prop where
  saved : ∀ s, ∀ r ∈ calleeSaved, (helper s).regs r = s.regs r
  rsp : ∀ s, (helper s).regs .rsp = s.regs .rsp + 8
  stack : ∀ s, Set.EqOn (helper s).mem s.mem (Mem.span (s.regs .rsp + 8) 72)

/-- The error code the processor pushed, on top of the stack at the entry of the stub. -/
def errorCode (s : Cpu) : Word := s.mem.load64 (s.regs .rsp)

/-- Where the processor pushed RIP. -/
def ripSlot (n : BitVec 8) (s : Cpu) : Word :=
  if n ∈ errorIsrs then s.regs .rsp + 8 else s.regs .rsp

/-- Interrupt `n` in state `s` is handled without a trace: one call of `isr_helper` with
the vector and the error code, every register back and `rsp` at RIP. -/
def IsrTransparent (helper : Cpu → Cpu) (ret : Word) (n : BitVec 8) (s : Cpu) : Prop :=
  ∃ t, execIsr helper ret stubFuel (isrEntry n) ⟨s, []⟩ = some t ∧
    (∀ r, r ≠ .rsp → t.cpu.regs r = s.regs r) ∧ t.cpu.regs .rsp = ripSlot n s ∧
    ∃ error, t.calls = [(n, error)] ∧ (n ∈ errorIsrs → error = (errorCode s).setWidth 32)

end SkipOS
