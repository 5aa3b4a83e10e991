import SkipOS.Descriptors
import SkipOS.IsrStub

/-! The processor in 64-bit mode at the highest privilege, as far as it takes interrupts: the
registers for its tables, the delivery through a gate and `iretq`. -/

namespace SkipOS

open Mem

/-- What `lgdt` and `lidt` load. -/
structure TableReg where
  limit : BitVec 16
  base : Word

/-- The task register with what `ltr` keeps of the descriptor. -/
structure TaskReg where
  selector : BitVec 16
  base : Word
  limit : BitVec 32

structure Processor where
  cpu : Cpu
  rip : Word
  cs : BitVec 16
  ss : BitVec 16
  rflags : Word
  gdtr : TableReg
  idtr : TableReg
  tr : TaskReg

/-- The access byte and the flags of a code descriptor; 64-bit mode takes neither base nor limit
from it. -/
@[ext] structure UsrDesc where
  access : Byte
  flags : BitVec 4

def decodeUsrDesc (d : BitVec 64) : UsrDesc where
  access := d.extractLsb' 40 8
  flags := d.extractLsb' 52 4

/-- Present, of privilege 0, code, and 64-bit code. -/
def UsrDesc.Enters (d : UsrDesc) : Prop := d.access &&& 0xF8 = 0x98 ∧ d.flags &&& 0b0110 = 0b0010

instance : DecidablePred UsrDesc.Enters := fun _ => inferInstanceAs (Decidable (_ ∧ _))

/-- The table bit and the privilege of a selector aside, its offset in the table. -/
def selectorOffset (selector : BitVec 16) : BitVec 16 := selector &&& 0xFFF8

namespace Processor

/-- `cs` can be loaded with the selector. The accessed bit that the processor sets then is not
written. -/
def LoadsCode (p : Processor) (selector : BitVec 16) : Prop :=
  selectorOffset selector ≠ 0 ∧ selector &&& 0x4 = 0 ∧
  (selectorOffset selector).toNat + 7 ≤ p.gdtr.limit.toNat ∧
  (decodeUsrDesc
    (p.cpu.mem.load64 (p.gdtr.base + (selectorOffset selector).setWidth 64))).Enters

instance (p : Processor) : DecidablePred p.LoadsCode := fun _ =>
  inferInstanceAs (Decidable (_ ∧ _ ∧ _ ∧ _))

/-- The stack that a gate switches to. -/
def interruptStack (p : Processor) (ist : BitVec 3) : Option Word :=
  if ist = 0 then some (p.cpu.regs .rsp)
  else if 0x1C + 8 * ist.toNat + 7 ≤ p.tr.limit.toNat then
    some (p.cpu.mem.load64 (p.tr.base + (0x1C + 8 * ist.setWidth 64)))
  else none

def pushFrame (p : Processor) (stack : Word) (error : Option Word) : Cpu :=
  let cpu := (p.cpu.set .rsp (stack &&& ~~~(0xF : Word))).push (p.ss.setWidth 64)
  let cpu := (cpu.push (p.cpu.regs .rsp)).push p.rflags
  let cpu := (cpu.push (p.cs.setWidth 64)).push p.rip
  error.elim cpu cpu.push

/-- IF, TF, NT, RF and VM. -/
def interruptFlags : Word := 0x34300

/-- The interrupt `vec`, with an error code or without; `none` where it faults. -/
def deliver (vec : Byte) (error : Option Word) (p : Processor) : Option Processor :=
  let gate := decodeGate (descriptor p.cpu.mem (idtEntryPtr p.idtr.base vec))
  if 16 * vec.toNat + 15 ≤ p.idtr.limit.toNat ∧ gate.attributes &&& 0x9F = 0x8E ∧
      p.LoadsCode gate.selector then
    (p.interruptStack gate.ist).map fun stack =>
      { p with
        cpu := p.pushFrame stack error
        rip := gate.offset
        cs := gate.selector &&& 0xFFFC
        rflags := p.rflags &&& ~~~interruptFlags }
  else none

def stackWord (p : Processor) (i : Nat) : Word :=
  p.cpu.mem.load64 (p.cpu.regs .rsp + BitVec.ofNat 64 (8 * i))

/-- The return to the same privilege, where `ss` is null; `none` where it faults. -/
def iretq (p : Processor) : Option Processor :=
  let cs := (p.stackWord 1).setWidth 16
  let ss := (p.stackWord 4).setWidth 16
  if p.LoadsCode cs ∧ cs &&& 3 = 0 ∧ ss = 0 then
    some { p with
      cpu := p.cpu.set .rsp (p.stackWord 3)
      rip := p.stackWord 0
      cs := cs
      rflags := p.stackWord 2
      ss := ss }
  else none

/-- The address of the ten bytes is the operand. -/
def lgdt (a : Word) (p : Processor) : Processor :=
  { p with gdtr := ⟨BitVec.ofNat 16 (p.cpu.mem.loadLE a 2), p.cpu.mem.load64 (a + 2)⟩ }

def lidt (a : Word) (p : Processor) : Processor :=
  { p with idtr := ⟨BitVec.ofNat 16 (p.cpu.mem.loadLE a 2), p.cpu.mem.load64 (a + 2)⟩ }

/-- The limit in bytes, with the granularity among the flags. -/
def taskLimit (d : SysDesc) : BitVec 32 :=
  if d.flags.getLsbD 3 then (d.limit.setWidth 32 <<< 12) ||| 0xFFF else d.limit.setWidth 32

/-- Only a task that is present and not busy is loaded; it is busy then. -/
def ltr (selector : BitVec 16) (p : Processor) : Option Processor :=
  let a := p.gdtr.base + (selectorOffset selector).setWidth 64
  let d := decodeSysDesc (descriptor p.cpu.mem a)
  if selectorOffset selector ≠ 0 ∧ selector &&& 0x4 = 0 ∧
      (selectorOffset selector).toNat + 15 ≤ p.gdtr.limit.toNat ∧ d.access &&& 0x9F = 0x89 then
    some { p with
      cpu := { p.cpu with mem := store8 (a + 5) (d.access ||| 0x02) p.cpu.mem }
      tr := ⟨selector, d.base, taskLimit d⟩ }
  else none

end Processor

/-- What the processor pushes for the return, top first. -/
def interruptFrame (p : Processor) : List Word :=
  [p.rip, p.cs.setWidth 64, p.rflags, p.cpu.regs .rsp, p.ss.setWidth 64]

variable {base stack : Word} {s : Cpu} {a b : ListCpu} {o : Op} {os : List Op} {p : Processor}
  {error : Option Word} {n : Nat}

/-! Where a stack whose words are known is written. -/

theorem CpuRep.slot_subset (h : CpuRep base s a) {i : Nat} (hi : i < a.stack.length) :
    span (s.regs .rsp + BitVec.ofNat 64 (8 * i)) 8 ⊆ span (base - 128) 128 := by
  have hb := h.base
  have hshort := h.short
  intro b hb'
  rw [mem_span] at hb' ⊢
  bv_omega

theorem CpuRep.push_eqOn (h : CpuRep base s a) (hn : a.stack.length < n) (hmax : n ≤ 16)
    (v : Word) :
    Set.EqOn (s.push v).mem s.mem (span (base - BitVec.ofNat 64 (8 * n)) (8 * n))ᶜ := by
  have hmem : (s.push v).mem = s.mem.store64 (s.regs .rsp - 8) v := by simp [Cpu.push]
  have hsub : span (s.regs .rsp - 8) 8 ⊆ span (base - BitVec.ofNat 64 (8 * n)) (8 * n) := by
    have hb := h.base
    intro b hb'
    rw [mem_span] at hb' ⊢
    bv_omega
  rw [hmem]
  exact (store64_eqOn_compl _ _ v).mono (Set.compl_subset_compl.mpr hsub)

theorem CpuRep.run_eqOn (h : CpuRep base s a) (hr : ListCpu.run o a = some b) :
    Set.EqOn (o.run s).mem s.mem (span (base - 128) 128)ᶜ := by
  have hsame (m : Mem) : Set.EqOn m m (span (base - 128) 128)ᶜ := fun _ _ => rfl
  cases o with
  | push r =>
    simp only [ListCpu.run, Option.ite_none_right_eq_some] at hr
    exact h.push_eqOn (n := 16) hr.1.2 (Nat.le_refl 16) _
  | pop r => exact hsame s.mem
  | movImm r v => exact hsame s.mem
  | movLoad r off => exact hsame s.mem
  | movStore off r =>
    simp only [ListCpu.run, Option.ite_none_right_eq_some] at hr
    obtain ⟨⟨hne, hd, hi⟩, -⟩ := hr
    have hoff : BitVec.ofNat 64 (8 * (off.toNat / 8)) = off := by bv_omega
    have hsub := h.slot_subset hi
    rw [hoff] at hsub
    exact (store64_eqOn_compl _ _ _).mono (Set.compl_subset_compl.mpr hsub)

theorem CpuRep.runAll_eqOn (h : CpuRep base s a) (hr : ListCpu.runAll os a = some b) :
    Set.EqOn (os.foldl (fun s o => o.run s) s).mem s.mem (span (base - 128) 128)ᶜ := by
  induction os generalizing s a with
  | nil => exact fun _ _ => rfl
  | cons o os ih =>
    obtain ⟨c, hc, hb⟩ := Option.bind_eq_some_iff.mp hr
    exact fun x hx => (ih (h.run hc) hb hx).trans (h.run_eqOn hc hx)

/-- Words pushed one after another, and what that leaves alone. -/
theorem CpuRep.pushAll (h : CpuRep base s a) {l : List Word} (hn : a.stack.length + l.length ≤ n)
    (hmax : n ≤ 16) :
    CpuRep base (l.foldl (fun s v => s.push v) s) { a with stack := l.reverse ++ a.stack } ∧
      Set.EqOn (l.foldl (fun s v => s.push v) s).mem s.mem
        (span (base - BitVec.ofNat 64 (8 * n)) (8 * n))ᶜ := by
  induction l generalizing s a with
  | nil => exact ⟨h, fun _ _ => rfl⟩
  | cons v l ih =>
    rw [List.length_cons] at hn
    obtain ⟨hrep, heq⟩ := ih (h.push (v := v) (by omega)) (by simpa using by omega)
    refine ⟨?_, fun x hx => (heq hx).trans (h.push_eqOn (by omega) hmax v hx)⟩
    simpa using hrep

/-- The frame lies on the aligned stack, under the error code. -/
theorem pushFrame_rep (p : Processor) (stack : Word) (error : Option Word) :
    CpuRep (stack &&& ~~~(0xF : Word)) (p.pushFrame stack error)
        ⟨(p.cpu.set .rsp (stack &&& ~~~(0xF : Word))).regs,
          error.toList ++ interruptFrame p⟩ ∧
      Set.EqOn (p.pushFrame stack error).mem p.cpu.mem
        (span ((stack &&& ~~~(0xF : Word)) - 48) 48)ᶜ := by
  have h₀ := CpuRep.entry (p.cpu.set .rsp (stack &&& ~~~(0xF : Word)))
  rw [Cpu.set_regs_self] at h₀
  have hpush : p.pushFrame stack error = ((interruptFrame p).reverse ++ error.toList).foldl
      (fun s v => s.push v) (p.cpu.set .rsp (stack &&& ~~~(0xF : Word))) := by
    cases error with
    | none => rfl
    | some e => rfl
  have hwords : (interruptFrame p).reverse.length + error.toList.length ≤ 6 := by
    cases error with
    | none => exact (by decide : 5 + 0 ≤ 6)
    | some e => exact (by decide : 5 + 1 ≤ 6)
  have hall := h₀.pushAll (n := 6) (l := (interruptFrame p).reverse ++ error.toList)
    (by simpa using hwords) (by decide)
  have hone : error.toList.reverse = error.toList := by
    cases error with
    | none => rfl
    | some e => rfl
  rw [← hpush] at hall
  simpa [hone] using hall

end SkipOS
