import SkipOS.InService
import SkipOS.LineOps

/-! `kernel_main` from `IRQ_init` on, as far as ports, the screen and the handlers are concerned:
nothing in it gives the controllers a command. -/

namespace SkipOS

open Prog Preemption

def irqReadyText : CString := cString
  ['I', 'n', 't', 'e', 'r', 'r', 'u', 'p', 't', ' ', 's', 'y', 's', 't', 'e', 'm', ' ', 'i', 'n',
    'i', 't', 'i', 'a', 'l', 'i', 'z', 'e', 'd', '.', '\n'] (by decide)

def kbdReadyText : CString := cString
  ['K', 'e', 'y', 'b', 'o', 'a', 'r', 'd', ' ', 'i', 'n', 'i', 't', 'i', 'a', 'l', 'i', 'z', 'e',
    'd', '.', '\n'] (by decide)

def serReadyText : CString := cString
  ['S', 'e', 'r', 'i', 'a', 'l', ' ', 'o', 'u', 't', 'p', 'u', 't', ' ', 'i', 'n', 'i', 't', 'i',
    'a', 'l', 'i', 'z', 'e', 'd', '.', '\n'] (by decide)

def pfReadyText : CString := cString
  ['P', 'h', 'y', 's', 'i', 'c', 'a', 'l', ' ', 'm', 'e', 'm', 'o', 'r', 'y', ' ', 's', 'y', 's',
    't', 'e', 'm', ' ', 'i', 'n', 'i', 't', 'i', 'a', 'l', 'i', 'z', 'e', 'd', ',', ' ', 'p', 'h',
    'y', 's', 'i', 'c', 'a', 'l', ' ', 's', 'i', 'z', 'e', ':', ' ', '0', 'x', '%', 'l', 'x', '.',
    '\n'] (by decide)

def vpReadyText : CString := cString
  ['V', 'i', 'r', 't', 'u', 'a', 'l', ' ', 'm', 'e', 'm', 'o', 'r', 'y', ' ', 's', 'y', 's', 't',
    'e', 'm', ' ', 'i', 'n', 'i', 't', 'i', 'a', 'l', 'i', 'z', 'e', 'd', '.', '\n'] (by decide)

def heapReadyText : CString := cString
  ['K', 'e', 'r', 'n', 'e', 'l', ' ', 'h', 'e', 'a', 'p', ' ', 'a', 'l', 'l', 'o', 'c', 'a', 't',
    'o', 'r', ' ', 'i', 'n', 'i', 't', 'i', 'a', 'l', 'i', 'z', 'e', 'd', '.', '\n'] (by decide)

/-- The handler that `SER_init` installs. -/
def serHandler (serBuff : Word) : IrqHandler := fun irqIndex _error _arg =>
  serIrqHandler serBuff irqIndex

/-- What `kernel_main` passes on; `pageFault` is the handler of `vp_alloc.c`. -/
structure KernelData where
  serBuff : Word
  serState : Word
  kdbState : Word
  behind : List ScodeMapElem
  pageFault : IrqHandler

def KernelData.afterKbd (d : KernelData) (irqTable : IrqTable) : IrqTable :=
  registerKbdIsr d.behind d.kdbState irqTable

def KernelData.afterSer (d : KernelData) (irqTable : IrqTable) : IrqTable :=
  irqSetHandler irqTable com1IrqNum (serHandler d.serBuff) d.serState

def KernelData.afterVp (d : KernelData) (irqTable : IrqTable) : IrqTable :=
  irqSetHandler irqTable 0xE d.pageFault 0

/-- `kernel_main` behind `IRQ_init`. `MMU_init_pf`, which returns `memSize`, `MMU_init_vp` and
`kmalloc_init` work on memory only. The loop at the end halts again after each interrupt. -/
def KernelData.kernelMainRest (d : KernelData) (fuel : Nat) (memSize : Word) (irqTable : IrqTable) :
    Driver Unit := do
  let _ ← Console.printk d.serBuff (some irqReadyText) []
  let _ ← kbdInit fuel d.behind d.kdbState irqTable
  let _ ← Console.printk d.serBuff (some kbdReadyText) []
  serInit d.serBuff
  let _ ← Console.printk d.serBuff (some serReadyText) []
  let _ ← Console.printk d.serBuff (some pfReadyText) [.long memSize]
  let _ ← Console.printk d.serBuff (some vpReadyText) []
  let _ ← Console.printk d.serBuff (some heapReadyText) []
  sti
  hlt

variable {serBuff : Word} {fuel n : Nat} {irqTable : IrqTable} {irqIndex b : Byte}
  {buff : List Byte} {port : BitVec 16} {val : Byte} {fmt : Option CString} {args : List Arg}
  {vec : Byte} {handler : IrqHandler} {arg : Word} {d : KernelData} {behind : List ScodeMapElem}

/-! Operations on their own. -/

theorem quiet_load (v : Var) : (load v).Only Action.InHandler := only_perform ⟨trivial, trivial⟩

theorem quiet_store (v : Var) (x : v.Ty) : (store v x).Only Action.InHandler :=
  only_perform ⟨trivial, trivial⟩

theorem quiet_inb (port : BitVec 16) : (inb port).Only Action.InHandler :=
  only_perform ⟨trivial, trivial⟩

theorem quiet_outb (h : port ≠ pic1CmdPort ∧ port ≠ pic2CmdPort) :
    (outb port val).Only Action.InHandler := only_perform ⟨h, trivial⟩

theorem quiet_hlt : hlt.Only Action.InHandler := ⟨⟨trivial, trivial⟩, fun r => r.elim⟩

theorem quiet_fuel {α : Type} {k : Empty → Driver α} :
    (.op .fuel k : Driver α).Only Action.InHandler := ⟨⟨trivial, trivial⟩, fun r => r.elim⟩

theorem quiet_driverAssert (c : Bool) : (driverAssert c).Only Action.InHandler :=
  Only.ite (only_ret _) quiet_hlt

/-! The screen and the serial line. -/

theorem quiet_of_onScreen {p : Driver Unit} (h : p.Only Action.OnScreen) :
    p.Only Action.InHandler := by
  refine h.mono fun o ho => ?_
  cases o with
  | pushfq => exact ⟨trivial, trivial⟩
  | halt => exact ⟨trivial, trivial⟩
  | load v => exact ⟨trivial, trivial⟩
  | store v x => exact ⟨trivial, trivial⟩
  | _ => exact ho.elim

theorem quiet_of_onLine {p : Driver Unit} (h : p.Only Action.OnLine) :
    p.Only Action.InHandler := by
  refine h.mono fun o ho => ?_
  cases o with
  | cli => exact ho.elim
  | sti => exact ho.elim
  | outb port val => exact ⟨ho, trivial⟩
  | _ => exact ⟨trivial, trivial⟩

theorem quiet_printk : (Console.printk serBuff fmt args).Only Action.InHandler := by
  refine Console.printk_only (fun c => ?_) ⟨trivial, trivial⟩ ⟨trivial, trivial⟩
  cases c with
  | vgaDisplayChar c => exact quiet_of_onScreen (screen_vgaDisplayChar c)
  | serWrite buff => exact quiet_of_onLine line_serWrite

/-! The handlers. -/

theorem quiet_defIrqHandler (error : BitVec 32) (arg : Word) :
    (defIrqHandler serBuff vec error arg).Only Action.InHandler :=
  quiet_printk.bind fun _ => quiet_hlt

theorem quiet_faultHandler (intNum : Byte) (text : CString) (error : BitVec 32) (arg : Word) :
    (faultHandler serBuff intNum text vec error arg).Only Action.InHandler :=
  (quiet_driverAssert _).bind fun _ => quiet_printk.bind fun _ => quiet_hlt

theorem quiet_irqPageFaultHandler (error : BitVec 32) (arg : Word) :
    (Interrupt.pageFaultHandler serBuff fuel vec error arg).Only Action.InHandler := by
  induction fuel generalizing vec with
  | zero => exact quiet_fuel
  | succ fuel ih =>
    have hsay : (Console.printk serBuff (some pageFaultText) []).Only Action.InHandler :=
      quiet_printk
    rw [Interrupt.pageFaultHandler]
    refine (quiet_driverAssert _).bind fun _ => ih.bind fun _ => ?_
    exact Only.bind hsay fun _ => quiet_hlt

theorem quiet_initHandler (vec : Byte) (error : BitVec 32) (arg : Word) :
    (initHandler serBuff fuel vec vec error arg).Only Action.InHandler := by
  rw [initHandler]
  split
  · exact quiet_faultHandler _ _ _ _
  · split
    · exact quiet_irqPageFaultHandler _ _
    · split
      · exact quiet_faultHandler _ _ _ _
      · split
        · exact quiet_faultHandler _ _ _ _
        · exact quiet_defIrqHandler _ _

theorem quiet_kbdIsrHandler (error : BitVec 32) :
    (kbdIsrHandler behind vec error arg).Only Action.InHandler := by
  refine (quiet_driverAssert _).bind fun _ => (quiet_driverAssert _).bind fun _ =>
    (quiet_inb _).bind fun s => (quiet_load _).bind fun _ => Only.ite ?_ (Only.ite (quiet_store _ _)
      (Only.ite (quiet_store _ _) (Only.ite (quiet_of_onScreen screen_vgaBackspaceChar)
        (Only.when ?_))))
  · exact (quiet_store _ _).bind fun _ => Only.when (quiet_store _ _)
  · exact (quiet_load _).bind fun _ => quiet_of_onScreen (screen_vgaDisplayChar _)

theorem IrqTable.Quiet.set (h : irqTable.Quiet)
    (hnew : ∀ error, (handler vec error arg).Only Action.InHandler) :
    IrqTable.Quiet (irqSetHandler irqTable vec handler arg) := by
  intro j error
  rw [irqSetHandler]
  by_cases hj : j = vec
  · rw [hj, Function.update_self]
    exact hnew error
  · rw [Function.update_of_ne hj]
    exact h j error

/-- The tables of handlers from `IRQ_init` on. -/
theorem kernel_quiet (h : ∀ error, (d.pageFault 0xE error 0).Only Action.InHandler) :
    IrqTable.Quiet (fun vec => ⟨0, initHandler d.serBuff fuel vec⟩) ∧
      ∀ irqTable : IrqTable, irqTable.Quiet → (d.afterKbd irqTable).Quiet ∧
        (d.afterSer irqTable).Quiet ∧ (d.afterVp irqTable).Quiet :=
  ⟨fun vec error => quiet_initHandler vec error 0, fun _ hq =>
    ⟨hq.set quiet_kbdIsrHandler, hq.set fun _ => quiet_of_onLine line_serIrqHandler, hq.set h⟩⟩

/-! `kernel_main`. -/

theorem quiet_waitReadData (n : Nat) : (waitReadData n).Only Action.InHandler := by
  induction n with
  | zero => exact quiet_fuel
  | succ n ih => exact (quiet_inb _).bind fun _ => Only.ite ih (only_ret _)

theorem quiet_writeDataByte (n : Nat) : (writeDataByte n b).Only Action.InHandler := by
  have hwait (n : Nat) : (waitWriteData n).Only Action.InHandler := by
    induction n with
    | zero => exact quiet_fuel
    | succ n ih => exact (quiet_inb _).bind fun _ => Only.ite ih (only_ret _)
  exact (hwait n).bind fun _ => quiet_outb (by decide)

theorem quiet_writeCommandByte : (writeCommandByte b).Only Action.InHandler :=
  quiet_outb (by decide)

theorem quiet_flushBuff (n : Nat) : (flushBuff n).Only Action.InHandler := by
  induction n with
  | zero => exact quiet_fuel
  | succ n ih =>
    exact (quiet_inb _).bind fun _ => Only.ite ((quiet_inb _).bind fun _ => ih) (only_ret _)

theorem quiet_writeGoodConfigByte (n : Nat) : (writeGoodConfigByte n).Only Action.InHandler :=
  (quiet_writeCommandByte.bind fun _ => (quiet_waitReadData n).bind fun _ => quiet_inb _).bind
    fun _ => quiet_writeCommandByte.bind fun _ => quiet_writeDataByte n

theorem quiet_sendKbdByte (m : Nat) : (sendKbdByte m b).Only Action.InHandler := by
  have hloop (n : Nat) (numResend : Byte) : (resendLoop m b n numResend).Only Action.InHandler := by
    induction n generalizing numResend with
    | zero => exact quiet_fuel
    | succ n ih =>
      exact (quiet_inb _).bind fun _ => Only.ite ((quiet_writeDataByte m).bind fun _ => ih _)
        (only_ret _)
  exact (quiet_writeDataByte m).bind fun _ => (hloop _ _).bind fun _ => quiet_driverAssert _

theorem quiet_kbdInit (n : Nat) (kdbState : Word) :
    (kbdInit n behind kdbState irqTable).Only Action.InHandler :=
  quiet_writeCommandByte.bind fun _ => quiet_writeCommandByte.bind fun _ =>
    (quiet_flushBuff n).bind fun _ => (quiet_writeGoodConfigByte n).bind fun _ =>
      quiet_writeCommandByte.bind fun _ => ((quiet_sendKbdByte n).bind fun _ =>
        (quiet_inb _).bind fun _ => quiet_driverAssert _).bind fun _ =>
          ((quiet_sendKbdByte n).bind fun _ => quiet_sendKbdByte n).bind fun _ =>
            (quiet_of_onLine line_setIrqLineState).bind fun _ => only_ret _

/-- `IRQ_start` apart, `kernel_main` does what handlers may do. -/
theorem kernelMainRest_only (d : KernelData) (memSize : Word) :
    (d.kernelMainRest fuel memSize irqTable).Only Action.Uncommanding := by
  have hsay {fmt : Option CString} {args : List Arg} :
      (Console.printk d.serBuff fmt args).Only Action.Uncommanding :=
    quiet_printk.mono fun _ ho => ho.1
  have hkbd : (kbdInit fuel d.behind d.kdbState irqTable).Only Action.Uncommanding :=
    (quiet_kbdInit fuel d.kdbState).mono fun _ ho => ho.1
  have hser : (serInit d.serBuff).Only Action.Uncommanding :=
    (quiet_of_onLine line_serInit).mono fun _ ho => ho.1
  rw [KernelData.kernelMainRest]
  refine hsay.bind fun _ => hkbd.bind fun _ => hsay.bind fun _ => hser.bind fun _ => hsay.bind
    fun _ => hsay.bind fun _ => hsay.bind fun _ => hsay.bind fun _ => ?_
  exact (only_perform trivial).bind fun _ => ⟨trivial, fun r => r.elim⟩

/-! `kernel_main` under its own interrupts. -/

/-- The tables of handlers from `IRQ_init` on, whichever handlers have been installed since. -/
inductive KernelData.Installed (d : KernelData) (fuel : Nat) : IrqTable → Prop
  | init : Installed d fuel fun vec => ⟨0, initHandler d.serBuff fuel vec⟩
  | kbd {irqTable : IrqTable} (h : Installed d fuel irqTable) : Installed d fuel (d.afterKbd irqTable)
  | ser {irqTable : IrqTable} (h : Installed d fuel irqTable) : Installed d fuel (d.afterSer irqTable)
  | vp {irqTable : IrqTable} (h : Installed d fuel irqTable) : Installed d fuel (d.afterVp irqTable)

theorem KernelData.Installed.quiet (h : d.Installed fuel irqTable)
    (hfault : ∀ error, (d.pageFault 0xE error 0).Only Action.InHandler) : irqTable.Quiet := by
  have hquiet : IrqTable.Quiet (fun vec => ⟨0, initHandler d.serBuff fuel vec⟩) ∧ _ :=
    kernel_quiet hfault
  obtain ⟨hinit, hset⟩ := hquiet
  induction h with
  | init => exact hinit
  | kbd _ ih => exact (hset _ ih).1
  | ser _ ih => exact (hset _ ih).2.1
  | vp _ ih => exact (hset _ ih).2.2

/-- The handler of the virtual page allocator, where it has nothing to do. -/
def quietData : KernelData where
  serBuff := 0x100000
  serState := 0x101000
  kdbState := 0x102000
  behind := []
  pageFault := fun _ _ _ => return ()

def quietMain : Driver Unit :=
  quietData.kernelMainRest 0 0x4000 fun vec => ⟨0, initHandler 0x100000 0 vec⟩

end SkipOS
