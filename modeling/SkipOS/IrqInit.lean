import SkipOS.PicRemap
import SkipOS.Console
import SkipOS.Keyboard

/-! `IRQ_init` and the handlers that the kernel installs. The IDT, which `IRQ_init` fills first, is
memory of its own. -/

namespace SkipOS

open Prog

def irqCnt : Nat := 256

def deIntNum : Byte := 0x0

/-- The `HLT` macro in a handler: the interrupt flag is clear, and nothing ends the halt. -/
def hlt : Driver Unit := .op .halt Empty.elim

def unknownIrqText : CString := cString
  ['W', 'a', 'r', 'n', 'i', 'n', 'g', ':', ' ', 'U', 'n', 'k', 'n', 'o', 'w', 'n', ' ', 'I', 'R',
    'Q', ' ', '0', 'x', '%', 'x', ' ', 't', 'r', 'i', 'g', 'g', 'e', 'r', 'e', 'd', '.', '\n']
  (by decide)

def doubleFaultText : CString := cString
  ['D', 'o', 'u', 'b', 'l', 'e', ' ', 'f', 'a', 'u', 'l', 't', ' ', 'o', 'c', 'c', 'u', 'r', 'e',
    'd', '.', '\n'] (by decide)

def divideErrorText : CString := cString
  ['D', 'i', 'v', 'i', 'd', 'e', ' ', 'e', 'r', 'r', 'o', 'r', ' ', 'o', 'c', 'c', 'u', 'r', 'e',
    'd', '.', '\n'] (by decide)

def pageFaultText : CString := cString
  ['P', 'a', 'g', 'e', ' ', 'f', 'a', 'u', 'l', 't', ' ', 'o', 'c', 'c', 'u', 'r', 'e', 'd', '.',
    '\n'] (by decide)

def genProcText : CString := cString
  ['G', 'e', 'n', 'e', 'r', 'a', 'l', ' ', 'p', 'r', 'o', 't', 'e', 'c', 't', 'i', 'o', 'n', ' ',
    'f', 'a', 'u', 'l', 't', ' ', 'o', 'c', 'c', 'u', 'r', 'e', 'd', '.', '\n'] (by decide)

def defIrqHandler (serBuff : Word) : IrqHandler := fun irqNum _error _arg => do
  let _ ← Console.printk serBuff (some unknownIrqText) [.int (irqNum.setWidth 32)]
  hlt

/-- The handlers for an exception of their own number. -/
def faultHandler (serBuff : Word) (intNum : Byte) (text : CString) : IrqHandler :=
  fun irqIndex _error _arg => do
    driverAssert (irqIndex = intNum)
    let _ ← Console.printk serBuff (some text) []
    hlt

def doubleFaultHandler (serBuff : Word) : IrqHandler := faultHandler serBuff 0x8 doubleFaultText

def divZeroHandler (serBuff : Word) : IrqHandler := faultHandler serBuff deIntNum divideErrorText

def genProcHandler (serBuff : Word) : IrqHandler := faultHandler serBuff 0xD genProcText

/-- `int 14` enters the gate of this handler again, here at most `fuel` times; the text is printed
when that interrupt has returned. The assertion is an assignment. -/
def Interrupt.pageFaultHandler (serBuff : Word) : Nat → IrqHandler
  | 0 => fun _ _ _ => .op .fuel Empty.elim
  | fuel + 1 => fun _irqIndex error arg => do
    driverAssert ((0xE : Byte) ≠ 0)
    Interrupt.pageFaultHandler serBuff fuel 0xE error arg
    let _ ← Console.printk serBuff (some pageFaultText) []
    hlt

def irqhPopulateTable (serBuff : Word) (irqTable : IrqTable) : IrqTable :=
  (List.range irqCnt).foldl (fun table i =>
    irqSetHandler table (BitVec.ofNat 8 i) (defIrqHandler serBuff) 0) irqTable

/-- The result is the table of handlers; `fuel` is for the page fault handler. -/
def irqInit (serBuff : Word) (fuel : Nat) (irqTable : IrqTable) : Driver IrqTable := do
  let irqTable := irqhPopulateTable serBuff irqTable
  let irqTable := irqSetHandler irqTable 0x8 (doubleFaultHandler serBuff) 0
  let irqTable := irqSetHandler irqTable deIntNum (divZeroHandler serBuff) 0
  let irqTable := irqSetHandler irqTable 0xE (Interrupt.pageFaultHandler serBuff fuel) 0
  let irqTable := irqSetHandler irqTable 0xD (genProcHandler serBuff) 0
  picRemap externalIntBase
  picDisableAllPicIrqs
  enableCascade
  return irqTable

/-- The handlers that `IRQ_init` installs, each without an argument. -/
def initHandler (serBuff : Word) (fuel : Nat) (vec : Byte) : IrqHandler :=
  if vec = 0xD then genProcHandler serBuff
  else if vec = 0xE then Interrupt.pageFaultHandler serBuff fuel
  else if vec = deIntNum then divZeroHandler serBuff
  else if vec = 0x8 then doubleFaultHandler serBuff
  else defIrqHandler serBuff

/-- Lines 0 to 15 interrupt as `0x20` to `0x2F`, and all but the cascade are masked. -/
def initialPair : PicPair where
  master := ⟨.ocw1, false, true, externalIntBase, 4, 1, 0xFB, 0⟩
  slave := ⟨.ocw1, false, true, externalIntBase + 8, 2, 1, 0xFF, 0⟩

variable {serBuff : Word} {irqTable irqTable' : IrqTable} {vec : Byte} {fuel : Nat}
  {s : DriverState} {c : PicPair} {u v : DriverState × PicPair}

theorem foldl_irqSetHandler (n : Nat) (hn : n ≤ 256) (handler : IrqHandler) (arg : Word) :
    (List.range n).foldl (fun table i => irqSetHandler table (BitVec.ofNat 8 i) handler arg)
      irqTable vec = if vec.toNat < n then ⟨arg, handler⟩ else irqTable vec := by
  induction n with
  | zero => rfl
  | succ n ih =>
    rw [List.range_succ, List.foldl_append, List.foldl_cons, List.foldl_nil, irqSetHandler]
    by_cases he : vec = BitVec.ofNat 8 n
    · have hvec : vec.toNat = n := by rw [he, toNat_ofNat_of_lt (by omega)]
      rw [he, Function.update_self, ← he, if_pos (by omega)]
    · have hvec : vec.toNat ≠ n := fun h => he (by rw [← h, BitVec.ofNat_toNat, BitVec.setWidth_eq])
      rw [Function.update_of_ne he, ih (by omega)]
      exact if_congr (by omega) rfl rfl

theorem irqhPopulateTable_apply :
    irqhPopulateTable serBuff irqTable vec = ⟨0, defIrqHandler serBuff⟩ := by
  have hlt : vec.toNat < irqCnt := vec.isLt
  rw [irqhPopulateTable, foldl_irqSetHandler irqCnt (by decide), if_pos hlt]

theorem irqInit_eq : irqInit serBuff fuel irqTable =
    (picRemap externalIntBase >>= fun _ => picDisableAllPicIrqs >>= fun _ =>
      enableCascade >>= fun _ => .ret fun vec => ⟨0, initHandler serBuff fuel vec⟩) := by
  have htable : irqSetHandler (irqSetHandler (irqSetHandler (irqSetHandler
      (irqhPopulateTable serBuff irqTable) 0x8 (doubleFaultHandler serBuff) 0) deIntNum
      (divZeroHandler serBuff) 0) 0xE (Interrupt.pageFaultHandler serBuff fuel) 0) 0xD
      (genProcHandler serBuff) 0 = fun vec => ⟨0, initHandler serBuff fuel vec⟩ := by
    funext vec
    simp only [irqSetHandler, Function.update_apply, irqhPopulateTable_apply, initHandler,
      apply_ite (IrqInfo.mk 0)]
  rw [irqInit, htable]
  rfl

theorem enableCascade_pair_runs_iff (h : c.master.awaits = .ocw1) :
    enableCascade.Runs picPair.Exec (s, c) () v ↔
      v = (s, { c with master := { c.master with
        mask := c.master.mask &&& ~~~((1 : Byte) <<< pic1CascadeLine) } }) := by
  have he : enableCascade = .op (.inb pic1DataPort) fun mask =>
    .op (.outb pic1DataPort (mask &&& ~~~((1 : Byte) <<< pic1CascadeLine))) .ret := rfl
  have hwrite (val : Byte) : writePic pic1DataPort val c =
      some { c with master := { c.master with mask := val } } := by
    rw [writePic, if_neg (by decide), if_neg (by decide), if_pos rfl, Pic8259.writeData_mask h]
  rw [he, runs_op_iff]
  constructor
  · rintro ⟨r, w, ⟨⟨hsame, hmask, -⟩, hs⟩, hrun⟩
    obtain ⟨s', c'⟩ := w
    obtain ⟨rfl, rfl⟩ : c' = c ∧ s' = s := ⟨hsame, hs⟩
    rw [runs_op_iff] at hrun
    obtain ⟨r', w, hout, hret⟩ := hrun
    rw [hmask rfl] at hout
    rw [(runs_ret_iff.mp hret).2, (exec_outb_pair (hwrite _)).mp hout]
  · rintro rfl
    refine ⟨c.master.mask, (s, c), ⟨⟨rfl, fun _ => rfl, fun hp => ?_⟩, rfl⟩, ?_⟩
    · exact absurd hp (by decide)
    · exact .op ((exec_outb_pair (hwrite _)).mpr rfl) (.ret () _)

/-- Nothing of what the firmware left in the controllers or the table is still there. -/
theorem irqInit_runs_iff : (irqInit serBuff fuel irqTable).Runs picPair.Exec u irqTable' v ↔
    irqTable' = (fun vec => ⟨0, initHandler serBuff fuel vec⟩) ∧ v = (u.1, initialPair) := by
  have hmasks : picDisableAllPicIrqs = writeAll [(pic1DataPort, 0xFF), (pic2DataPort, 0xFF)] := rfl
  have hrun : [(pic1DataPort, (0xFF : Byte)), (pic2DataPort, 0xFF)].foldlM
      (fun c w => writePic w.1 w.2 c) (remapped externalIntBase) =
      some ⟨{ (remapped externalIntBase).master with mask := 0xFF },
        { (remapped externalIntBase).slave with mask := 0xFF }⟩ := rfl
  rw [irqInit_eq, runs_bind_iff]
  constructor
  · rintro ⟨_, w, hremap, hrest⟩
    rw [picRemap_runs_iff.mp hremap, runs_bind_iff] at hrest
    obtain ⟨_, w, hdisable, hrest⟩ := hrest
    rw [hmasks, writeAll_runs_iff hrun] at hdisable
    rw [hdisable, runs_bind_iff] at hrest
    obtain ⟨_, w, hcascade, hret⟩ := hrest
    rw [(enableCascade_pair_runs_iff rfl).mp hcascade] at hret
    exact runs_ret_iff.mp hret
  · rintro ⟨rfl, rfl⟩
    refine ⟨(), _, picRemap_runs_iff.mpr rfl, ?_⟩
    rw [runs_bind_iff]
    refine ⟨(), _, hmasks ▸ (writeAll_runs_iff hrun).mpr rfl, ?_⟩
    rw [runs_bind_iff]
    exact ⟨(), _, (enableCascade_pair_runs_iff rfl).mpr rfl, .ret _ _⟩

end SkipOS
