import SkipOS.Critical
import SkipOS.Dispatch

/-! What the functions of `serial.c` do, and that the interrupt controllers get no command from
them. -/

namespace SkipOS

open Prog

def Var.OnLine : Var → Prop
  | .serC => True
  | .serP => True
  | .serBusy => True
  | .byte _ => True
  | _ => False

/-- Of the data they change only their own. -/
def Action.OnLine : Action → Prop
  | .cli => False
  | .sti => False
  | .outb port _ => port ≠ pic1CmdPort ∧ port ≠ pic2CmdPort
  | .store v _ => v.OnLine
  | _ => True

variable {serBuff : Word} {buff : List Byte} {b irqIndex : Byte} {enable : Bool}

theorem line_load (v : Var) : (load v).Only Action.OnLine := only_perform trivial

theorem line_store {v : Var} (hv : v.OnLine) (x : v.Ty) : (store v x).Only Action.OnLine :=
  only_perform hv

theorem line_inb (port : BitVec 16) : (inb port).Only Action.OnLine := only_perform trivial

theorem line_outb {port : BitVec 16} {val : Byte} (h : port ≠ pic1CmdPort ∧ port ≠ pic2CmdPort) :
    (outb port val).Only Action.OnLine := only_perform h

theorem line_driverAssert (c : Bool) : (driverAssert c).Only Action.OnLine :=
  Only.ite (only_ret _) ⟨trivial, fun r => r.elim⟩

theorem line_assertInterruptsOff : assertInterruptsOff.Only Action.OnLine := by
  rw [assertInterruptsOff, irqAreInterruptsEnabled_eq]
  exact ⟨trivial, fun _ => line_driverAssert _⟩

theorem line_nestedSafe {body : Driver Unit} (h : body.Only Action.OnLine) :
    (nestedSafe body).Only Action.OnLine := by
  rw [nestedSafe_eq]
  exact ⟨trivial, fun _ => h.bind fun _ => only_ret _⟩

theorem line_isBuffEmpty : isBuffEmpty.Only Action.OnLine :=
  line_assertInterruptsOff.bind fun _ => (line_load _).bind fun _ => (line_load _).bind fun _ =>
    only_ret _

theorem line_isBuffFull : isBuffFull.Only Action.OnLine := by
  refine line_assertInterruptsOff.bind fun _ => (line_load _).bind fun _ =>
    (line_load _).bind fun _ => Only.ite (only_ret _) ?_
  exact (line_load _).bind fun _ => (line_load _).bind fun _ => only_ret _

theorem line_consume : (consume serBuff).Only Action.OnLine := by
  refine line_assertInterruptsOff.bind fun _ => line_isBuffEmpty.bind fun _ =>
    Only.ite (only_ret _) ?_
  refine (line_load _).bind fun _ => (line_load _).bind fun _ => (line_load _).bind fun _ =>
    (line_store (by trivial) _).bind fun _ => (line_load _).bind fun _ => ?_
  exact (Only.when (line_store (by trivial) _)).bind fun _ => only_ret _

theorem line_produce : (produce serBuff b).Only Action.OnLine := by
  refine line_assertInterruptsOff.bind fun _ => line_isBuffFull.bind fun _ =>
    Only.ite (only_ret _) ?_
  refine (line_load _).bind fun _ => (line_store (by trivial) _).bind fun _ => (line_load _).bind
    fun _ => (line_store (by trivial) _).bind fun _ => (line_load _).bind fun _ => ?_
  exact (Only.when (line_store (by trivial) _)).bind fun _ => only_ret _

theorem line_writeSerReg {offset val : Byte} (h : offset < 8) :
    (writeSerReg offset val).Only Action.OnLine := by
  have hall : ∀ offset : Byte, offset < 8 → com1Iop + offset.setWidth 16 ≠ pic1CmdPort ∧
      com1Iop + offset.setWidth 16 ≠ pic2CmdPort := by decide
  exact line_outb (hall offset h)

theorem line_initHwWrite : (initHwWrite serBuff).Only Action.OnLine := by
  refine (line_load _).bind fun busy => (Only.when ?_).bind fun _ => (line_load _).bind fun _ =>
    Only.ite (only_ret _) ?_
  · exact (line_inb _).bind fun lsr => Only.when (line_store (by trivial) _)
  · refine line_consume.bind fun out => ?_
    cases out with
    | none => exact only_ret _
    | some outVal => exact (line_store (by trivial) _).bind fun _ => line_writeSerReg (by decide)

theorem line_writeLoop : (writeLoop serBuff buff).Only Action.OnLine := by
  induction buff with
  | nil => exact only_ret _
  | cons b bs ih => exact line_produce.bind fun _ => Only.ite ih (only_ret _)

theorem line_serWrite : (serWrite serBuff buff).Only Action.OnLine :=
  line_nestedSafe (line_writeLoop.bind fun _ => line_initHwWrite)

theorem line_flushLoop (fuel : Nat) : (flushLoop serBuff fuel).Only Action.OnLine := by
  induction fuel with
  | zero => exact ⟨trivial, fun r => r.elim⟩
  | succ fuel ih =>
    refine line_consume.bind fun out => ?_
    cases out with
    | none => exact only_ret _
    | some outVal => exact (line_writeSerReg (by decide)).bind fun _ => ih

theorem line_serFlush (fuel : Nat) : (serFlush serBuff fuel).Only Action.OnLine :=
  line_nestedSafe ((line_flushLoop fuel).bind fun _ => line_store (by trivial) _)

theorem line_serIrqHandler : (serIrqHandler serBuff irqIndex).Only Action.OnLine := by
  refine (line_driverAssert _).bind fun _ => (line_inb _).bind fun iirVal =>
    Only.ite ((line_inb _).bind fun _ => only_ret _) (Only.ite ?_ (only_ret _))
  exact (line_store (by trivial) _).bind fun _ => line_initHwWrite

theorem line_setIrqLineState : (setIrqLineState irqIndex enable).Only Action.OnLine := by
  have hassert : (assertExternal irqIndex).Only Action.OnLine := line_driverAssert _
  have hmask : (getIrqMask irqIndex).Only Action.OnLine :=
    hassert.bind fun _ => Only.ite (line_inb _) (line_inb _)
  have hline : (getPicLineIndex irqIndex).Only Action.OnLine :=
    hassert.bind fun _ => Only.ite ((line_driverAssert _).bind fun _ => only_ret _) (only_ret _)
  exact hassert.bind fun _ => (Only.when (line_driverAssert _)).bind fun _ => hmask.bind fun _ =>
    hline.bind fun _ => Only.ite (line_outb (by decide)) (line_outb (by decide))

theorem line_serInit : (serInit serBuff).Only Action.OnLine :=
  (line_writeSerReg (by decide)).bind fun _ => (line_writeSerReg (by decide)).bind fun _ =>
    (line_writeSerReg (by decide)).bind fun _ => (line_writeSerReg (by decide)).bind fun _ =>
      (line_writeSerReg (by decide)).bind fun _ => (line_writeSerReg (by decide)).bind fun _ =>
        (line_store (by trivial) _).bind fun _ => (line_store (by trivial) _).bind fun _ =>
          (line_store (by trivial) _).bind fun _ => line_setIrqLineState

end SkipOS
