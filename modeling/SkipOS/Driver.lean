import SkipOS.Lib.Memory
import SkipOS.Lib.Program
import Mathlib.Data.Nat.Bitwise

/-! What the drivers do to the processor, the ports and their shared data, one operation at
a time, and the interrupt flag as `interrupt.c` reads it. -/

namespace SkipOS

/-- The data of `serial.c` and `vga.c` that interrupt handlers share. `byte a` is the byte
at `a`, reached through the pointers of `ser_state`. -/
inductive Var where
  | serC | serP | serBusy
  | byte (a : Word)
  | xPos | yPos | cursor
  | vgaBuff (offset : BitVec 16)
  deriving DecidableEq

abbrev Var.Ty : Var → Type
  | .serC => Word
  | .serP => Word
  | .serBusy => Bool
  | .byte _ => Byte
  | .xPos => BitVec 16
  | .yPos => BitVec 16
  | .cursor => BitVec 16
  | .vgaBuff _ => BitVec 16

inductive Action where
  | pushfq
  | cli
  | sti
  /-- `cli` and `hlt`: nothing is executed any more -/
  | halt
  /-- the iteration bound was used up -/
  | fuel
  | inb (port : BitVec 16)
  | outb (port : BitVec 16) (val : Byte)
  | load (v : Var)
  | store (v : Var) (x : v.Ty)

abbrev Action.Res : Action → Type
  | .pushfq => Word
  | .halt => Empty
  | .fuel => Empty
  | .inb _ => Byte
  | .load v => v.Ty
  | .cli => Unit
  | .sti => Unit
  | .outb _ _ => Unit
  | .store _ _ => Unit

abbrev Driver := Prog Action Action.Res

structure DriverState where
  rflags : Word
  vars : (v : Var) → v.Ty

def rflagsIf : Word := 1 <<< 9

def DriverState.interruptFlag (s : DriverState) : Bool := s.rflags.getLsbD 9

/-- What a port gives is not determined. -/
def Action.Exec : (o : Action) → DriverState → o.Res → DriverState → Prop
  | .pushfq, s, r, s' => r = s.rflags ∧ s' = s
  | .cli, s, _, s' => s' = { s with rflags := s.rflags &&& ~~~rflagsIf }
  | .sti, s, _, s' => s' = { s with rflags := s.rflags ||| rflagsIf }
  | .halt, _, _, _ => False
  | .fuel, _, _, _ => False
  | .inb _, s, _, s' => s' = s
  | .outb _ _, s, _, s' => s' = s
  | .load v, s, r, s' => r = s.vars v ∧ s' = s
  | .store v x, s, _, s' => s' = { s with vars := Function.update s.vars v x }

def getRflags : Driver Word := Prog.perform Action.pushfq

def cli : Driver Unit := Prog.perform Action.cli

def sti : Driver Unit := Prog.perform Action.sti

def inb (port : BitVec 16) : Driver Byte := Prog.perform (Action.inb port)

def outb (port : BitVec 16) (val : Byte) : Driver Unit := Prog.perform (Action.outb port val)

def load (v : Var) : Driver v.Ty := Prog.perform (Action.load v)

def store (v : Var) (x : v.Ty) : Driver Unit := Prog.perform (Action.store v x)

/-- A failed assertion; what `printk` shows of it is left out. -/
def driverAssert (c : Bool) : Driver Unit := if c then pure () else .op .halt Empty.elim

def rflagsIntrEnabledMsk : BitVec 32 := 1 <<< 9

def irqAreInterruptsEnabled : Driver Bool := do
  -- the local `u8 rflags`
  let rflags : BitVec 8 := (← getRflags).setWidth 8
  return rflags.setWidth 32 &&& rflagsIntrEnabledMsk != 0

/-- The critical section of `SER_write`, `SER_flush` and `VGA_display_char`. -/
def nestedSafe (body : Driver Unit) : Driver Unit := do
  let enableInts ← irqAreInterruptsEnabled
  Prog.when enableInts cli
  body
  Prog.when enableInts sti

/-! Bit 9 is cut off, whatever the flags are. -/

theorem intrEnabled_narrowed (rflags : Word) :
    ((rflags.setWidth 8 : BitVec 8).setWidth 32 &&& rflagsIntrEnabledMsk != 0) = false := by
  have hlt : ((rflags.setWidth 8 : BitVec 8).setWidth 32).toNat < 2 ^ 9 := by
    rw [BitVec.toNat_setWidth, BitVec.toNat_setWidth]
    omega
  have hm : rflagsIntrEnabledMsk.toNat = 2 ^ 9 := by decide
  have hz : (rflags.setWidth 8 : BitVec 8).setWidth 32 &&& rflagsIntrEnabledMsk = 0 := by
    apply BitVec.eq_of_toNat_eq
    rw [BitVec.toNat_and, hm, Nat.and_two_pow, Nat.testBit_lt_two_pow hlt]
    rfl
  rw [hz]
  rfl

theorem irqAreInterruptsEnabled_eq :
    irqAreInterruptsEnabled = .op .pushfq fun _ => .ret false := by
  have h : irqAreInterruptsEnabled = .op .pushfq fun r =>
      .ret ((r.setWidth 8 : BitVec 8).setWidth 32 &&& rflagsIntrEnabledMsk != 0) := rfl
  rw [h]
  simp only [intrEnabled_narrowed]

theorem nestedSafe_eq (body : Driver Unit) :
    nestedSafe body = .op .pushfq fun _ => body >>= fun _ => .ret () := by
  simp [nestedSafe, irqAreInterruptsEnabled_eq, Prog.when]

end SkipOS
