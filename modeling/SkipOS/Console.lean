import SkipOS.Printk
import SkipOS.Serial
import SkipOS.Vga

/-! `printk` on the machine: the calls it makes, performed on the screen and the serial line. -/

namespace SkipOS

open Prog

def PrintCall.prog (serBuff : Word) : PrintCall → Driver Unit
  | .vgaDisplayChar c => SkipOS.vgaDisplayChar c
  | .serWrite buff => SkipOS.serWrite serBuff buff

def performCalls (serBuff : Word) : List PrintCall → Driver Unit
  | [] => return ()
  | c :: calls => do
    c.prog serBuff
    performCalls serBuff calls

/-- `printk` that stops has made the calls before; then a string has no end or the processor is
halted. -/
@[irreducible] def Console.printk (serBuff : Word) (fmt : Option CString) (args : List Arg) :
    Driver (BitVec 32) :=
  match SkipOS.printk fmt args [] with
  | .ok r calls => do
    performCalls serBuff calls
    return r
  | .error .fuel calls => do
    performCalls serBuff calls
    .op .fuel Empty.elim
  | .error _ calls => do
    performCalls serBuff calls
    .op .halt Empty.elim

def cString (text : List Char) (h : 0 ∉ text.map ch) : CString := ⟨text.map ch, h⟩

variable {serBuff : Word} {P : Action → Prop} {calls : List PrintCall} {fmt : Option CString}
  {args : List Arg}

theorem performCalls_only (h : ∀ c : PrintCall, (c.prog serBuff).Only P) :
    (performCalls serBuff calls).Only P := by
  induction calls with
  | nil => exact only_ret _
  | cons c calls ih => exact (h c).bind fun _ => ih

theorem Console.printk_only (h : ∀ c : PrintCall, (c.prog serBuff).Only P) (hhalt : P .halt)
    (hfuel : P .fuel) : (Console.printk serBuff fmt args).Only P := by
  have hcalls (calls : List PrintCall) : (performCalls serBuff calls).Only P :=
    performCalls_only h
  rw [Console.printk]
  split
  · exact (hcalls _).bind fun _ => only_ret _
  · exact (hcalls _).bind fun _ => ⟨hfuel, fun r => r.elim⟩
  · exact (hcalls _).bind fun _ => ⟨hhalt, fun r => r.elim⟩

end SkipOS
