import SkipOS.Keyboard

/-! What `KBD_init` reads and writes at the ports of the keyboard controller, and the
handshake by which their buffers are found ready. -/

namespace SkipOS

open Prog

inductive PortOp where
  | read (port : BitVec 16) (val : Byte)
  | write (port : BitVec 16) (val : Byte)

/-- The ports are read as `answers` says after what was done so far. -/
def controller (answers : List PortOp → BitVec 16 → Byte) : Device (List PortOp) where
  inb port d r d' := r = answers d port ∧ d' = d ++ [.read port r]
  outb port val d d' := d' = d ++ [.write port val]
  step _ _ := False

def PortOp.WritesKbd : PortOp → Prop
  | read _ _ => False
  | write port _ => port = ioP1 ∨ port = ioP2

def PortOp.ReadsData : PortOp → Prop
  | read port _ => port = ioP1
  | write _ _ => False

/-- The input buffer was seen clear since the last byte written. -/
def WriteReady (trace : List PortOp) : Prop :=
  ∃ before status since, trace = before ++ .read ioP2 status :: since ∧
    status &&& inputBuffStatusMsk = 0 ∧ ∀ op ∈ since, ¬ op.WritesKbd

/-- The output buffer was seen full since the last byte read. -/
def ReadReady (trace : List PortOp) : Prop :=
  ∃ before status since, trace = before ++ .read ioP2 status :: since ∧
    status &&& outputBuffStatusMsk ≠ 0 ∧ ∀ op ∈ since, ¬ op.ReadsData

/-- An operation after `trace` keeps the handshake, where `used` tells which bytes read from
the data port are used. -/
def Handshake (used : List PortOp → Prop) : Action → List PortOp → Prop
  | .outb port _, trace => port = ioP1 ∨ port = ioP2 → WriteReady trace
  | .inb port, trace => port = ioP1 → used trace → ReadReady trace
  | _, _ => True

variable {answers : List PortOp → BitVec 16 → Byte} {α β : Type} {s : DriverState}
  {trace : List PortOp} {p : Driver α} {f : α → Driver β} {fuel : Nat}

/-! Writes to the data port do wait. -/

def DataWriteReady (o : Action) (u : DriverState × List PortOp) : Prop :=
  ∀ val, o = .outb ioP1 val → WriteReady u.2

def NoDataWrite (o : Action) : Prop := ∀ val, o ≠ .outb ioP1 val

/-- From any state on, each write to the data port waits. -/
def DataWritesWait (answers : List PortOp → BitVec 16 → Byte) (p : Driver α) : Prop :=
  ∀ u, p.wp DataWriteReady (controller answers).Exec (fun _ _ => True) u

theorem DataWritesWait.bind (hp : DataWritesWait answers p)
    (hf : ∀ a, DataWritesWait answers (f a)) : DataWritesWait answers (p >>= f) :=
  fun u => wp_bind (wp_mono (hp u) fun a t _ => hf a t)

theorem dataWritesWait_of_only (h : p.Only NoDataWrite) : DataWritesWait answers p :=
  fun _ => h.wp (fun _ _ ho val he => (ho val he).elim) (fun _ _ _ _ _ _ _ => trivial) trivial

theorem noDataWrite_inb (port : BitVec 16) : (inb port).Only NoDataWrite :=
  only_perform fun _ => by simp

theorem noDataWrite_outb {port : BitVec 16} (hport : port ≠ ioP1) (val : Byte) :
    (outb port val).Only NoDataWrite :=
  only_perform fun val' => by simp [hport]

theorem noDataWrite_driverAssert (c : Bool) : (driverAssert c).Only NoDataWrite :=
  Only.ite (only_ret _) ⟨by simp [NoDataWrite], fun r => r.elim⟩

theorem noDataWrite_flushBuff (fuel : Nat) : (flushBuff fuel).Only NoDataWrite := by
  induction fuel with
  | zero => exact ⟨by simp [NoDataWrite], fun r => r.elim⟩
  | succ fuel ih =>
    exact (noDataWrite_inb _).bind fun _ => Only.ite ((noDataWrite_inb _).bind fun _ => ih)
      (only_ret _)

theorem noDataWrite_waitReadData (fuel : Nat) : (waitReadData fuel).Only NoDataWrite := by
  induction fuel with
  | zero => exact ⟨by simp [NoDataWrite], fun r => r.elim⟩
  | succ fuel ih => exact (noDataWrite_inb _).bind fun _ => Only.ite ih (only_ret _)

theorem noDataWrite_readConfigByte (fuel : Nat) : (readConfigByte fuel).Only NoDataWrite :=
  (noDataWrite_outb (by decide) _).bind fun _ => (noDataWrite_waitReadData fuel).bind fun _ =>
    noDataWrite_inb _

theorem noDataWrite_irqEnableIndex (irqIndex : Byte) :
    (irqEnableIndex irqIndex).Only NoDataWrite := by
  have hexternal (i : Byte) : (assertExternal i).Only NoDataWrite := noDataWrite_driverAssert _
  have hmask : (getIrqMask irqIndex).Only NoDataWrite :=
    (hexternal _).bind fun _ => Only.ite (noDataWrite_inb _) (noDataWrite_inb _)
  have hline : (getPicLineIndex irqIndex).Only NoDataWrite :=
    (hexternal _).bind fun _ => Only.ite
      ((noDataWrite_driverAssert _).bind fun _ => only_ret _) (only_ret _)
  exact (hexternal _).bind fun _ => (Only.when (noDataWrite_driverAssert _)).bind fun _ =>
    hmask.bind fun _ => hline.bind fun _ =>
      Only.ite (noDataWrite_outb (by decide) _) (noDataWrite_outb (by decide) _)

/-- What polls that find the buffer full keep holds at the last one, which finds it clear. -/
theorem waitWriteData_rule {δ : Type} {D : Device δ} {ok : Action → DriverState × δ → Prop}
    {I : δ → Prop} {Q : Unit → DriverState × δ → Prop} {d : δ}
    (hok : ∀ d, ok (.inb ioP2) (s, d) ∧ ok .fuel (s, d))
    (hfull : ∀ d r d', I d → D.inb ioP2 d r d' → r &&& inputBuffStatusMsk ≠ 0 → I d')
    (hclear : ∀ d r d', I d → D.inb ioP2 d r d' → r &&& inputBuffStatusMsk = 0 → Q () (s, d'))
    (fuel : Nat) (hstart : I d) : (waitWriteData fuel).wp ok D.Exec Q (s, d) := by
  induction fuel generalizing d with
  | zero => exact ⟨(hok d).2, fun r => r.elim⟩
  | succ fuel ih =>
    refine wp_inb.mpr ⟨(hok d).1, fun status d' hin => ?_⟩
    show (if status &&& inputBuffStatusMsk ≠ 0 then waitWriteData fuel
      else pure () : Driver Unit).wp _ _ _ _
    by_cases hbusy : status &&& inputBuffStatusMsk ≠ 0
    · rw [if_pos hbusy]
      exact ih (hfull d status d' hstart hin hbusy)
    · rw [if_neg hbusy]
      exact hclear d status d' hstart hin (not_not.mp hbusy)

/-- `wait_write_data` ends with the input buffer seen clear. -/
theorem waitWriteData_wp (fuel : Nat) (s : DriverState) (trace : List PortOp) :
    (waitWriteData fuel).wp DataWriteReady (controller answers).Exec
      (fun _ u => WriteReady u.2) (s, trace) := by
  refine waitWriteData_rule (I := fun _ => True) ?_ (fun _ _ _ _ _ _ => trivial) ?_ fuel trivial
  · exact fun trace => ⟨fun val he => by simp at he, fun val he => by simp at he⟩
  · rintro trace status - - ⟨-, rfl⟩ hclear
    exact ⟨trace, status, [], rfl, hclear, by simp⟩

theorem dataWritesWait_writeDataByte (fuel : Nat) (dataByte : Byte) :
    DataWritesWait answers (writeDataByte fuel dataByte) := by
  rintro ⟨s, trace⟩
  refine wp_bind (wp_mono (waitWriteData_wp fuel s trace) ?_)
  rintro - ⟨s', trace'⟩ hready
  exact wp_outb.mpr ⟨fun _ _ => hready, fun _ _ => trivial⟩

theorem dataWritesWait_resendLoop (fuel : Nat) (kbdSentByte : Byte) (n : Nat) (numResend : Byte) :
    DataWritesWait answers (resendLoop fuel kbdSentByte n numResend) := by
  induction n generalizing numResend with
  | zero => exact dataWritesWait_of_only ⟨by simp [NoDataWrite], fun r => r.elim⟩
  | succ n ih =>
    refine (dataWritesWait_of_only (noDataWrite_inb _)).bind fun ackByte => ?_
    by_cases hagain : ackByte ≠ kbdAckRsp ∧ numResend < maxKbdResend
    · rw [if_pos hagain]
      exact (dataWritesWait_writeDataByte fuel kbdSentByte).bind fun _ => ih _
    · rw [if_neg hagain]
      exact fun _ => trivial

theorem dataWritesWait_sendKbdByte (fuel : Nat) (kbdByte : Byte) :
    DataWritesWait answers (sendKbdByte fuel kbdByte) :=
  (dataWritesWait_writeDataByte fuel kbdByte).bind fun _ =>
    (dataWritesWait_resendLoop fuel kbdByte _ _).bind fun _ =>
      dataWritesWait_of_only (noDataWrite_driverAssert _)

/-- Each byte that `KBD_init` writes to the data port waits for the input buffer. -/
theorem dataWritesWait_kbdInit (fuel : Nat) (behind : List ScodeMapElem) (kdbState : Word)
    (irqTable : IrqTable) : DataWritesWait answers (kbdInit fuel behind kdbState irqTable) := by
  have hcommand (commandByte : Byte) : DataWritesWait answers (writeCommandByte commandByte) :=
    dataWritesWait_of_only (noDataWrite_outb (by decide) commandByte)
  have hconfig : DataWritesWait answers (writeGoodConfigByte fuel) :=
    (dataWritesWait_of_only (noDataWrite_readConfigByte fuel)).bind fun _ =>
      (hcommand _).bind fun _ => dataWritesWait_writeDataByte fuel _
  have hreset : DataWritesWait answers (resetKbd fuel) :=
    (dataWritesWait_sendKbdByte fuel _).bind fun _ =>
      (dataWritesWait_of_only (noDataWrite_inb _)).bind fun _ =>
        dataWritesWait_of_only (noDataWrite_driverAssert _)
  have hscan : DataWritesWait answers (setKbdScanCode2 fuel) :=
    (dataWritesWait_sendKbdByte fuel _).bind fun _ => dataWritesWait_sendKbdByte fuel _
  refine (hcommand _).bind fun _ => (hcommand _).bind fun _ =>
    (dataWritesWait_of_only (noDataWrite_flushBuff fuel)).bind fun _ => hconfig.bind fun _ =>
      (hcommand _).bind fun _ => hreset.bind fun _ => hscan.bind fun _ => ?_
  exact dataWritesWait_of_only ((noDataWrite_irqEnableIndex _).bind fun _ => only_ret _)

theorem not_writeReady_nil : ¬ WriteReady [] := by
  rintro ⟨before, status, since, he, -⟩
  simp at he

/-- Commands do not wait: the first is sent before anything is read. -/
theorem kbdInit_breaks_handshake (answers : List PortOp → BitVec 16 → Byte)
    (used : List PortOp → Prop) (fuel : Nat) (behind : List ScodeMapElem) (kdbState : Word)
    (irqTable : IrqTable) (s : DriverState) :
    ¬ ∀ o u, (kbdInit fuel behind kdbState irqTable).Performs (controller answers).Exec
      (s, []) o u → Handshake used o u.2 := by
  intro h
  have hfirst : Handshake used (.outb ioP2 disableP1Cmd) [] := h _ (s, []) .here
  exact not_writeReady_nil (hfirst (Or.inr rfl))

theorem first_command_unwaited :
    (kbdInit 4 [] 0x100000 quietTable).Performs (controller fun _ _ => 0).Exec
      (⟨0, zeroVars⟩, []) (.outb ioP2 disableP1Cmd) (⟨0, zeroVars⟩, []) ∧
    ¬ Handshake (fun _ => True) (.outb ioP2 disableP1Cmd) [] :=
  ⟨.here, fun h => not_writeReady_nil (h (Or.inr rfl))⟩

end SkipOS
