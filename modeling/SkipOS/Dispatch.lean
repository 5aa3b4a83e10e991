import SkipOS.Pic
import SkipOS.Device
import Mathlib.Data.List.Induction

/-! Dispatch through `isr_helper`, and the commands it sends to the two interrupt controllers
when a handler has returned. -/

namespace SkipOS

open Prog

def pic1CmdPort : BitVec 16 := 0x20

def pic2CmdPort : BitVec 16 := 0xA0

def eoiCmd : Byte := 0x20

def picSendPic1Eoi : Driver Unit := outb pic1CmdPort eoiCmd

def picSendPic2Eoi : Driver Unit := outb pic2CmdPort eoiCmd

/-- The second comparison takes the number in the IDT for a line of the controllers. -/
def irqEndOfInterrupt (irqIndex : Byte) : Driver Unit :=
  if irqIndex < externalIntBase ∨ irqIndex > externalIntMax then return ()
  else do
    Prog.when (irqIndex ≥ linesPerPic) picSendPic2Eoi
    picSendPic1Eoi

abbrev IrqHandler := Byte → BitVec 32 → Word → Driver Unit

structure IrqInfo where
  arg : Word
  handler : IrqHandler

abbrev IrqTable := Byte → IrqInfo

def irqSetHandler (irqTable : IrqTable) (irqNum : Byte) (handler : IrqHandler) (arg : Word) :
    IrqTable :=
  Function.update irqTable irqNum ⟨arg, handler⟩

def isrHelper (irqTable : IrqTable) (irqNum : Byte) (error : BitVec 32) : Driver Unit := do
  (irqTable irqNum).handler irqNum error (irqTable irqNum).arg
  irqEndOfInterrupt irqNum

abbrev PortWrite := BitVec 16 × Byte

/-- The writes to all ports in order; what is read is not determined. -/
def portLog : Device (List PortWrite) where
  inb _ d _ d' := d' = d
  outb port val d d' := d' = d ++ [(port, val)]
  step _ _ := False

structure Dispatch where
  irqTable : IrqTable
  irqNum : Byte
  error : BitVec 32

def Dispatch.handler (d : Dispatch) : Driver Unit :=
  (d.irqTable d.irqNum).handler d.irqNum d.error (d.irqTable d.irqNum).arg

/-- `isr_helper` runs and `own` is what the handler writes to the ports. -/
def Dispatch.Runs (d : Dispatch) (u : DriverState × List PortWrite) (own : List PortWrite)
    (v : DriverState × List PortWrite) : Prop :=
  ∃ s, d.handler.Runs portLog.Exec u () (s, u.2 ++ own) ∧
    (irqEndOfInterrupt d.irqNum).Runs portLog.Exec (s, u.2 ++ own) () v

/-- Dispatches one after another, and between them code that does not write to the ports. -/
inductive DispatchRun (s₀ : DriverState) :
    List Dispatch → List PortWrite → DriverState × List PortWrite → Prop
  | refl : DispatchRun s₀ [] [] (s₀, [])
  | other {ds : List Dispatch} {own log : List PortWrite} {s s' : DriverState}
      (h : DispatchRun s₀ ds own (s, log)) : DispatchRun s₀ ds own (s', log)
  | dispatch {ds : List Dispatch} {d : Dispatch} {own own' : List PortWrite}
      {u v : DriverState × List PortWrite} (h : DispatchRun s₀ ds own u) (hd : d.Runs u own' v) :
      DispatchRun s₀ (ds ++ [d]) (own ++ own') v

def IsExternal (irqNum : Byte) : Prop := externalIntBase ≤ irqNum ∧ irqNum ≤ externalIntMax

/-- The vectors to which `PIC_remap` maps the lines of the first controller. -/
def FromPic1 (irqNum : Byte) : Prop := 0x20 ≤ irqNum ∧ irqNum < 0x28

def FromPic2 (irqNum : Byte) : Prop := 0x28 ≤ irqNum ∧ irqNum ≤ 0x2F

instance : DecidablePred IsExternal := fun _ => inferInstanceAs (Decidable (_ ∧ _))

instance : DecidablePred FromPic1 := fun _ => inferInstanceAs (Decidable (_ ∧ _))

instance : DecidablePred FromPic2 := fun _ => inferInstanceAs (Decidable (_ ∧ _))

def eoiCount (cmdPort : BitVec 16) (log : List PortWrite) : Nat := log.count (cmdPort, eoiCmd)

/-- How many of the vectors dispatched are of a kind. -/
def vectorCount (P : Byte → Prop) [DecidablePred P] (ds : List Dispatch) : Nat :=
  ds.countP fun d => P d.irqNum

variable {s s₀ : DriverState} {log own : List PortWrite} {u v : DriverState × List PortWrite}
  {d : Dispatch} {ds : List Dispatch} {irqIndex : Byte} {P : Byte → Prop} [DecidablePred P]

/-- Both controllers are told of every vector in `0x20..0x2F`. -/
theorem irqEndOfInterrupt_log (h : (irqEndOfInterrupt irqIndex).Runs portLog.Exec u () v) :
    v.2 = u.2 ++ if IsExternal irqIndex then [(pic2CmdPort, eoiCmd), (pic1CmdPort, eoiCmd)] else [] := by
  obtain ⟨s, log⟩ := u
  have hwp : (irqEndOfInterrupt irqIndex).wp (fun _ _ => True) portLog.Exec (fun _ v => v.2 =
      log ++ if IsExternal irqIndex then [(pic2CmdPort, eoiCmd), (pic1CmdPort, eoiCmd)] else [])
      (s, log) := by
    by_cases hout : irqIndex < externalIntBase ∨ irqIndex > externalIntMax
    · have hnot : ¬ IsExternal irqIndex := by
        rintro ⟨hlow, hhigh⟩
        rcases hout with hl | hh
        · exact BitVec.not_le.mpr hl hlow
        · exact BitVec.not_le.mpr hh hhigh
      rw [irqEndOfInterrupt, if_pos hout, if_neg hnot]
      exact (List.append_nil _).symm
    · rw [not_or] at hout
      have hin : IsExternal irqIndex := ⟨BitVec.not_lt.mp hout.1, BitVec.not_lt.mp hout.2⟩
      have hline : irqIndex ≥ linesPerPic :=
        BitVec.le_trans (show linesPerPic ≤ externalIntBase by decide) hin.1
      rw [irqEndOfInterrupt, if_neg (not_or.mpr hout), if_pos hin, Prog.when, if_pos hline]
      refine wp_outb.mpr ⟨trivial, ?_⟩
      rintro log₁ rfl
      refine wp_outb.mpr ⟨trivial, ?_⟩
      rintro log₂ rfl
      exact List.append_assoc ..
  exact hwp.runs h

theorem Dispatch.Runs.log_eq (h : d.Runs u own v) : v.2 = u.2 ++ own ++
    if IsExternal d.irqNum then [(pic2CmdPort, eoiCmd), (pic1CmdPort, eoiCmd)] else [] := by
  obtain ⟨s, -, heoi⟩ := h
  exact irqEndOfInterrupt_log heoi

theorem eoiCount_append (cmdPort : BitVec 16) (log own : List PortWrite) :
    eoiCount cmdPort (log ++ own) = eoiCount cmdPort log + eoiCount cmdPort own :=
  List.count_append

theorem vectorCount_snoc :
    vectorCount P (ds ++ [d]) = vectorCount P ds + if P d.irqNum then 1 else 0 := by
  simp [vectorCount, List.countP_append, List.countP_cons]

/-- What the controllers get is one command each for every external vector, and what the
handlers send. -/
theorem DispatchRun.eoiCount_eq (h : DispatchRun s₀ ds own u) {cmdPort : BitVec 16}
    (hport : cmdPort = pic1CmdPort ∨ cmdPort = pic2CmdPort) :
    eoiCount cmdPort u.2 = vectorCount IsExternal ds + eoiCount cmdPort own := by
  induction h with
  | refl => rfl
  | other _ ih => exact ih
  | @dispatch ds d own own' u v _ hd ih =>
    have hsent : eoiCount cmdPort (if IsExternal d.irqNum then
        [(pic2CmdPort, eoiCmd), (pic1CmdPort, eoiCmd)] else []) =
        if IsExternal d.irqNum then 1 else 0 := by
      by_cases hext : IsExternal d.irqNum
      · rw [if_pos hext, if_pos hext]
        rcases hport with rfl | rfl
        · decide
        · decide
      · rw [if_neg hext, if_neg hext]
        rfl
    rw [hd.log_eq, eoiCount_append, eoiCount_append, eoiCount_append, hsent, ih, vectorCount_snoc]
    omega

theorem vectorCount_external :
    vectorCount IsExternal ds = vectorCount FromPic1 ds + vectorCount FromPic2 ds := by
  induction ds using List.reverseRecOn with
  | nil => rfl
  | append_singleton ds d ih =>
    have hsplit : (if IsExternal d.irqNum then 1 else 0) =
        (if FromPic1 d.irqNum then 1 else 0) + if FromPic2 d.irqNum then 1 else 0 := by
      generalize d.irqNum = irqNum
      revert irqNum
      decide
    rw [vectorCount_snoc, vectorCount_snoc, vectorCount_snoc, hsplit, ih]
    omega

theorem vectorCount_eq_zero : vectorCount P ds = 0 ↔ ∀ d ∈ ds, ¬ P d.irqNum := by
  simp [vectorCount, List.countP_eq_zero]

/-- The commands are those for the vectors of each controller exactly when no vector of the
first controller is dispatched and no handler sends a command itself. -/
theorem eoi_counts_iff {s₀ : DriverState} {ds : List Dispatch} {own : List PortWrite}
    {u : DriverState × List PortWrite} (h : DispatchRun s₀ ds own u) :
    (eoiCount pic2CmdPort u.2 = vectorCount FromPic2 ds ∧
      eoiCount pic1CmdPort u.2 = vectorCount IsExternal ds) ↔
    (∀ d ∈ ds, ¬ FromPic1 d.irqNum) ∧
      (pic1CmdPort, eoiCmd) ∉ own ∧ (pic2CmdPort, eoiCmd) ∉ own := by
  have h₁ := h.eoiCount_eq (Or.inl rfl)
  have h₂ := h.eoiCount_eq (Or.inr rfl)
  rw [h₁, h₂, vectorCount_external, ← vectorCount_eq_zero, ← List.count_eq_zero,
    ← List.count_eq_zero]
  unfold eoiCount
  omega

def quietTable : IrqTable := fun _ => ⟨0, fun _ _ _ => return ()⟩

def rtcDispatch : Dispatch := ⟨quietTable, 0x28, 0⟩

def pageFaultDispatch : Dispatch := ⟨quietTable, 0x0E, 0⟩

def ataDispatch : Dispatch := ⟨quietTable, 0x2E, 0⟩

def keyboardDispatch : Dispatch := ⟨quietTable, 0x21, 0⟩

/-- The commands to both controllers. -/
def withEois (log : List PortWrite) : DriverState × List PortWrite :=
  (⟨0, zeroVars⟩, log ++ [(pic2CmdPort, eoiCmd)] ++ [(pic1CmdPort, eoiCmd)])

theorem quiet_runs (log : List PortWrite) (irqNum : Byte)
    (hin : ¬ (irqNum < externalIntBase ∨ irqNum > externalIntMax)) :
    Dispatch.Runs ⟨quietTable, irqNum, 0⟩ (⟨0, zeroVars⟩, log) [] (withEois log) := by
  have hline : irqNum ≥ linesPerPic := by
    rw [not_or] at hin
    exact BitVec.le_trans (show linesPerPic ≤ externalIntBase by decide) (BitVec.not_lt.mp hin.1)
  refine ⟨⟨0, zeroVars⟩, (List.append_nil log).symm ▸ .ret () _, ?_⟩
  rw [irqEndOfInterrupt, if_neg hin, Prog.when, if_pos hline, List.append_nil]
  have hsecond : portLog.Exec (.outb pic2CmdPort eoiCmd) (⟨0, zeroVars⟩, log) ()
      (⟨0, zeroVars⟩, log ++ [(pic2CmdPort, eoiCmd)]) := ⟨rfl, rfl⟩
  have hfirst : portLog.Exec (.outb pic1CmdPort eoiCmd)
      (⟨0, zeroVars⟩, log ++ [(pic2CmdPort, eoiCmd)]) () (withEois log) := ⟨rfl, rfl⟩
  exact .op hsecond (.op hfirst (.ret () _))

/-- Two interrupts of the second controller and an exception between them. -/
theorem eoi_counts_second_controller :
    eoiCount pic2CmdPort (withEois (withEois []).2).2 =
      vectorCount FromPic2 [rtcDispatch, pageFaultDispatch, ataDispatch] ∧
    eoiCount pic1CmdPort (withEois (withEois []).2).2 =
      vectorCount IsExternal [rtcDispatch, pageFaultDispatch, ataDispatch] := by
  have hfault : pageFaultDispatch.Runs (withEois []) [] (withEois []) :=
    ⟨_, .ret () _, .ret () _⟩
  have hrun : DispatchRun ⟨0, zeroVars⟩ [rtcDispatch, pageFaultDispatch, ataDispatch] []
      (withEois (withEois []).2) :=
    .dispatch (.dispatch (.dispatch .refl (quiet_runs [] 0x28 (by decide))) hfault)
      (quiet_runs _ 0x2E (by decide))
  exact (eoi_counts_iff hrun).mpr
    ⟨by simp [rtcDispatch, pageFaultDispatch, ataDispatch, FromPic1], by simp, by simp⟩

/-- The keyboard is on the first controller and the second gets a command. -/
theorem spurious_eoi : DispatchRun ⟨0, zeroVars⟩ [keyboardDispatch] [] (withEois []) ∧
    eoiCount pic2CmdPort (withEois []).2 = 1 ∧ vectorCount FromPic2 [keyboardDispatch] = 0 :=
  ⟨.dispatch .refl (quiet_runs [] 0x21 (by decide)), by decide, by decide⟩

end SkipOS
