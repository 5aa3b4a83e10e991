import SkipOS.Serial
import SkipOS.Vga

/-! Critical sections under interrupts. Since the flag is never seen as set, interrupts are
never disabled: the sections keep handlers out only where the flag was clear already. -/

namespace SkipOS

open Prog Preemption

inductive GuardedCall where
  | write (buff : List Byte)
  | flush
  | displayChar (c : Byte)

def GuardedCall.prog (serBuff : Word) (fuel : Nat) : GuardedCall → Driver Unit
  | .write buff => serWrite serBuff buff
  | .flush => serFlush serBuff fuel
  | .displayChar c => vgaDisplayChar c

/-- What interrupt handlers do: ports and driver functions in any order. -/
inductive HandlerCode (serBuff : Word) : Driver Unit → Prop
  | done : HandlerCode serBuff (.ret ())
  | halt (k : Empty → Driver Unit) : HandlerCode serBuff (.op .halt k)
  | inb (port : BitVec 16) {k : Byte → Driver Unit} (h : ∀ b, HandlerCode serBuff (k b)) :
      HandlerCode serBuff (.op (.inb port) k)
  | outb (port : BitVec 16) (val : Byte) {k : Unit → Driver Unit}
      (h : ∀ u, HandlerCode serBuff (k u)) : HandlerCode serBuff (.op (.outb port val) k)
  | guarded (c : GuardedCall) (fuel : Nat) {rest : Driver Unit} (h : HandlerCode serBuff rest) :
      HandlerCode serBuff (c.prog serBuff fuel >>= fun _ => rest)
  | serIrq (irqIndex : Byte) {rest : Driver Unit} (h : HandlerCode serBuff rest) :
      HandlerCode serBuff (serIrqHandler serBuff irqIndex >>= fun _ => rest)
  | backspace {rest : Driver Unit} (h : HandlerCode serBuff rest) :
      HandlerCode serBuff (vgaBackspaceChar >>= fun _ => rest)

/-- Handlers are entered through interrupt gates, which clear the flag, and `iretq` gives it
back. Maskable interrupts come while the flag is set and faults at any time. -/
def interrupts (serBuff : Word) : Preemption Action Action.Res DriverState Word where
  exec := Action.Exec
  take s handler saved s' :=
    HandlerCode serBuff handler ∧ saved = s.rflags ∧ s' = { s with rflags := s.rflags &&& ~~~rflagsIf }
  resume saved s := { s with rflags := saved }

def Action.Shared : Action → Prop
  | .load _ => True
  | .store _ _ => True
  | _ => False

/-- `IRQ_are_interrupts_enabled` tells the flag. -/
def FlagSeen (s : DriverState) : Prop :=
  ∀ b t, irqAreInterruptsEnabled.Runs Action.Exec s b t → b = s.interruptFlag

/-- However the call is interrupted, shared data is accessed with the flag clear. -/
def AccessesGuarded (serBuff : Word) (c : GuardedCall) (s : DriverState) : Prop :=
  ∀ fuel x, (interrupts serBuff).Reaches ⟨s, c.prog serBuff fuel, []⟩ x →
    ∀ o ∈ x.running.next, o.Shared → x.state.interruptFlag = false

def FlagRestored (serBuff : Word) (c : GuardedCall) (s : DriverState) : Prop :=
  ∀ fuel x, (interrupts serBuff).Reaches ⟨s, c.prog serBuff fuel, []⟩ x →
    x.running = .ret () → x.suspended = [] → x.state.interruptFlag = s.interruptFlag

/-- Operations that leave the flag alone. -/
def Action.Calm : Action → Prop
  | .cli => False
  | .sti => False
  | _ => True

/-- A program that leaves the flag alone, where the flag is `flag`. -/
def CalmAt (flag : Bool) (s : DriverState) (p : Driver Unit) : Prop :=
  s.interruptFlag = flag ∧ p.Only Action.Calm

variable {serBuff : Word} {s s' t : DriverState} {o : Action} {p : Driver Unit} {flag : Bool}
  {c : GuardedCall}

/-! No function executes `cli` or `sti`. -/

theorem calm_load (v : Var) : (load v).Only Action.Calm := only_perform trivial

theorem calm_store (v : Var) (x : v.Ty) : (store v x).Only Action.Calm := only_perform trivial

theorem calm_inb (port : BitVec 16) : (inb port).Only Action.Calm := only_perform trivial

theorem calm_outb (port : BitVec 16) (val : Byte) : (outb port val).Only Action.Calm :=
  only_perform trivial

theorem calm_driverAssert (c : Bool) : (driverAssert c).Only Action.Calm :=
  Only.ite (only_ret _) ⟨trivial, fun r => r.elim⟩

theorem calm_assertInterruptsOff : assertInterruptsOff.Only Action.Calm := by
  rw [assertInterruptsOff, irqAreInterruptsEnabled_eq]
  exact ⟨trivial, fun _ => calm_driverAssert _⟩

theorem calm_nestedSafe {body : Driver Unit} (h : body.Only Action.Calm) :
    (nestedSafe body).Only Action.Calm := by
  rw [nestedSafe_eq]
  exact ⟨trivial, fun _ => h.bind fun _ => only_ret _⟩

theorem calm_isBuffEmpty : isBuffEmpty.Only Action.Calm :=
  calm_assertInterruptsOff.bind fun _ => (calm_load _).bind fun _ => (calm_load _).bind fun _ =>
    only_ret _

theorem calm_isBuffFull : isBuffFull.Only Action.Calm := by
  refine calm_assertInterruptsOff.bind fun _ => (calm_load _).bind fun _ => (calm_load _).bind
    fun _ => Only.ite (only_ret _) ?_
  exact (calm_load _).bind fun _ => (calm_load _).bind fun _ => only_ret _

theorem calm_consume (serBuff : Word) : (consume serBuff).Only Action.Calm := by
  refine calm_assertInterruptsOff.bind fun _ => calm_isBuffEmpty.bind fun _ =>
    Only.ite (only_ret _) ?_
  refine (calm_load _).bind fun c => (calm_load _).bind fun val => (calm_load _).bind fun _ =>
    (calm_store _ _).bind fun _ => (calm_load _).bind fun _ => ?_
  exact (Only.when (calm_store _ _)).bind fun _ => only_ret _

theorem calm_produce (serBuff : Word) (pVal : Byte) : (produce serBuff pVal).Only Action.Calm := by
  refine calm_assertInterruptsOff.bind fun _ => calm_isBuffFull.bind fun _ =>
    Only.ite (only_ret _) ?_
  refine (calm_load _).bind fun p => (calm_store _ _).bind fun _ => (calm_load _).bind fun _ =>
    (calm_store _ _).bind fun _ => (calm_load _).bind fun _ => ?_
  exact (Only.when (calm_store _ _)).bind fun _ => only_ret _

theorem calm_initHwWrite (serBuff : Word) : (initHwWrite serBuff).Only Action.Calm := by
  refine (calm_load _).bind fun busy => (Only.when ?_).bind fun _ => (calm_load _).bind fun _ =>
    Only.ite (only_ret _) ?_
  · exact (calm_inb _).bind fun lsr => Only.when (calm_store _ _)
  · refine (calm_consume serBuff).bind fun out => ?_
    cases out with
    | none => exact only_ret _
    | some outVal => exact (calm_store _ _).bind fun _ => calm_outb _ _

theorem calm_writeLoop (serBuff : Word) (buff : List Byte) :
    (writeLoop serBuff buff).Only Action.Calm := by
  induction buff with
  | nil => exact only_ret _
  | cons b bs ih => exact (calm_produce serBuff b).bind fun _ => Only.ite ih (only_ret _)

theorem calm_flushLoop (serBuff : Word) (fuel : Nat) : (flushLoop serBuff fuel).Only Action.Calm := by
  induction fuel with
  | zero => exact ⟨trivial, fun r => r.elim⟩
  | succ fuel ih =>
    refine (calm_consume serBuff).bind fun out => ?_
    cases out with
    | none => exact only_ret _
    | some outVal => exact (calm_outb _ _).bind fun _ => ih

theorem calm_serIrqHandler (serBuff : Word) (irqIndex : Byte) :
    (serIrqHandler serBuff irqIndex).Only Action.Calm := by
  refine (calm_driverAssert _).bind fun _ => (calm_inb _).bind fun iirVal =>
    Only.ite ((calm_inb _).bind fun _ => only_ret _) (Only.ite ?_ (only_ret _))
  exact (calm_store _ _).bind fun _ => calm_initHwWrite serBuff

theorem calm_of_onScreen {α : Type} {p : Driver α} (h : p.Only Action.OnScreen) :
    p.Only Action.Calm := by
  refine h.mono fun o ho => ?_
  cases o with
  | cli => exact ho.elim
  | sti => exact ho.elim
  | _ => trivial

theorem GuardedCall.calm (c : GuardedCall) (serBuff : Word) (fuel : Nat) :
    (c.prog serBuff fuel).Only Action.Calm := by
  cases c with
  | write buff =>
    exact calm_nestedSafe ((calm_writeLoop _ _).bind fun _ => calm_initHwWrite _)
  | flush => exact calm_nestedSafe ((calm_flushLoop _ _).bind fun _ => calm_store _ _)
  | displayChar c => exact calm_of_onScreen (screen_vgaDisplayChar c)

theorem HandlerCode.calm (h : HandlerCode serBuff p) : p.Only Action.Calm := by
  induction h with
  | done => exact only_ret _
  | halt k => exact ⟨trivial, fun r => r.elim⟩
  | inb port _ ih => exact ⟨trivial, ih⟩
  | outb port val _ ih => exact ⟨trivial, ih⟩
  | guarded c fuel _ ih => exact (c.calm serBuff fuel).bind fun _ => ih
  | serIrq irqIndex _ ih => exact (calm_serIrqHandler serBuff irqIndex).bind fun _ => ih
  | backspace _ ih => exact (calm_of_onScreen screen_vgaBackspaceChar).bind fun _ => ih

/-! One operation, and one handler, of a program that leaves the flag alone. -/

theorem CalmAt.exec {k : o.Res → Driver Unit} {r : o.Res} (h : CalmAt flag s (.op o k))
    (hexec : o.Exec s r s') : CalmAt flag s' (k r) := by
  obtain ⟨hflag, hcalm, hrest⟩ := h
  refine ⟨?_, hrest r⟩
  cases o with
  | pushfq => rwa [hexec.2]
  | cli => exact hcalm.elim
  | sti => exact hcalm.elim
  | halt => exact hexec.elim
  | fuel => exact hexec.elim
  | inb port =>
    obtain rfl : s' = s := hexec
    exact hflag
  | outb port val =>
    obtain rfl : s' = s := hexec
    exact hflag
  | load v => rwa [hexec.2]
  | store v x =>
    obtain rfl : s' = _ := hexec
    exact hflag

theorem interruptFlag_cleared (s : DriverState) :
    DriverState.interruptFlag { s with rflags := s.rflags &&& ~~~rflagsIf } = false := by
  have h9 : (~~~rflagsIf).getLsbD 9 = false := by decide
  rw [DriverState.interruptFlag, BitVec.getLsbD_and, h9, Bool.and_false]

theorem CalmAt.take {q : Driver Unit} {saved : Word} (h : CalmAt flag s p)
    (htake : (interrupts serBuff).take s q saved s') :
    CalmAt false s' q ∧ ∀ t, CalmAt flag ((interrupts serBuff).resume saved t) p := by
  obtain ⟨hcode, rfl, rfl⟩ := htake
  exact ⟨⟨interruptFlag_cleared s, hcode.calm⟩, fun t => ⟨h.1, h.2⟩⟩

theorem calmAt_frameInv (serBuff : Word) : FrameInv (interrupts serBuff) CalmAt where
  exec h hexec := h.exec hexec
  take h htake := ⟨false, (h.take htake).1, fun t _ => (h.take htake).2 t⟩

/-- With the flag clear below, it is clear in every handler too. -/
theorem calmAt_clear_frameInv (serBuff : Word) :
    FrameInv (interrupts serBuff) fun (_ : Unit) => CalmAt false where
  exec h hexec := h.exec hexec
  take h htake := ⟨(), (h.take htake).1, fun t _ => (h.take htake).2 t⟩

/-! The first access. -/

/-- After reads of the flags alone comes `o`. -/
inductive OpensWith (o : Action) : Driver Unit → Prop
  | here (k : o.Res → Driver Unit) : OpensWith o (.op o k)
  | pushfq {k : Word → Driver Unit} (h : ∀ r, OpensWith o (k r)) : OpensWith o (.op .pushfq k)

theorem OpensWith.reaches (h : OpensWith o p) (serBuff : Word) (s : DriverState) :
    ∃ q, (interrupts serBuff).Reaches ⟨s, p, []⟩ ⟨s, q, []⟩ ∧ q.next = some o := by
  induction h with
  | here k => exact ⟨_, .refl, rfl⟩
  | pushfq h ih =>
    obtain ⟨q, hq, ho⟩ := ih s.rflags
    exact ⟨q, .head (.exec ⟨rfl, rfl⟩) hq, ho⟩

theorem GuardedCall.opens (c : GuardedCall) (serBuff : Word) :
    ∃ o : Action, o.Shared ∧ OpensWith o (c.prog serBuff 1) := by
  cases c with
  | write buff =>
    cases buff with
    | nil =>
      refine ⟨.load .serBusy, trivial, ?_⟩
      rw [GuardedCall.prog, serWrite, nestedSafe_eq]
      exact .pushfq fun _ => .here _
    | cons b bs =>
      refine ⟨.load .serP, trivial, ?_⟩
      rw [GuardedCall.prog, serWrite, nestedSafe_eq]
      refine .pushfq fun _ => ?_
      simp only [writeLoop, produce, isBuffFull, assertInterruptsOff, irqAreInterruptsEnabled_eq,
        op_bind, ret_bind, driverAssert, Bool.not_false, if_true, pure_eq]
      exact .pushfq fun _ => .pushfq fun _ => .here _
  | flush =>
    refine ⟨.load .serC, trivial, ?_⟩
    rw [GuardedCall.prog, serFlush, nestedSafe_eq]
    refine .pushfq fun _ => ?_
    simp only [flushLoop, consume, isBuffEmpty, assertInterruptsOff, irqAreInterruptsEnabled_eq,
      op_bind, ret_bind, driverAssert, Bool.not_false, if_true, pure_eq]
    exact .pushfq fun _ => .pushfq fun _ => .here _
  | displayChar c =>
    refine ⟨.load .xPos, trivial, ?_⟩
    rw [GuardedCall.prog, vgaDisplayChar, nestedSafe_eq]
    exact .pushfq fun _ => .here _

theorem runs_irqAreInterruptsEnabled (s : DriverState) :
    irqAreInterruptsEnabled.Runs Action.Exec s false s := by
  rw [irqAreInterruptsEnabled_eq]
  exact .op ⟨rfl, rfl⟩ (.ret false s)

theorem flagSeen_of_clear (h : s.interruptFlag = false) : FlagSeen s := by
  intro b t hrun
  rw [irqAreInterruptsEnabled_eq] at hrun
  cases hrun with
  | op _ hk =>
    cases hk with
    | ret => exact h.symm

/-- The flag is told, shared data accessed with the flag clear and the flag given back
exactly where it was clear at the call; the accesses alone say as much. -/
theorem guard_holds_iff (serBuff : Word) (c : GuardedCall) (s : DriverState) :
    ((FlagSeen s ∧ AccessesGuarded serBuff c s ∧ FlagRestored serBuff c s) ↔
      s.interruptFlag = false) ∧
    (AccessesGuarded serBuff c s ↔ s.interruptFlag = false) := by
  have hrestored : FlagRestored serBuff c s := by
    intro fuel x hrun _ hx
    exact ((calmAt_frameInv serBuff).lowest (i := s.interruptFlag)
      ⟨rfl, c.calm serBuff fuel⟩ hrun hx).1
  have haccesses : AccessesGuarded serBuff c s ↔ s.interruptFlag = false := by
    constructor
    · intro h
      obtain ⟨o, ho, hopens⟩ := c.opens serBuff
      obtain ⟨q, hq, hnext⟩ := hopens.reaches serBuff s
      exact h 1 ⟨s, q, []⟩ hq o hnext ho
    · intro h fuel x hrun o _ _
      obtain ⟨-, hx, -⟩ := (calmAt_clear_frameInv serBuff).reaches (i := ())
        ⟨h, c.calm serBuff fuel⟩ hrun
      exact hx.1
  refine ⟨⟨fun h => haccesses.mp h.2.1, fun h => ?_⟩, haccesses⟩
  exact ⟨flagSeen_of_clear h, haccesses.mpr h, hrestored⟩

/-- Interrupts enabled, and all data zero. -/
def enabledState : DriverState where
  rflags := 0x202
  vars v := match v with
    | .serC => 0
    | .serP => 0
    | .serBusy => false
    | .byte _ => 0
    | .xPos => 0
    | .yPos => 0
    | .cursor => 0
    | .vgaBuff _ => 0

/-- `SER_flush` with interrupts enabled: the flag is told wrong and accesses are open. -/
theorem guard_fails_enabled : ¬ (∀ s, FlagSeen s) ∧
    ¬ ∀ (serBuff : Word) (c : GuardedCall) (s : DriverState), AccessesGuarded serBuff c s := by
  have hflag : enabledState.interruptFlag = true := by decide
  constructor
  · intro h
    have hb := h enabledState false enabledState (runs_irqAreInterruptsEnabled _)
    rw [hflag] at hb
    exact Bool.false_ne_true hb
  · intro h
    obtain ⟨o, ho, hopens⟩ := GuardedCall.opens .flush 0
    obtain ⟨q, hq, hnext⟩ := hopens.reaches 0 enabledState
    have hclear := h 0 .flush enabledState 1 ⟨enabledState, q, []⟩ hq o hnext ho
    rw [hflag] at hclear
    exact Bool.false_ne_true hclear.symm

end SkipOS
