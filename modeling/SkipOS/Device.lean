import SkipOS.Driver
import SkipOS.Lib.ProgramLogic

/-! The drivers on a machine with a device behind the ports, and what each of their
operations needs for a precondition to hold. -/

namespace SkipOS

open Prog

/-- What reading and writing a port may do, and what the device may do by itself. -/
structure Device (δ : Type) where
  inb : BitVec 16 → δ → Byte → δ → Prop
  outb : BitVec 16 → Byte → δ → δ → Prop
  step : δ → δ → Prop

variable {δ : Type}

def Device.Exec (D : Device δ) : (o : Action) → DriverState × δ → o.Res → DriverState × δ → Prop
  | .inb port, s, r, s' => D.inb port s.2 r s'.2 ∧ s'.1 = s.1
  | .outb port val, s, _, s' => D.outb port val s.2 s'.2 ∧ s'.1 = s.1
  | o, s, r, s' => o.Exec s.1 r s'.1 ∧ s'.2 = s.2

/-- One operation on a device whose answers are determined. -/
def Action.step (readPort : BitVec 16 → δ → Byte × δ) (writePort : BitVec 16 → Byte → δ → δ) :
    (o : Action) → DriverState × δ → Option (o.Res × (DriverState × δ))
  | .pushfq, s => some (s.1.rflags, s)
  | .cli, s => some ((), { s.1 with rflags := s.1.rflags &&& ~~~rflagsIf }, s.2)
  | .sti, s => some ((), { s.1 with rflags := s.1.rflags ||| rflagsIf }, s.2)
  | .halt, _ => none
  | .fuel, _ => none
  | .inb port, s => some ((readPort port s.2).1, s.1, (readPort port s.2).2)
  | .outb port val, s => some ((), s.1, writePort port val s.2)
  | .load v, s => some (s.1.vars v, s)
  | .store v x, s => some ((), { s.1 with vars := Function.update s.1.vars v x }, s.2)

def zeroVars : (v : Var) → v.Ty
  | .serC => 0
  | .serP => 0
  | .serBusy => false
  | .byte _ => 0
  | .xPos => 0
  | .yPos => 0
  | .cursor => 0
  | .vgaBuff _ => 0

def DriverState.set (s : DriverState) (v : Var) (x : v.Ty) : DriverState :=
  { s with vars := Function.update s.vars v x }

variable {D : Device δ} {α : Type} {ok : Action → DriverState × δ → Prop}
  {Q : α → DriverState × δ → Prop} {s : DriverState} {d : δ} {v w : Var}

@[simp] theorem DriverState.set_self (x : v.Ty) : (s.set v x).vars v = x :=
  Function.update_self v x s.vars

@[simp] theorem DriverState.set_of_ne (x : v.Ty) (h : w ≠ v) : (s.set v x).vars w = s.vars w :=
  Function.update_of_ne h x s.vars

/-- What a run on a device does to the driver's data it may do on any. -/
theorem Device.Exec.driver {o : Action} {s s' : DriverState × δ} {r : o.Res}
    (h : D.Exec o s r s') : o.Exec s.1 r s'.1 := by
  cases o with
  | inb port => exact h.2
  | outb port val => exact h.2
  | pushfq => exact h.1
  | cli => exact h.1
  | sti => exact h.1
  | halt => exact h.1
  | fuel => exact h.1
  | load v => exact h.1
  | store v x => exact h.1

theorem Action.exists_step {readPort : BitVec 16 → δ → Byte × δ}
    {writePort : BitVec 16 → Byte → δ → δ} {o : Action} (ho : o ≠ .halt ∧ o ≠ .fuel)
    (s : DriverState × δ) : ∃ r s', o.step readPort writePort s = some (r, s') := by
  cases o with
  | halt => exact absurd rfl ho.1
  | fuel => exact absurd rfl ho.2
  | _ => exact ⟨_, _, rfl⟩

theorem Action.exec_of_step {readPort : BitVec 16 → δ → Byte × δ}
    {writePort : BitVec 16 → Byte → δ → δ}
    (hin : ∀ port d, D.inb port d (readPort port d).1 (readPort port d).2)
    (hout : ∀ port val d, D.outb port val d (writePort port val d)) (o : Action)
    (s : DriverState × δ) (r : o.Res) (s' : DriverState × δ)
    (h : o.step readPort writePort s = some (r, s')) : D.Exec o s r s' := by
  cases o with
  | inb port =>
    cases h
    exact ⟨hin port s.2, rfl⟩
  | outb port val =>
    cases h
    exact ⟨hout port val s.2, rfl⟩
  | pushfq =>
    cases h
    exact ⟨⟨rfl, rfl⟩, rfl⟩
  | load v =>
    cases h
    exact ⟨⟨rfl, rfl⟩, rfl⟩
  | cli =>
    cases h
    exact ⟨rfl, rfl⟩
  | sti =>
    cases h
    exact ⟨rfl, rfl⟩
  | store v x =>
    cases h
    exact ⟨rfl, rfl⟩
  | halt => cases h
  | fuel => cases h

@[simp] theorem wp_pushfq {k : Word → Driver α} :
    (.op .pushfq k : Driver α).wp ok D.Exec Q (s, d) ↔
      ok .pushfq (s, d) ∧ (k s.rflags).wp ok D.Exec Q (s, d) := by
  refine and_congr_right fun _ => ⟨fun h => h s.rflags (s, d) ⟨⟨rfl, rfl⟩, rfl⟩, ?_⟩
  rintro h r ⟨s', d'⟩ ⟨⟨hr, hs⟩, hd⟩
  obtain ⟨rfl, rfl, rfl⟩ : r = s.rflags ∧ s' = s ∧ d' = d := ⟨hr, hs, hd⟩
  exact h

@[simp] theorem wp_load {k : v.Ty → Driver α} :
    (.op (.load v) k : Driver α).wp ok D.Exec Q (s, d) ↔
      ok (.load v) (s, d) ∧ (k (s.vars v)).wp ok D.Exec Q (s, d) := by
  refine and_congr_right fun _ => ⟨fun h => h (s.vars v) (s, d) ⟨⟨rfl, rfl⟩, rfl⟩, ?_⟩
  rintro h r ⟨s', d'⟩ ⟨⟨hr, hs⟩, hd⟩
  obtain ⟨rfl, rfl, rfl⟩ : r = s.vars v ∧ s' = s ∧ d' = d := ⟨hr, hs, hd⟩
  exact h

@[simp] theorem wp_store {x : v.Ty} {k : Unit → Driver α} :
    (.op (.store v x) k : Driver α).wp ok D.Exec Q (s, d) ↔
      ok (.store v x) (s, d) ∧ (k ()).wp ok D.Exec Q (s.set v x, d) := by
  refine and_congr_right fun _ => ⟨fun h => h () (s.set v x, d) ⟨rfl, rfl⟩, ?_⟩
  rintro h r ⟨s', d'⟩ ⟨hs, hd⟩
  obtain ⟨rfl, rfl⟩ : s' = s.set v x ∧ d' = d := ⟨hs, hd⟩
  exact h

@[simp] theorem wp_inb {port : BitVec 16} {k : Byte → Driver α} :
    (.op (.inb port) k : Driver α).wp ok D.Exec Q (s, d) ↔
      ok (.inb port) (s, d) ∧ ∀ r d', D.inb port d r d' → (k r).wp ok D.Exec Q (s, d') := by
  simp only [wp_op, Device.Exec]
  refine and_congr_right fun _ => ⟨fun h r d' hr => h r (s, d') ⟨hr, rfl⟩, ?_⟩
  rintro h r ⟨s', d'⟩ ⟨hr, hs⟩
  obtain rfl : s' = s := hs
  exact h r d' hr

@[simp] theorem wp_outb {port : BitVec 16} {val : Byte} {k : Unit → Driver α} :
    (.op (.outb port val) k : Driver α).wp ok D.Exec Q (s, d) ↔
      ok (.outb port val) (s, d) ∧ ∀ d', D.outb port val d d' → (k ()).wp ok D.Exec Q (s, d') := by
  simp only [wp_op, Device.Exec]
  refine and_congr_right fun _ => ⟨fun h d' hr => h () (s, d') ⟨hr, rfl⟩, ?_⟩
  rintro h r ⟨s', d'⟩ ⟨hr, hs⟩
  obtain rfl : s' = s := hs
  exact h d' hr

theorem wp_load_bind {f : v.Ty → Driver α} :
    (load v >>= f).wp ok D.Exec Q (s, d) ↔
      ok (.load v) (s, d) ∧ (f (s.vars v)).wp ok D.Exec Q (s, d) := by
  have he : (load v >>= f) = .op (.load v) f := rfl
  rw [he, wp_load]

theorem wp_store_bind {x : v.Ty} {f : Unit → Driver α} :
    (store v x >>= f).wp ok D.Exec Q (s, d) ↔
      ok (.store v x) (s, d) ∧ (f ()).wp ok D.Exec Q (s.set v x, d) := by
  have he : (store v x >>= f) = .op (.store v x) f := rfl
  rw [he, wp_store]

end SkipOS
