import SkipOS.KernelMain

/-! Which interrupts devices can cause after `IRQ_init` and any calls of `IRQ_enable_index` and
`IRQ_disable_index`: the masks of `interrupt.c` on the controllers themselves. -/

namespace SkipOS

open Prog

/-- `IRQ_init`, then calls one after another; between them code that leaves the controllers
alone. -/
inductive PairRun : List LineCall → DriverState × PicPair → Prop
  | init {serBuff : Word} {fuel : Nat} {irqTable irqTable' : IrqTable}
      {t u : DriverState × PicPair}
      (h : (irqInit serBuff fuel irqTable).Runs picPair.Exec t irqTable' u) : PairRun [] u
  | other {calls : List LineCall} {u v : DriverState × PicPair} (h : PairRun calls u)
      (hsame : v.2 = u.2) : PairRun calls v
  | call {calls : List LineCall} {c : LineCall} {u v : DriverState × PicPair}
      (h : PairRun calls u) (hc : c.prog.Runs picPair.Exec u () v) : PairRun (calls ++ [c]) v

/-- All lines off. -/
def allMasked : PicMasks := ⟨0xFF, 0xFF⟩

/-- The controllers as registers of masks. -/
def maskView (u : DriverState × PicPair) : DriverState × PicMasks := (u.1, pairMasks u.2)

def Resting (u : DriverState × PicPair) : Prop := AfterRemap u.2 ∧ u.2.Idle

variable {o : Action} {u v : DriverState × PicPair} {r : o.Res} {calls : List LineCall}
  {c : LineCall} {s : DriverState}

theorem Resting.exec (h : Resting u) (ho : o.InHandler) (he : picPair.Exec o u r v) :
    Resting v := by
  obtain ⟨hrem, hsame⟩ := ho.1.keeps h.1 he
  exact ⟨hrem, by rw [idle_iff, hsame, ← idle_iff]; exact h.2⟩

/-- Without commands the pair behaves like two mask registers. -/
theorem Resting.mask_exec (ho : o.InHandler) (h : Resting u) (he : picPair.Exec o u r v) :
    picDevice.Exec o (maskView u) r (maskView v) := by
  have hkeep (hc : v.2 = u.2) : pairMasks v.2 = pairMasks u.2 := by rw [hc]
  cases o with
  | inb port => exact ⟨⟨hkeep he.1.1, he.1.2⟩, he.2⟩
  | outb port val =>
    refine ⟨?_, he.2⟩
    obtain ⟨h₁, h₂⟩ := ho.1
    by_cases hd₁ : port = pic1DataPort
    · subst hd₁
      have hwrite := he.1 { u.2 with master := u.2.master.writeData val } rfl
      rw [Pic8259.writeData_mask h.1.programmed.master] at hwrite
      simp only [maskView, hwrite]
      rfl
    · by_cases hd₂ : port = pic2DataPort
      · subst hd₂
        have hwrite := he.1 { u.2 with slave := u.2.slave.writeData val } rfl
        rw [Pic8259.writeData_mask h.1.programmed.slave] at hwrite
        simp only [maskView, hwrite]
        rfl
      · have hwrite := he.1 u.2 (by
          rw [writePic, if_neg h₁, if_neg h₂, if_neg hd₁, if_neg hd₂])
        simp only [maskView, picDevice, if_neg hd₁, if_neg hd₂, hwrite]
  | pushfq => exact ⟨he.1, hkeep he.2⟩
  | cli => exact ho.2.elim
  | sti => exact ho.2.elim
  | halt => exact he.1.elim
  | fuel => exact he.1.elim
  | load v => exact ⟨he.1, hkeep he.2⟩
  | store v x => exact ⟨he.1, hkeep he.2⟩

theorem PairRun.lines (h : PairRun calls v) :
    Resting v ∧ ∃ s, LineRun (s, allMasked) calls (maskView v) := by
  induction h with
  | @init _ _ _ _ t u h =>
    obtain ⟨-, rfl⟩ := irqInit_runs_iff.mp h
    have hcascade : maskView (t.1, initialPair) = (t.1, allMasked.setLine cascadeIndex true) := rfl
    exact ⟨⟨afterRemap_initial, ⟨rfl, rfl⟩⟩, t.1, .cascade (enableCascade_runs_iff.mpr hcascade)⟩
  | other h hsame ih =>
    obtain ⟨hrest, s, hline⟩ := ih
    exact ⟨⟨hsame ▸ hrest.1, hsame ▸ hrest.2⟩, s, hline.other (congrArg pairMasks hsame)⟩
  | @call calls c u v h hc ih =>
    obtain ⟨hrest, s, hline⟩ := ih
    have hquiet : c.prog.Only Action.InHandler := by
      rw [c.prog_eq]
      exact quiet_of_onLine line_setIrqLineState
    obtain ⟨hmask, hrest'⟩ := Runs.map_only (I := Resting) (g := maskView)
      (fun _ _ _ _ ho he hs => hs.exec ho he) (fun _ _ _ _ ho hs he => hs.mask_exec ho he) hquiet
      hrest hc
    exact ⟨hrest', s, hline.call hmask⟩

/-- A device that requests is answered, before all devices of lower priority, exactly where the
last call on its line has enabled it. -/
theorem requests_answered {calls : List LineCall} {v : DriverState × PicPair}
    (hrun : PairRun calls v) (requested : Byte → Bool) :
    answered v.2 requested =
      priorityOrder.find? fun vec => requested vec && enabledAfter allMasked calls vec := by
  obtain ⟨hrest, s, hline⟩ := hrun.lines
  have hcascade := hline.cascade_enabled
  have hlines : ∀ vec ∈ priorityOrder, IsLine vec := by decide
  rw [hrest.1.answered hrest.2, firstEnabled]
  refine List.find?_congr fun vec hvec => ?_
  have henabled : (pairMasks v.2).enabled vec = enabledAfter allMasked calls vec :=
    hline.enabled (hlines vec hvec)
  have hopen : (pairMasks v.2).enabled cascadeIndex = true := hcascade
  rw [henabled, hopen, Bool.or_true, Bool.and_true]

/-- The first controller with a mask. -/
def masterMasked (mask : Byte) : DriverState × PicPair :=
  (⟨0x2, zeroVars⟩, { initialPair with master := { initialPair.master with mask := mask } })

theorem masterMasked_call {mask : Byte} {c : LineCall} (hc : IsLine c.index)
    (hport : maskPort c.index = pic1DataPort) : c.prog.Runs picPair.Exec (masterMasked mask) ()
      (masterMasked (maskWith mask (c.index.toNat % 8) c.enable)) := by
  have hread : picPair.Exec (.inb pic1DataPort) (masterMasked mask) mask (masterMasked mask) :=
    ⟨⟨rfl, fun _ => rfl, fun h => absurd h (by decide)⟩, rfl⟩
  have hwrite (mask' : Byte) : picPair.Exec (.outb pic1DataPort mask') (masterMasked mask) ()
      (masterMasked mask') := (exec_outb_pair rfl).mpr rfl
  rw [c.prog_eq, setIrqLineState_eq hc, hport]
  exact .op hread (.op (hwrite _) (.ret () _))

/-- The serial line and the keyboard are enabled, and the serial line is disabled again. -/
theorem requests_answered_serial :
    PairRun [⟨com1IrqNum, true⟩, ⟨kbdIntNum, true⟩, ⟨com1IrqNum, false⟩] (masterMasked 0xF9) ∧
    ∀ requested, answered (masterMasked 0xF9).2 requested = priorityOrder.find? fun vec =>
      requested vec && enabledAfter allMasked
        [⟨com1IrqNum, true⟩, ⟨kbdIntNum, true⟩, ⟨com1IrqNum, false⟩] vec := by
  have hready : (irqInit 0x100000 0 quietTable).Runs picPair.Exec beforeStart
      (fun vec => ⟨0, initHandler 0x100000 0 vec⟩) (masterMasked 0xFB) :=
    irqInit_runs_iff.mpr ⟨rfl, rfl⟩
  have hinit : PairRun [] (masterMasked 0xFB) := .init hready
  have hserial := hinit.call (masterMasked_call (c := ⟨com1IrqNum, true⟩) (by decide) (by decide))
  have hkbd := hserial.call (masterMasked_call (c := ⟨kbdIntNum, true⟩) (by decide) (by decide))
  have hrun := hkbd.call (masterMasked_call (c := ⟨com1IrqNum, false⟩) (by decide) (by decide))
  exact ⟨hrun, requests_answered hrun⟩

end SkipOS
