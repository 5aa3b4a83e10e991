import SkipOS.Pic
import SkipOS.Device

/-! Which interrupt lines are enabled after any calls of `interrupt.c`. -/

namespace SkipOS

open Prog

structure PicMasks where
  pic1 : Byte
  pic2 : Byte
  deriving DecidableEq

/-- Each data port is a mask register; the other ports do not touch them. -/
def picDevice : Device PicMasks where
  inb port m r m' :=
    m' = m ∧ (port = pic1DataPort → r = m.pic1) ∧ (port = pic2DataPort → r = m.pic2)
  outb port val m m' := m' = ⟨if port = pic1DataPort then val else m.pic1,
    if port = pic2DataPort then val else m.pic2⟩
  step _ _ := False

def OnPic (irqIndex : Byte) : Prop := externalIntBase ≤ irqIndex ∧ irqIndex ≤ externalIntMax

instance : DecidablePred OnPic := fun _ => inferInstanceAs (Decidable (_ ∧ _))

def cascadeIndex : Byte := 0x22

def IsLine (irqIndex : Byte) : Prop := OnPic irqIndex ∧ irqIndex ≠ cascadeIndex

instance : DecidablePred IsLine := fun _ => inferInstanceAs (Decidable (_ ∧ _))

/-- The register in which an index has its bit. -/
def PicMasks.mask (m : PicMasks) (irqIndex : Byte) : Byte :=
  if irqIndex.toNat < 0x28 then m.pic1 else m.pic2

def PicMasks.setMask (m : PicMasks) (irqIndex val : Byte) : PicMasks :=
  if irqIndex.toNat < 0x28 then { m with pic1 := val } else { m with pic2 := val }

/-- The bit of an index is clear. -/
def PicMasks.enabled (m : PicMasks) (irqIndex : Byte) : Bool :=
  !(m.mask irqIndex).getLsbD (irqIndex.toNat % 8)

def maskWith (mask : Byte) (line : Nat) (enable : Bool) : Byte :=
  if enable then mask &&& ~~~((1 : Byte) <<< line)
  else mask &&& ~~~((1 : Byte) <<< line) ||| ((1 : Byte) <<< line)

def PicMasks.setLine (m : PicMasks) (irqIndex : Byte) (enable : Bool) : PicMasks :=
  m.setMask irqIndex (maskWith (m.mask irqIndex) (irqIndex.toNat % 8) enable)

structure LineCall where
  index : Byte
  enable : Bool

def LineCall.prog (c : LineCall) : Driver Unit :=
  if c.enable then irqEnableIndex c.index else irqDisableIndex c.index

/-- `enable_cascade`, then calls one after another; between them code that leaves the masks
alone. -/
inductive LineRun (u₀ : DriverState × PicMasks) : List LineCall → DriverState × PicMasks → Prop
  | cascade {u : DriverState × PicMasks} (h : enableCascade.Runs picDevice.Exec u₀ () u) :
      LineRun u₀ [] u
  | other {calls : List LineCall} {u v : DriverState × PicMasks} (h : LineRun u₀ calls u)
      (hmasks : v.2 = u.2) : LineRun u₀ calls v
  | call {calls : List LineCall} {c : LineCall} {u v : DriverState × PicMasks}
      (h : LineRun u₀ calls u) (hc : c.prog.Runs picDevice.Exec u () v) :
      LineRun u₀ (calls ++ [c]) v

/-- The last call on an index decides, and the masks at the start where there is none. -/
def enabledAfter (m : PicMasks) (calls : List LineCall) (irqIndex : Byte) : Bool :=
  (calls.reverse.find? fun c => c.index = irqIndex).elim (m.enabled irqIndex) LineCall.enable

/-- An assertion fails, and neither mask changes before. -/
structure HaltsUnchanged {α : Type} (p : Driver α) (u : DriverState × PicMasks) : Prop where
  halts : ∃ v, p.Performs picDevice.Exec u .halt v
  unchanged : ∀ o v, p.Performs picDevice.Exec u o v → v.2 = u.2
  ends : ∀ a v, ¬ p.Runs picDevice.Exec u a v

variable {α : Type} {m : PicMasks} {mask val irqIndex j : Byte} {enable : Bool} {line k : Nat}
  {s : DriverState} {u u₀ v t : DriverState × PicMasks} {calls : List LineCall} {c : LineCall}

theorem getLsbD_bit (hk : k < 8) : ((1 : Byte) <<< line).getLsbD k = decide (k = line) := by
  have hpow : (1 : Byte) <<< line = BitVec.twoPow 8 line := (BitVec.twoPow_eq 8 line).symm
  rw [hpow, BitVec.getLsbD_twoPow]
  by_cases he : line = k
  · simp [he, hk]
  · simp [he, Ne.symm he]

theorem and_bit_eq_zero (hline : line < 8) :
    (mask &&& ((1 : Byte) <<< line) == 0) = !mask.getLsbD line := by
  have hpow : (1 : Byte) <<< line = BitVec.twoPow 8 line := (BitVec.twoPow_eq 8 line).symm
  have hne : BitVec.twoPow 8 line ≠ 0 := by
    intro h0
    have hbit := BitVec.getLsbD_twoPow (w := 8) line line
    rw [h0] at hbit
    simp [hline] at hbit
  rw [hpow, BitVec.and_twoPow]
  cases mask.getLsbD line with
  | true => simpa using hne
  | false => rfl

theorem getLsbD_maskWith (hk : k < 8) :
    (maskWith mask line enable).getLsbD k = if k = line then !enable else mask.getLsbD k := by
  have hcleared : (mask &&& ~~~((1 : Byte) <<< line)).getLsbD k =
      (mask.getLsbD k && !decide (k = line)) := by
    rw [BitVec.getLsbD_and, BitVec.getLsbD_not, getLsbD_bit hk, decide_eq_true hk, Bool.true_and]
  cases enable with
  | true =>
    rw [maskWith, if_pos rfl, hcleared]
    by_cases he : k = line
    · simp [he]
    · simp [he]
  | false =>
    rw [maskWith, if_neg (by simp), BitVec.getLsbD_or, hcleared, getLsbD_bit hk]
    by_cases he : k = line
    · simp [he]
    · simp [he]

theorem onPic_iff : OnPic irqIndex ↔ 0x20 ≤ irqIndex.toNat ∧ irqIndex.toNat < 0x30 := by
  rw [OnPic, BitVec.le_def, BitVec.le_def]
  exact and_congr_right fun _ => Nat.lt_succ_iff.symm

theorem mask_setMask : (m.setMask irqIndex val).mask j =
    if irqIndex.toNat < 0x28 ↔ j.toNat < 0x28 then val else m.mask j := by
  by_cases hi : irqIndex.toNat < 0x28
  · by_cases hj : j.toNat < 0x28
    · simp [PicMasks.setMask, PicMasks.mask, hi, hj]
    · simp [PicMasks.setMask, PicMasks.mask, hi, hj]
  · by_cases hj : j.toNat < 0x28
    · simp [PicMasks.setMask, PicMasks.mask, hi, hj]
    · simp [PicMasks.setMask, PicMasks.mask, hi, hj]

/-- The line that is set becomes what was asked for, and no other changes. -/
theorem enabled_setLine (hi : OnPic irqIndex) (hj : OnPic j) :
    (m.setLine irqIndex enable).enabled j = if j = irqIndex then enable else m.enabled j := by
  rw [onPic_iff] at hi hj
  have hk := Nat.mod_lt j.toNat (show 0 < 8 by decide)
  rw [PicMasks.enabled, PicMasks.setLine, mask_setMask]
  by_cases he : j = irqIndex
  · subst he
    rw [if_pos Iff.rfl, if_pos rfl, getLsbD_maskWith hk, if_pos rfl, Bool.not_not]
  · have hne : j.toNat ≠ irqIndex.toNat := fun h => he (BitVec.eq_of_toNat_eq h)
    rw [if_neg he]
    by_cases hsame : irqIndex.toNat < 0x28 ↔ j.toNat < 0x28
    · have hmask : m.mask irqIndex = m.mask j := by
        simp only [PicMasks.mask, hsame]
      rw [if_pos hsame, getLsbD_maskWith hk, if_neg (by omega), hmask]
      rfl
    · rw [if_neg hsame]
      rfl

def maskPort (irqIndex : Byte) : BitVec 16 :=
  if irqIndex.toNat < 0x28 then pic1DataPort else pic2DataPort

theorem assertExternal_eq (h : OnPic irqIndex) : assertExternal irqIndex = .ret () :=
  if_pos (decide_eq_true h)

theorem assertExternal_halt (h : ¬ OnPic irqIndex) :
    assertExternal irqIndex = .op .halt Empty.elim := if_neg (mt of_decide_eq_true h)

theorem firstPic_iff (h : OnPic irqIndex) :
    irqIndex - externalIntBase < linesPerPic ↔ irqIndex.toNat < 0x28 := by
  rw [onPic_iff] at h
  have hbase : externalIntBase = 0x20 := rfl
  have hlines : linesPerPic = 8 := rfl
  rw [hbase, hlines]
  bv_omega

theorem getIrqMask_eq (h : OnPic irqIndex) : getIrqMask irqIndex = inb (maskPort irqIndex) := by
  rw [getIrqMask, assertExternal_eq h, ret_bind, maskPort]
  by_cases hlt : irqIndex.toNat < 0x28
  · rw [if_pos ((firstPic_iff h).mpr hlt), if_pos hlt]
  · rw [if_neg (mt (firstPic_iff h).mp hlt), if_neg hlt]

theorem getPicLineIndex_eq (h : IsLine irqIndex) :
    ∃ line : Byte, getPicLineIndex irqIndex = .ret line ∧ line.toNat = irqIndex.toNat % 8 := by
  obtain ⟨hon, hne⟩ := h
  have hrange := onPic_iff.mp hon
  have hbase : externalIntBase = 0x20 := rfl
  have hlines : linesPerPic = 8 := rfl
  have hcascade : cascadeIndex = 0x22 := rfl
  rw [getPicLineIndex, assertExternal_eq hon, ret_bind]
  by_cases hlt : irqIndex.toNat < 0x28
  · have hline : (irqIndex - externalIntBase != 2) = true := by
      rw [bne_iff_ne, hbase]
      rw [hcascade] at hne
      bv_omega
    refine ⟨irqIndex - externalIntBase, ?_, ?_⟩
    · rw [if_pos ((firstPic_iff hon).mpr hlt), driverAssert, if_pos hline]
      rfl
    · rw [hbase]
      bv_omega
  · refine ⟨irqIndex - externalIntBase - linesPerPic, ?_, ?_⟩
    · rw [if_neg (mt (firstPic_iff hon).mp hlt)]
      rfl
    · rw [hbase, hlines]
      bv_omega

/-- The assertion on the number that is not set yet always holds. -/
theorem unsetLine_assert : Prog.when (irqIndex - externalIntBase < linesPerPic)
    (driverAssert ((0 : Byte) != 2)) = .ret () := by
  rw [Prog.when]
  split <;> rfl

theorem setIrqLineState_eq (h : IsLine irqIndex) : setIrqLineState irqIndex enable =
    .op (.inb (maskPort irqIndex)) fun mask =>
      .op (.outb (maskPort irqIndex) (maskWith mask (irqIndex.toNat % 8) enable)) .ret := by
  obtain ⟨line, hline, hmod⟩ := getPicLineIndex_eq h
  rw [setIrqLineState, unsetLine_assert, assertExternal_eq h.1, getIrqMask_eq h.1, hline]
  by_cases hlt : irqIndex.toNat < 0x28
  · have hport : maskPort irqIndex = pic1DataPort := if_pos hlt
    rw [hport]
    simp only [ret_bind, if_pos ((firstPic_iff h.1).mpr hlt), hmod]
    rfl
  · have hport : maskPort irqIndex = pic2DataPort := if_neg hlt
    rw [hport]
    simp only [ret_bind, if_neg (mt (firstPic_iff h.1).mp hlt), hmod]
    rfl

theorem irqIsEnabled_eq (h : IsLine irqIndex) : irqIsEnabled irqIndex =
    .op (.inb (maskPort irqIndex)) fun mask =>
      .ret (mask &&& ((1 : Byte) <<< (irqIndex.toNat % 8)) == 0) := by
  obtain ⟨line, hline, hmod⟩ := getPicLineIndex_eq h
  rw [irqIsEnabled, getIrqMask_eq h.1, hline, hmod.symm]
  rfl

theorem exec_inb_mask {r : Byte} : picDevice.Exec (.inb (maskPort irqIndex)) (s, m) r v ↔
    r = m.mask irqIndex ∧ v = (s, m) := by
  have hne : pic1DataPort ≠ pic2DataPort := by decide
  have hexec (port : BitVec 16) : picDevice.Exec (.inb port) (s, m) r v ↔
      (v.2 = m ∧ (port = pic1DataPort → r = m.pic1) ∧ (port = pic2DataPort → r = m.pic2)) ∧
        v.1 = s := Iff.rfl
  rw [hexec, Prod.ext_iff]
  by_cases hlt : irqIndex.toNat < 0x28
  · simp [maskPort, PicMasks.mask, hlt, hne]
    tauto
  · simp [maskPort, PicMasks.mask, hlt, hne.symm]
    tauto

theorem exec_outb_mask {r : Unit} :
    picDevice.Exec (.outb (maskPort irqIndex) val) (s, m) r v ↔
      v = (s, m.setMask irqIndex val) := by
  have hne : pic1DataPort ≠ pic2DataPort := by decide
  have hexec (port : BitVec 16) : picDevice.Exec (.outb port val) (s, m) r v ↔
      v.2 = ⟨if port = pic1DataPort then val else m.pic1,
        if port = pic2DataPort then val else m.pic2⟩ ∧ v.1 = s := Iff.rfl
  rw [hexec, Prod.ext_iff, and_comm]
  by_cases hlt : irqIndex.toNat < 0x28
  · simp [maskPort, PicMasks.setMask, hlt, hne]
  · simp [maskPort, PicMasks.setMask, hlt, hne.symm]

theorem setLine_runs_iff :
    (.op (.inb (maskPort irqIndex)) fun mask => .op (.outb (maskPort irqIndex)
      (maskWith mask (irqIndex.toNat % 8) enable)) .ret : Driver Unit).Runs
        picDevice.Exec (s, m) () v ↔ v = (s, m.setLine irqIndex enable) := by
  rw [runs_op_iff]
  constructor
  · rintro ⟨r, u, hin, hout⟩
    obtain ⟨rfl, rfl⟩ := exec_inb_mask.mp hin
    obtain ⟨r, u, hout, hret⟩ := runs_op_iff.mp hout
    rw [(runs_ret_iff.mp hret).2]
    exact exec_outb_mask.mp hout
  · rintro rfl
    exact ⟨_, _, exec_inb_mask.mpr ⟨rfl, rfl⟩, .op (exec_outb_mask.mpr rfl) (.ret () _)⟩

/-- `IRQ_enable_index` and `IRQ_disable_index` set one line. -/
theorem setIrqLineState_runs_iff (h : IsLine irqIndex) :
    (setIrqLineState irqIndex enable).Runs picDevice.Exec (s, m) () v ↔
      v = (s, m.setLine irqIndex enable) := by
  rw [setIrqLineState_eq h, setLine_runs_iff]

theorem irqIsEnabled_runs_iff (h : IsLine irqIndex) {answer : Bool} :
    (irqIsEnabled irqIndex).Runs picDevice.Exec (s, m) answer v ↔
      answer = m.enabled irqIndex ∧ v = (s, m) := by
  have hbit : (m.mask irqIndex &&& ((1 : Byte) <<< (irqIndex.toNat % 8)) == 0) =
      m.enabled irqIndex := and_bit_eq_zero (Nat.mod_lt _ (by decide))
  rw [irqIsEnabled_eq h, runs_op_iff, ← hbit]
  constructor
  · rintro ⟨r, u, hin, hret⟩
    obtain ⟨rfl, rfl⟩ := exec_inb_mask.mp hin
    exact runs_ret_iff.mp hret
  · rintro ⟨rfl, rfl⟩
    exact ⟨_, _, exec_inb_mask.mpr ⟨rfl, rfl⟩, .ret _ _⟩

/-- `enable_cascade` sets the line that no call may set. -/
theorem enableCascade_runs_iff : enableCascade.Runs picDevice.Exec (s, m) () v ↔
    v = (s, m.setLine cascadeIndex true) := by
  have he : enableCascade = .op (.inb (maskPort cascadeIndex)) fun mask =>
    .op (.outb (maskPort cascadeIndex) (maskWith mask (cascadeIndex.toNat % 8) true)) .ret := rfl
  rw [he, setLine_runs_iff]

theorem haltsUnchanged_halt {k : Empty → Driver α} : HaltsUnchanged (.op .halt k) u := by
  refine ⟨⟨u, .here⟩, ?_, ?_⟩
  · intro o v h
    cases h with
    | here => rfl
    | later he _ => exact he.1.elim
  · intro a v h
    obtain ⟨r, -⟩ := runs_op_iff.mp h
    exact r.elim

theorem haltsUnchanged_inb {port : BitVec 16} {k : Byte → Driver α}
    (h : ∀ r, HaltsUnchanged (k r) u) : HaltsUnchanged (.op (.inb port) k) u := by
  obtain ⟨s, m⟩ := u
  have hkeeps (r : Byte) (v : DriverState × PicMasks) (he : picDevice.Exec (.inb port) (s, m) r v) :
      v = (s, m) := Prod.ext he.2 he.1.1
  have hcan : picDevice.Exec (.inb port) (s, m) (if port = pic1DataPort then m.pic1 else m.pic2)
      (s, m) := by
    refine ⟨⟨rfl, fun hp => if_pos hp, fun hp => if_neg ?_⟩, rfl⟩
    rw [hp]
    decide
  refine ⟨?_, ?_, ?_⟩
  · obtain ⟨v, hv⟩ := (h _).halts
    exact ⟨v, .later hcan hv⟩
  · intro o v hv
    cases hv with
    | here => rfl
    | later he hk =>
      obtain rfl := hkeeps _ _ he
      exact (h _).unchanged o v hk
  · intro a v hv
    obtain ⟨r, u, he, hk⟩ := runs_op_iff.mp hv
    obtain rfl := hkeeps _ _ he
    exact (h r).ends a v hk

theorem setIrqLineState_halts (h : ¬ IsLine irqIndex) :
    HaltsUnchanged (setIrqLineState irqIndex enable) u := by
  by_cases hon : OnPic irqIndex
  · obtain rfl : irqIndex = cascadeIndex := not_not.mp fun hne => h ⟨hon, hne⟩
    rw [setIrqLineState, unsetLine_assert, assertExternal_eq hon, getIrqMask_eq hon]
    exact haltsUnchanged_inb fun r => haltsUnchanged_halt
  · rw [setIrqLineState, assertExternal_halt hon]
    exact haltsUnchanged_halt

theorem irqIsEnabled_halts (h : ¬ IsLine irqIndex) : HaltsUnchanged (irqIsEnabled irqIndex) u := by
  by_cases hon : OnPic irqIndex
  · obtain rfl : irqIndex = cascadeIndex := not_not.mp fun hne => h ⟨hon, hne⟩
    rw [irqIsEnabled, getIrqMask_eq hon]
    exact haltsUnchanged_inb fun r => haltsUnchanged_halt
  · rw [irqIsEnabled, getIrqMask, assertExternal_halt hon]
    exact haltsUnchanged_halt

theorem LineCall.prog_eq (c : LineCall) : c.prog = setIrqLineState c.index c.enable := by
  obtain ⟨index, enable⟩ := c
  cases enable with
  | true => rfl
  | false => rfl

theorem LineCall.isLine (h : c.prog.Runs picDevice.Exec u () v) : IsLine c.index := by
  by_contra hnot
  rw [c.prog_eq] at h
  exact (setIrqLineState_halts hnot).ends () v h

theorem LineCall.runs_iff (h : IsLine c.index) : c.prog.Runs picDevice.Exec u () v ↔
    v = (u.1, u.2.setLine c.index c.enable) := by
  rw [c.prog_eq]
  exact setIrqLineState_runs_iff h

theorem enabledAfter_append : enabledAfter m (calls ++ [c]) j =
    if j = c.index then c.enable else enabledAfter m calls j := by
  rw [enabledAfter, List.reverse_append, List.reverse_singleton, List.singleton_append,
    List.find?_cons]
  by_cases he : c.index = j
  · rw [decide_eq_true he, if_pos he.symm]
    rfl
  · rw [decide_eq_false he, if_neg (Ne.symm he)]
    rfl

theorem LineRun.enabled (h : LineRun u₀ calls t) (hj : IsLine j) :
    t.2.enabled j = enabledAfter u₀.2 calls j := by
  have hcascade : OnPic cascadeIndex := by decide
  induction h with
  | cascade h =>
    rw [enableCascade_runs_iff.mp h, enabled_setLine hcascade hj.1, if_neg hj.2]
    rfl
  | other _ hmasks ih => rw [hmasks, ih]
  | @call calls c u v _ hc ih =>
    have hline := LineCall.isLine hc
    rw [(LineCall.runs_iff hline).mp hc, enabled_setLine hline.1 hj.1, ih, enabledAfter_append]

theorem LineRun.cascade_enabled (h : LineRun u₀ calls t) : t.2.enabled cascadeIndex = true := by
  have hcascade : OnPic cascadeIndex := by decide
  induction h with
  | cascade h => rw [enableCascade_runs_iff.mp h, enabled_setLine hcascade hcascade, if_pos rfl]
  | other _ hmasks ih => rw [hmasks, ih]
  | call _ hc ih =>
    have hline := LineCall.isLine hc
    rw [(LineCall.runs_iff hline).mp hc, enabled_setLine hline.1 hcascade,
      if_neg (Ne.symm hline.2), ih]

/-- Each line is as its last call left it, calls touch no other line, the cascade stays open and
no call is made on anything else. -/
structure LinesKept (u₀ : DriverState × PicMasks) (calls : List LineCall)
    (t : DriverState × PicMasks) : Prop where
  answer : ∀ j, IsLine j → ∀ a v, (irqIsEnabled j).Runs picDevice.Exec t a v ↔
    a = enabledAfter u₀.2 calls j ∧ v = t
  frame : ∀ (c : LineCall) v, c.prog.Runs picDevice.Exec t () v → ∀ j, IsLine j → j ≠ c.index →
    ∀ a, (irqIsEnabled j).Runs picDevice.Exec v a v ↔ (irqIsEnabled j).Runs picDevice.Exec t a t
  cascade : t.2.pic1.getLsbD pic1CascadeLine = false
  callable : ∀ c : LineCall, IsLine c.index → ∃ v, c.prog.Runs picDevice.Exec t () v
  halts : ∀ c : LineCall, ¬ IsLine c.index → HaltsUnchanged c.prog t
  asked : ∀ j, ¬ IsLine j → HaltsUnchanged (irqIsEnabled j) t

theorem lines_kept {u₀ t : DriverState × PicMasks} {calls : List LineCall}
    (hrun : LineRun u₀ calls t) : LinesKept u₀ calls t := by
  have hanswer (calls : List LineCall) (t : DriverState × PicMasks) (hrun : LineRun u₀ calls t)
      (j : Byte) (hj : IsLine j) (a : Bool) (v : DriverState × PicMasks) :
      (irqIsEnabled j).Runs picDevice.Exec t a v ↔ a = enabledAfter u₀.2 calls j ∧ v = t := by
    rw [← hrun.enabled hj]
    exact irqIsEnabled_runs_iff hj
  refine ⟨hanswer calls t hrun, ?_, ?_, ?_, ?_, fun j => irqIsEnabled_halts⟩
  · intro c v hc j hj hne a
    rw [hanswer _ v (hrun.call hc) j hj, hanswer _ t hrun j hj, enabledAfter_append, if_neg hne,
      and_iff_left rfl, and_iff_left rfl]
  · exact (Bool.not_eq_true' _).mp hrun.cascade_enabled
  · exact fun c hc => ⟨_, (LineCall.runs_iff hc).mpr rfl⟩
  · intro c hc
    rw [c.prog_eq]
    exact setIrqLineState_halts hc

/-- All lines masked, as `PIC_disable_all_pic_irqs` leaves them. -/
def masked : DriverState × PicMasks := (⟨0, zeroVars⟩, ⟨0xFF, 0xFF⟩)

/-- The keyboard is enabled, then the clock of the second controller, and the keyboard disabled. -/
theorem lines_kept_keyboard : LinesKept masked [⟨0x21, true⟩, ⟨0x28, true⟩, ⟨0x21, false⟩]
    (⟨0, zeroVars⟩, ⟨0xFB, 0xFE⟩) := by
  have hcascade : LineRun masked [] (⟨0, zeroVars⟩, ⟨0xFB, 0xFF⟩) :=
    .cascade (enableCascade_runs_iff.mpr rfl)
  have hfirst : IsLine 0x21 := by decide
  have hsecond : IsLine 0x28 := by decide
  have hon := hcascade.call (c := ⟨0x21, true⟩) ((LineCall.runs_iff hfirst).mpr rfl)
  have hboth := hon.call (c := ⟨0x28, true⟩) ((LineCall.runs_iff hsecond).mpr rfl)
  exact lines_kept (hboth.call (c := ⟨0x21, false⟩) ((LineCall.runs_iff hfirst).mpr rfl))

end SkipOS
