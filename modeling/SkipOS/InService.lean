import SkipOS.IrqInit
import SkipOS.Critical
import Mathlib.Data.List.Find

/-! Interrupts of devices and their ends: what the two controllers hold in service while handlers
run. -/

namespace SkipOS

open Prog Preemption

/-- No command goes to a controller. -/
def Action.Uncommanding : Action → Prop
  | .outb port _ => port ≠ pic1CmdPort ∧ port ≠ pic2CmdPort
  | _ => True

/-- What handlers do: besides, the interrupt flag is left alone. -/
def Action.InHandler (o : Action) : Prop := o.Uncommanding ∧ o.Calm

def IrqTable.Quiet (irqTable : IrqTable) : Prop := ∀ vec error,
  ((irqTable vec).handler vec error (irqTable vec).arg).Only Action.InHandler

/-- Every interrupt enters `isr_helper` through an interrupt gate. Exceptions come at any time and
what the controllers have to offer while the flag is set. The table of handlers may change. -/
def interruptsWith (tables : IrqTable → Prop) :
    Preemption Action Action.Res (DriverState × PicPair) Word where
  exec := picPair.Exec
  take u handler saved u' := ∃ (irqTable : IrqTable) (vec : Byte) (error : BitVec 32),
    tables irqTable ∧ handler = isrHelper irqTable vec error ∧ saved = u.1.rflags ∧
    u'.1 = { u.1 with rflags := u.1.rflags &&& ~~~rflagsIf } ∧
    (¬ IsExternal vec ∧ u'.2 = u.2 ∨ u.1.interruptFlag = true ∧ u.2.Accepts vec u'.2)
  resume saved u := ({ u.1 with rflags := saved }, u.2)

abbrev kernelInterrupts : Preemption Action Action.Res (DriverState × PicPair) Word :=
  interruptsWith IrqTable.Quiet

def pairMasks (c : PicPair) : PicMasks := ⟨c.master.mask, c.slave.mask⟩

def pairService (c : PicPair) : Byte × Byte := (c.master.inService, c.slave.inService)

/-- `PIC_remap` and only masks and ends of interrupt since. -/
structure AfterRemap (c : PicPair) : Prop where
  programmed : c.Programmed
  master : c.master.icw2 = externalIntBase
  slave : c.slave.icw2 = externalIntBase + 8

def ended (bits : Byte) : Byte := bits &&& (bits - 1)

/-- The program leaves `fin` in service where `now` is. -/
inductive Turns (fin : Byte × Byte) : Byte × Byte → Driver Unit → Prop
  | ret : Turns fin fin (.ret ())
  | op {now : Byte × Byte} {o : Action} {k : o.Res → Driver Unit} (ho : o.InHandler)
      (h : ∀ r, Turns fin now (k r)) : Turns fin now (.op o k)
  | eoi1 {now : Byte × Byte} {k : Unit → Driver Unit} (h : Turns fin (ended now.1, now.2) (k ())) :
      Turns fin now (.op (.outb pic1CmdPort eoiCmd) k)
  | eoi2 {now : Byte × Byte} {k : Unit → Driver Unit} (h : Turns fin (now.1, ended now.2) (k ())) :
      Turns fin now (.op (.outb pic2CmdPort eoiCmd) k)

/-- Outside of handlers nothing is in service. A handler has the flag clear until it returns, and
`fin` is in service then. -/
def FrameAt : Option (Byte × Byte) → DriverState × PicPair → Driver Unit → Prop
  | none, u, p => AfterRemap u.2 ∧ u.2.Idle ∧ p.Only Action.Uncommanding
  | some fin, u, p => AfterRemap u.2 ∧ u.1.interruptFlag = false ∧ Turns fin (pairService u.2) p

/-- The vectors of the lines, by the priority the lines have. -/
def priorityOrder : List Byte :=
  [0x20, 0x21, 0x28, 0x29, 0x2A, 0x2B, 0x2C, 0x2D, 0x2E, 0x2F, 0x23, 0x24, 0x25, 0x26, 0x27]

/-- The first line that is requested and that `IRQ_enable_index` has enabled. -/
def firstEnabled (m : PicMasks) (requested : Byte → Bool) : Option Byte :=
  priorityOrder.find? fun vec =>
    requested vec && m.enabled vec && (decide (vec < 0x28) || m.enabled cascadeIndex)

/-- The vector that the processor gets while devices request these lines. -/
def answered (c : PicPair) (requested : Byte → Bool) : Option Byte :=
  (c.acknowledge (fun k => requested (externalIntBase + BitVec.ofNat 8 k))
    (fun j => requested (externalIntBase + 8 + BitVec.ofNat 8 j))).map Prod.fst

def lineVector : PicLine → Byte
  | .first k => externalIntBase + BitVec.ofNat 8 k
  | .second j => externalIntBase + 8 + BitVec.ofNat 8 j

variable {o : Action} {u u' v : DriverState × PicPair} {c c' : PicPair} {r : o.Res}
  {p q : Driver Unit} {fin now : Byte × Byte} {vec : Byte} {irqTable : IrqTable}
  {error : BitVec 32} {saved : Word}

theorem idle_iff : c.Idle ↔ pairService c = (0, 0) := by
  rw [pairService, Prod.mk.injEq]
  exact ⟨fun h => ⟨h.master, h.slave⟩, fun h => ⟨h.1, h.2⟩⟩

theorem closing_iff : c.Closing ↔ (ended c.master.inService, ended c.slave.inService) =
    (0, 0) := by
  rw [Prod.mk.injEq]
  exact ⟨fun h => ⟨h.master, h.slave⟩, fun h => ⟨h.1, h.2⟩⟩

theorem AfterRemap.of_setting (h : AfterRemap c) (hset : c.SameSetting c') : AfterRemap c' := by
  obtain ⟨⟨hma, hsa, hcas, hnum, hme, hse⟩, hm, hs⟩ := h
  obtain ⟨hmaster, hslave⟩ := hset
  rw [← hmaster] at hma hcas hme hm
  rw [← hslave] at hsa hnum hse hs
  exact ⟨⟨hma, hsa, hcas, hnum, hme, hse⟩, hm, hs⟩

/-- A write to a port that is not a command port changes a mask at most. -/
theorem writePic_data {port : BitVec 16} (h : AfterRemap c) (h₁ : port ≠ pic1CmdPort)
    (h₂ : port ≠ pic2CmdPort) (val : Byte) :
    ∃ m n, writePic port val c =
      some ⟨{ c.master with mask := m }, { c.slave with mask := n }⟩ := by
  rw [writePic, if_neg h₁, if_neg h₂]
  by_cases hd₁ : port = pic1DataPort
  · exact ⟨val, c.slave.mask, by rw [if_pos hd₁, Pic8259.writeData_mask h.programmed.master]⟩
  · by_cases hd₂ : port = pic2DataPort
    · exact ⟨c.master.mask, val, by
        rw [if_neg hd₁, if_pos hd₂, Pic8259.writeData_mask h.programmed.slave]⟩
    · exact ⟨c.master.mask, c.slave.mask, by rw [if_neg hd₁, if_neg hd₂]⟩

theorem Action.Uncommanding.keeps (ho : o.Uncommanding) (h : AfterRemap u.2)
    (he : picPair.Exec o u r u') : AfterRemap u'.2 ∧ pairService u'.2 = pairService u.2 := by
  have hsame (hc : u'.2 = u.2) : AfterRemap u'.2 ∧ pairService u'.2 = pairService u.2 :=
    ⟨hc.symm ▸ h, by rw [hc]⟩
  cases o with
  | inb port => exact hsame he.1.1
  | outb port val =>
    obtain ⟨m, n, hwrite⟩ := writePic_data h ho.1 ho.2 val
    have hc := he.1 _ hwrite
    obtain ⟨⟨hma, hsa, hcas, hnum, hme, hse⟩, hm, hs⟩ := h
    rw [hc]
    exact ⟨⟨⟨hma, hsa, hcas, hnum, hme, hse⟩, hm, hs⟩, rfl⟩
  | pushfq => exact hsame he.2
  | cli => exact hsame he.2
  | sti => exact hsame he.2
  | halt => exact he.1.elim
  | fuel => exact he.1.elim
  | load v => exact hsame he.2
  | store v x => exact hsame he.2

theorem Action.Calm.keeps (ho : o.Calm) (he : picPair.Exec o u r u') :
    u'.1.interruptFlag = u.1.interruptFlag := by
  have hcalm : CalmAt u.1.interruptFlag u.1 (.op o fun _ => .ret ()) := ⟨rfl, ho, fun _ => trivial⟩
  exact (hcalm.exec he.driver).1

theorem eoi1_exec (h : AfterRemap u.2)
    (he : picPair.Exec (.outb pic1CmdPort eoiCmd) u () u') :
    AfterRemap u'.2 ∧ pairService u'.2 = (ended (pairService u.2).1, (pairService u.2).2) ∧
      u'.1 = u.1 := by
  obtain ⟨hc, hs⟩ := he
  rw [hc _ rfl]
  obtain ⟨⟨hma, hsa, hcas, hnum, hme, hse⟩, hm, hsl⟩ := h
  exact ⟨⟨⟨hma, hsa, hcas, hnum, hme, hse⟩, hm, hsl⟩, rfl, hs⟩

theorem eoi2_exec (h : AfterRemap u.2)
    (he : picPair.Exec (.outb pic2CmdPort eoiCmd) u () u') :
    AfterRemap u'.2 ∧ pairService u'.2 = ((pairService u.2).1, ended (pairService u.2).2) ∧
      u'.1 = u.1 := by
  obtain ⟨hc, hs⟩ := he
  rw [hc _ rfl]
  obtain ⟨⟨hma, hsa, hcas, hnum, hme, hse⟩, hm, hsl⟩ := h
  exact ⟨⟨⟨hma, hsa, hcas, hnum, hme, hse⟩, hm, hsl⟩, rfl, hs⟩

theorem Turns.after (hq : q.Only Action.InHandler) (h : Turns fin now p) :
    Turns fin now (q >>= fun _ => p) := by
  induction q with
  | ret => exact h
  | op o k ih => exact .op hq.1 fun r => ih r (hq.2 r)

theorem irqEndOfInterrupt_of_not (h : ¬ IsExternal vec) : irqEndOfInterrupt vec = .ret () := by
  have hout : vec < externalIntBase ∨ vec > externalIntMax := by
    by_contra hin
    rw [not_or] at hin
    exact h ⟨BitVec.not_lt.mp hin.1, BitVec.not_lt.mp hin.2⟩
  rw [irqEndOfInterrupt, if_pos hout]
  rfl

theorem irqEndOfInterrupt_of_external (h : IsExternal vec) : irqEndOfInterrupt vec =
    .op (.outb pic2CmdPort eoiCmd) fun _ => .op (.outb pic1CmdPort eoiCmd) .ret := by
  have hin : ¬ (vec < externalIntBase ∨ vec > externalIntMax) :=
    not_or.mpr ⟨BitVec.not_lt.mpr h.1, BitVec.not_lt.mpr h.2⟩
  have hline : vec ≥ linesPerPic :=
    BitVec.le_trans (show linesPerPic ≤ externalIntBase by decide) h.1
  rw [irqEndOfInterrupt, if_neg hin, Prog.when, if_pos hline]
  rfl

theorem turns_exception (ht : irqTable.Quiet) (h : ¬ IsExternal vec) :
    Turns now now (isrHelper irqTable vec error) := by
  refine Turns.after (ht vec error) ?_
  rw [irqEndOfInterrupt_of_not h]
  exact .ret

/-- Both controllers are told, which is right for either: only one interrupt is in service. -/
theorem turns_external (ht : irqTable.Quiet) (h : IsExternal vec) :
    Turns (ended now.1, ended now.2) now (isrHelper irqTable vec error) := by
  refine Turns.after (ht vec error) ?_
  rw [irqEndOfInterrupt_of_external h]
  exact .eoi2 (.eoi1 .ret)

theorem AfterRemap.external (h : AfterRemap c) (ha : c.Accepts vec c') : IsExternal vec := by
  have hall : ∀ k < 8, IsExternal ((externalIntBase &&& 0xF8) ||| BitVec.ofNat 8 k) ∧
      IsExternal ((externalIntBase + 8 &&& 0xF8) ||| BitVec.ofNat 8 k) := by decide
  obtain ⟨-, -, k, hk, hvec⟩ := ha.takes
  rcases hvec with rfl | rfl
  · rw [Pic8259.vector, h.master]
    exact (hall k hk).1
  · rw [Pic8259.vector, h.slave]
    exact (hall k hk).2

theorem frameAt_frameInv : FrameInv kernelInterrupts FrameAt where
  exec {i o k u r u'} h he := by
    cases i with
    | none =>
      obtain ⟨hrem, hidle, hout, hrest⟩ := h
      obtain ⟨hrem', hsame⟩ := hout.keeps hrem he
      refine ⟨hrem', ?_, hrest r⟩
      rw [idle_iff, hsame, ← idle_iff]
      exact hidle
    | some fin =>
      obtain ⟨hrem, hflag, hturns⟩ := h
      cases hturns with
      | op ho hk =>
        obtain ⟨hrem', hsame⟩ := ho.1.keeps hrem he
        exact ⟨hrem', (ho.2.keeps he).trans hflag, hsame.symm ▸ hk r⟩
      | eoi1 hk =>
        obtain ⟨hrem', hsame, hs⟩ := eoi1_exec hrem he
        exact ⟨hrem', hs.symm ▸ hflag, hsame.symm ▸ hk⟩
      | eoi2 hk =>
        obtain ⟨hrem', hsame, hs⟩ := eoi2_exec hrem he
        exact ⟨hrem', hs.symm ▸ hflag, hsame.symm ▸ hk⟩
  take {i o k u handler saved u'} h htake := by
    obtain ⟨irqTable, vec, error, hquiet, rfl, rfl, hs, hwhy⟩ := htake
    have hclear : u'.1.interruptFlag = false := hs.symm ▸ interruptFlag_cleared u.1
    have hback {t : DriverState × PicPair} {fin : Byte × Byte}
        (ht : FrameAt (some fin) t (.ret ())) : AfterRemap t.2 ∧ pairService t.2 = fin := by
      obtain ⟨hrem, -, hturns⟩ := ht
      cases hturns with
      | ret => exact ⟨hrem, rfl⟩
    cases i with
    | none =>
      obtain ⟨hrem, hidle, hprog⟩ := h
      have hnone := idle_iff.mp hidle
      refine ⟨some (0, 0), ?_, fun t ht => ⟨(hback ht).1, idle_iff.mpr (hback ht).2, hprog⟩⟩
      rcases hwhy with ⟨hint, hc⟩ | ⟨-, hacc⟩
      · rw [← hc] at hrem hnone
        exact ⟨hrem, hclear, hnone.symm ▸ turns_exception hquiet hint⟩
      · obtain ⟨hclosing, hset⟩ := hacc.closing hrem.programmed hidle
        refine ⟨hrem.of_setting hset, hclear, ?_⟩
        have hturns : Turns (ended (pairService u'.2).1, ended (pairService u'.2).2)
            (pairService u'.2) (isrHelper irqTable vec error) :=
          turns_external hquiet (hrem.external hacc)
        rwa [pairService, closing_iff.mp hclosing] at hturns
    | some fin =>
      obtain ⟨hrem, hflag, hturns⟩ := h
      rcases hwhy with ⟨hint, hc⟩ | ⟨hset, -⟩
      · refine ⟨some (pairService u'.2), ⟨hc.symm ▸ hrem, hclear, turns_exception hquiet hint⟩, ?_⟩
        intro t ht
        refine ⟨(hback ht).1, hflag, ?_⟩
        have hsame : pairService t.2 = pairService u.2 := (hback ht).2.trans (by rw [hc])
        exact hsame.symm ▸ hturns
      · rw [hflag] at hset
        exact absurd hset Bool.false_ne_true

theorem afterRemap_initial : AfterRemap initialPair :=
  ⟨⟨rfl, rfl, rfl, rfl, rfl, rfl⟩, rfl, rfl⟩

theorem byPriority_map : PicPair.byPriority.map lineVector = priorityOrder := by decide

theorem mem_byPriority {l : PicLine} (h : l ∈ PicPair.byPriority) :
    (∃ k < 8, l = .first k) ∨ ∃ j < 8, l = .second j := by
  obtain ⟨k, hk, hl⟩ := List.mem_flatMap.mp h
  by_cases he : k = PicPair.slaveLine
  · rw [if_pos he] at hl
    obtain ⟨j, hj, rfl⟩ := List.mem_map.mp hl
    exact Or.inr ⟨j, List.mem_range.mp hj, rfl⟩
  · rw [if_neg he, List.mem_singleton] at hl
    exact Or.inl ⟨k, List.mem_range.mp hk, hl⟩

theorem AfterRemap.vectorOf (h : AfterRemap c) {l : PicLine} (hl : l ∈ PicPair.byPriority) :
    c.vectorOf l = lineVector l := by
  have hall : ∀ k < 8, ((externalIntBase &&& 0xF8) ||| BitVec.ofNat 8 k) =
        externalIntBase + BitVec.ofNat 8 k ∧
      ((externalIntBase + 8 &&& 0xF8) ||| BitVec.ofNat 8 k) =
        externalIntBase + 8 + BitVec.ofNat 8 k := by decide
  rcases mem_byPriority hl with ⟨k, hk, rfl⟩ | ⟨j, hj, rfl⟩
  · rw [PicPair.vectorOf, Pic8259.vector, h.master]
    exact (hall k hk).1
  · rw [PicPair.vectorOf, Pic8259.vector, h.slave]
    exact (hall j hj).2

theorem lineVector_toNat : ∀ k < 8, (lineVector (.first k)).toNat = 0x20 + k ∧
    (lineVector (.second k)).toNat = 0x28 + k := by decide

/-- `IRQ_is_enabled` of the vector of a line tells whether the line is masked. -/
theorem enabled_first {k : Nat} (hk : k < 8) :
    (pairMasks c).enabled (lineVector (.first k)) = !c.master.mask.getLsbD k := by
  have hmod : (0x20 + k) % 8 = k := by omega
  rw [PicMasks.enabled, PicMasks.mask, (lineVector_toNat k hk).1, if_pos (by omega), hmod]
  rfl

theorem enabled_second {j : Nat} (hj : j < 8) :
    (pairMasks c).enabled (lineVector (.second j)) = !c.slave.mask.getLsbD j := by
  have hmod : (0x28 + j) % 8 = j := by omega
  rw [PicMasks.enabled, PicMasks.mask, (lineVector_toNat j hj).2, if_neg (by omega), hmod]
  rfl

theorem AfterRemap.answered (h : AfterRemap c) (hidle : c.Idle) (requested : Byte → Bool) :
    SkipOS.answered c requested = firstEnabled (pairMasks c) requested := by
  have hcascade : (pairMasks c).enabled cascadeIndex = !c.master.mask.getLsbD PicPair.slaveLine :=
    enabled_first (k := PicPair.slaveLine) (by decide)
  have hpass (l : PicLine) (hl : l ∈ PicPair.byPriority) :
      c.passing (fun k => requested (externalIntBase + BitVec.ofNat 8 k))
        (fun j => requested (externalIntBase + 8 + BitVec.ofNat 8 j)) l =
      (requested (lineVector l) && (pairMasks c).enabled (lineVector l) &&
        (decide (lineVector l < 0x28) || (pairMasks c).enabled cascadeIndex)) := by
    rcases mem_byPriority hl with ⟨k, hk, rfl⟩ | ⟨j, hj, rfl⟩
    · have hlt : lineVector (.first k) < 0x28 := by
        rw [BitVec.lt_def, (lineVector_toNat k hk).1]
        exact Nat.add_lt_add_left hk 0x20
      rw [enabled_first hk, decide_eq_true hlt, Bool.true_or, Bool.and_true]
      rfl
    · have hge : ¬ lineVector (.second j) < 0x28 := by
        rw [BitVec.lt_def, (lineVector_toNat j hj).2]
        exact Nat.not_lt.mpr (Nat.le_add_right 0x28 j)
      rw [enabled_second hj, decide_eq_false hge, Bool.false_or, hcascade]
      rfl
  rw [SkipOS.answered, PicPair.acknowledge_idle h.programmed hidle, firstEnabled,
    ← byPriority_map, List.find?_map, List.find?_congr hpass]
  exact Option.map_congr fun l hl => h.vectorOf (List.mem_of_find?_eq_some hl)

/-- A handler has the flag clear, so that where it is set none is running. -/
theorem idle_of_flag {serBuff : Word} {fuel : Nat} {irqTable irqTable' : IrqTable}
    {t u : DriverState × PicPair} {main : Driver Unit}
    {x : Config Action Action.Res (DriverState × PicPair) Word}
    (hinit : (irqInit serBuff fuel irqTable).Runs picPair.Exec t irqTable' u)
    (hmain : main.Only Action.Uncommanding) (hrun : kernelInterrupts.Reaches ⟨u, main, []⟩ x)
    (hflag : x.state.1.interruptFlag = true) : AfterRemap x.state.2 ∧ x.state.2.Idle := by
  obtain ⟨-, rfl⟩ := irqInit_runs_iff.mp hinit
  have hstart : FrameAt none (t.1, initialPair) main := ⟨afterRemap_initial, ⟨rfl, rfl⟩, hmain⟩
  obtain ⟨i, hx, -⟩ := frameAt_frameInv.reaches hstart hrun
  cases i with
  | some fin =>
    rw [hx.2.1] at hflag
    exact absurd hflag Bool.false_ne_true
  | none => exact ⟨hx.1, hx.2.1⟩

/-- While interrupts are enabled nothing is in service, and no enabled line that requests waits
for one of lower priority. -/
theorem interrupts_served {serBuff : Word} {fuel : Nat} {irqTable irqTable' : IrqTable}
    {t u : DriverState × PicPair} {main : Driver Unit}
    {x : Config Action Action.Res (DriverState × PicPair) Word}
    (hinit : (irqInit serBuff fuel irqTable).Runs picPair.Exec t irqTable' u)
    (hmain : main.Only Action.Uncommanding) (hrun : kernelInterrupts.Reaches ⟨u, main, []⟩ x)
    (hflag : x.state.1.interruptFlag = true) :
    x.state.2.Idle ∧
      ∀ requested, answered x.state.2 requested = firstEnabled (pairMasks x.state.2) requested := by
  obtain ⟨hrem, hidle⟩ := idle_of_flag hinit hmain hrun hflag
  exact ⟨hidle, hrem.answered hidle⟩

def beforeStart : DriverState × PicPair := (⟨0x2, zeroVars⟩, initialPair)

def afterStart : DriverState × PicPair := (⟨0x202, zeroVars⟩, initialPair)

/-- A request that is gone is dispatched like any other. -/
theorem interrupts_served_spurious :
    kernelInterrupts.Reaches ⟨beforeStart, .op .sti fun _ => hlt, []⟩ ⟨afterStart, hlt, []⟩ ∧
      afterStart.2.Idle ∧
      ∀ requested, answered afterStart.2 requested =
        firstEnabled (pairMasks afterStart.2) requested := by
  have hquiet : quietTable.Quiet := fun _ _ => only_ret _
  have hinit : (irqInit 0x100000 0 quietTable).Runs picPair.Exec beforeStart
      (fun vec => ⟨0, initHandler 0x100000 0 vec⟩) beforeStart := irqInit_runs_iff.mpr ⟨rfl, rfl⟩
  have hmain : (.op .sti fun _ => hlt : Driver Unit).Only Action.Uncommanding :=
    ⟨trivial, fun _ => ⟨trivial, fun r => r.elim⟩⟩
  have hsti : picPair.Exec .sti beforeStart () afterStart := ⟨rfl, rfl⟩
  have htake : kernelInterrupts.take afterStart (isrHelper quietTable 0x27 0) 0x202 beforeStart :=
    ⟨quietTable, 0x27, 0, hquiet, rfl, rfl, rfl, Or.inr ⟨by decide, .spurious⟩⟩
  have heoi2 : picPair.Exec (.outb pic2CmdPort eoiCmd) beforeStart () beforeStart :=
    (exec_outb_pair rfl).mpr rfl
  have heoi1 : picPair.Exec (.outb pic1CmdPort eoiCmd) beforeStart () beforeStart :=
    (exec_outb_pair rfl).mpr rfl
  have hrun : kernelInterrupts.Reaches ⟨beforeStart, .op .sti fun _ => hlt, []⟩
      ⟨afterStart, hlt, []⟩ :=
    .head (.exec hsti) (.head (.take htake) (.head (.exec (r := ()) heoi2)
      (.head (.exec (r := ()) heoi1) (.single .resume))))
  exact ⟨hrun, interrupts_served hinit hmain hrun (by decide)⟩

end SkipOS
