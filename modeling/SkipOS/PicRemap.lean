import SkipOS.Lib.Pic8259
import SkipOS.PicMask
import SkipOS.Dispatch

/-! The initialization of both interrupt controllers in `pic.c`, on the pair behind the ports. -/

namespace SkipOS

open Prog

def icw1Icw4 : Byte := 0x01

def icw1Init : Byte := 0x10

def icw48086 : Byte := 0x01

def unusedPort : BitVec 16 := 0x80

def ioWait : Driver Unit := outb unusedPort 0

def picSetPic1Mask (mask : Byte) : Driver Unit := outb pic1DataPort mask

def picSetPic2Mask (mask : Byte) : Driver Unit := outb pic2DataPort mask

def picDisableAllPicIrqs : Driver Unit := do
  picSetPic1Mask 0xFF
  picSetPic2Mask 0xFF

def picRemap (base : Byte) : Driver Unit := do
  let pic1Offset := base
  let pic2Offset := base + 8
  outb pic1CmdPort (icw1Init ||| icw1Icw4)
  ioWait
  outb pic2CmdPort (icw1Init ||| icw1Icw4)
  ioWait
  outb pic1DataPort pic1Offset
  ioWait
  outb pic2DataPort pic2Offset
  ioWait
  outb pic1DataPort 4
  ioWait
  outb pic2DataPort 2
  ioWait
  outb pic1DataPort icw48086
  ioWait
  outb pic2DataPort icw48086
  ioWait
  outb pic1DataPort 0
  outb pic2DataPort 0

/-- A write to a port; `none` where the controllers' behaviour is not given. -/
def writePic (port : BitVec 16) (val : Byte) (c : PicPair) : Option PicPair :=
  if port = pic1CmdPort then (c.master.writeCommand val).map fun p => { c with master := p }
  else if port = pic2CmdPort then (c.slave.writeCommand val).map fun p => { c with slave := p }
  else if port = pic1DataPort then some { c with master := c.master.writeData val }
  else if port = pic2DataPort then some { c with slave := c.slave.writeData val }
  else some c

/-- The data ports read as the masks. What all other ports read as is not determined. -/
def picPair : Device PicPair where
  inb port c r c' :=
    c' = c ∧ (port = pic1DataPort → r = c.master.mask) ∧ (port = pic2DataPort → r = c.slave.mask)
  outb port val c c' := ∀ d, writePic port val c = some d → c' = d
  step _ _ := False

/-- Both controllers after `PIC_remap`. -/
def remapped (base : Byte) : PicPair where
  master := ⟨.ocw1, false, true, base, 4, 1, 0, 0⟩
  slave := ⟨.ocw1, false, true, base + 8, 2, 1, 0, 0⟩

/-- Writes one after another. -/
def writeAll : List PortWrite → Driver Unit
  | [] => return ()
  | w :: ws => do
    outb w.1 w.2
    writeAll ws

def remapWrites (base : Byte) : List PortWrite :=
  [(pic1CmdPort, icw1Init ||| icw1Icw4), (unusedPort, 0),
    (pic2CmdPort, icw1Init ||| icw1Icw4), (unusedPort, 0), (pic1DataPort, base), (unusedPort, 0),
    (pic2DataPort, base + 8), (unusedPort, 0), (pic1DataPort, 4), (unusedPort, 0),
    (pic2DataPort, 2), (unusedPort, 0), (pic1DataPort, icw48086), (unusedPort, 0),
    (pic2DataPort, icw48086), (unusedPort, 0), (pic1DataPort, 0), (pic2DataPort, 0)]

/-- The lines of both controllers counted through. -/
def lineNumber : PicLine → Nat
  | .first k => k
  | .second j => 8 + j

/-- While these lines request, the processor gets this vector. -/
def vectorFor (c : PicPair) (requested : PicLine → Bool) : Option Byte :=
  (c.acknowledge (fun k => requested (.first k)) fun j => requested (.second j)).map Prod.fst

variable {s : DriverState} {c d : PicPair} {port : BitVec 16} {val base : Byte}
  {u v : DriverState × PicPair} {ws : List PortWrite}

theorem exec_outb_pair {r : Unit} (h : writePic port val c = some d) :
    picPair.Exec (.outb port val) (s, c) r v ↔ v = (s, d) := by
  have hexec : picPair.Exec (.outb port val) (s, c) r v ↔
      (∀ e, writePic port val c = some e → v.2 = e) ∧ v.1 = s := Iff.rfl
  rw [hexec, h, Prod.ext_iff, and_comm]
  simp

theorem writeAll_runs_iff (h : ws.foldlM (fun c w => writePic w.1 w.2 c) c = some d) :
    (writeAll ws).Runs picPair.Exec (s, c) () v ↔ v = (s, d) := by
  induction ws generalizing c with
  | nil =>
    obtain rfl : c = d := Option.some.inj h
    rw [writeAll, pure_eq, runs_ret_iff, eq_self, true_and]
  | cons w ws ih =>
    obtain ⟨e, he, hrest⟩ := Option.bind_eq_some_iff.mp h
    have hop : writeAll (w :: ws) = .op (.outb w.1 w.2) fun _ => writeAll ws := rfl
    rw [hop, runs_op_iff, ← ih hrest]
    constructor
    · rintro ⟨r, u, hout, hrun⟩
      rwa [(exec_outb_pair he).mp hout] at hrun
    · exact fun hrun => ⟨(), _, (exec_outb_pair he).mpr rfl, hrun⟩

theorem picRemap_eq : picRemap base = writeAll (remapWrites base) := rfl

theorem remapWrites_run : (remapWrites base).foldlM (fun c w => writePic w.1 w.2 c) c =
    some (remapped base) := rfl

/-- Whatever step of an initialization the controllers were in before. -/
theorem picRemap_runs_iff : (picRemap base).Runs picPair.Exec u () v ↔
    v = (u.1, remapped base) := by
  obtain ⟨s, c⟩ := u
  rw [picRemap_eq, writeAll_runs_iff remapWrites_run]

theorem remapped_passing (requested : PicLine → Bool) :
    (remapped base).passing (fun k => requested (.first k)) (fun j => requested (.second j)) =
      requested := by
  have hopen (k : Nat) : (0 : Byte).getLsbD k = false := BitVec.getLsbD_zero
  funext l
  cases l with
  | first k => simp only [PicPair.passing, remapped, hopen, Bool.not_false, Bool.and_true]
  | second j => simp only [PicPair.passing, remapped, hopen, Bool.not_false, Bool.and_true]

theorem remapped_programmed : (remapped base).Programmed where
  master := rfl
  slave := rfl
  cascade := rfl
  number := rfl
  masterEoi := show (1 : Byte).getLsbD 1 = false from rfl
  slaveEoi := show (1 : Byte).getLsbD 1 = false from rfl

theorem vectorFor_remapped (requested : PicLine → Bool) :
    vectorFor (remapped base) requested =
      (PicPair.byPriority.find? requested).map (remapped base).vectorOf := by
  rw [vectorFor, PicPair.acknowledge_idle remapped_programmed ⟨rfl, rfl⟩,
    remapped_passing]

/-- The number of a line takes the place of the low three bits. -/
theorem replaced_eq_add {k : Nat} (hk : k < 8) (hbase : base &&& 7 = 0) :
    (base &&& 0xF8) ||| BitVec.ofNat 8 k = base + BitVec.ofNat 8 k := by
  have hhigh : ∀ base : Byte, base &&& 7 = 0 → base &&& 0xF8 = base := by decide
  have hlow : ∀ k < 8, BitVec.ofNat 8 k = 7 &&& BitVec.ofNat 8 k := by decide
  have hapart : base &&& BitVec.ofNat 8 k = 0 := by
    rw [hlow k hk, ← BitVec.and_assoc, hbase]
    exact BitVec.zero_and
  rw [hhigh base hbase, BitVec.add_eq_or_of_and_eq_zero _ _ hapart]

theorem vectorOf_remapped (hbase : base &&& 7 = 0) {l : PicLine}
    (hl : l ∈ PicPair.byPriority) :
    (remapped base).vectorOf l = base + BitVec.ofNat 8 (lineNumber l) := by
  have hnext : ∀ base : Byte, base &&& 7 = 0 → (base + 8) &&& 7 = 0 := by decide
  obtain ⟨k, hk, he⟩ := List.mem_flatMap.mp hl
  by_cases hline : k = PicPair.slaveLine
  · rw [if_pos hline] at he
    obtain ⟨j, hj, rfl⟩ := List.mem_map.mp he
    have hadd := replaced_eq_add (List.mem_range.mp hj) (hnext base hbase)
    rw [lineNumber, BitVec.ofNat_add, ← BitVec.add_assoc]
    exact hadd
  · rw [if_neg hline, List.mem_singleton] at he
    rw [he]
    exact replaced_eq_add (List.mem_range.mp hk) hbase

/-- Line `n` interrupts with the vector `base + n` where the low three bits of the base are
clear, and only there. -/
theorem remap_maps_lines_iff {base : Byte} {u v : DriverState × PicPair}
    (hrun : (picRemap base).Runs picPair.Exec u () v) :
    (∀ requested, vectorFor v.2 requested = (PicPair.byPriority.find? requested).map fun l =>
      base + BitVec.ofNat 8 (lineNumber l)) ↔ base &&& 7 = 0 := by
  have hlow : ∀ base : Byte, (base &&& 0xF8) ||| BitVec.ofNat 8 0 = base + BitVec.ofNat 8 0 →
      base &&& 7 = 0 := by decide
  rw [picRemap_runs_iff.mp hrun]
  constructor
  · intro h
    have hclock := h fun l => l = .first 0
    rw [vectorFor_remapped] at hclock
    have hbase : (base &&& 0xF8) ||| BitVec.ofNat 8 0 = base + BitVec.ofNat 8 0 :=
      Option.some.inj hclock
    exact hlow base hbase
  · intro hbase requested
    rw [vectorFor_remapped]
    exact Option.map_congr fun l hl => vectorOf_remapped hbase (List.mem_of_find?_eq_some hl)

/-- The first controller is in the middle of an initialization. -/
def midway : DriverState × PicPair :=
  (⟨0, zeroVars⟩, { remapped 0 with master := ⟨.icw3, false, true, 8, 0, 0, 0, 0⟩ })

theorem remap_maps_lines_midway :
    (picRemap externalIntBase).Runs picPair.Exec midway () (midway.1, remapped externalIntBase) ∧
    ((∀ requested, vectorFor (remapped externalIntBase) requested =
      (PicPair.byPriority.find? requested).map fun l =>
        externalIntBase + BitVec.ofNat 8 (lineNumber l)) ↔ externalIntBase &&& 7 = 0) := by
  have hrun : (picRemap externalIntBase).Runs picPair.Exec midway ()
      (midway.1, remapped externalIntBase) := picRemap_runs_iff.mpr rfl
  have hlines := remap_maps_lines_iff hrun
  exact ⟨hrun, hlines⟩

end SkipOS
