import SkipOS.PicMask
import SkipOS.Terminal

/-! `KBD_init` on a keyboard controller whose keyboard answers at once. -/

namespace SkipOS

open Prog

/-- A controller with its keyboard, and the masks of the interrupt controllers. -/
structure Ps2 where
  config : Byte
  /-- the next byte of data is the configuration -/
  writing : Bool
  /-- what the data port gives, read by read -/
  output : List Byte
  scanSet : Byte
  /-- the keyboard takes the next byte for the number of a scan code set -/
  choosing : Bool
  scanning : Bool
  masks : PicMasks

namespace Ps2

/-- The keyboard sends; `translate` is what the controller makes of a byte in translation mode. -/
def send (translate : Byte → Byte) (bytes : List Byte) (d : Ps2) : Ps2 :=
  { d with output := d.output ++
      if d.config &&& p1TranslationCfgMsk = 0 then bytes else bytes.map translate }

def kbdResendRsp : Byte := 0xFE

/-- The keyboard takes a byte and answers. -/
def takeByte (translate : Byte → Byte) (b : Byte) (d : Ps2) : Ps2 :=
  if b = kbdRstCmd then
    send translate [kbdAckRsp, kbdSelfTestPass]
      { d with scanSet := kbdSetScanCode2Data, choosing := false, scanning := true }
  else if d.choosing then send translate [kbdAckRsp] { d with scanSet := b, choosing := false }
  else if b = kbdSetScanCodeCmd then send translate [kbdAckRsp] { d with choosing := true }
  else send translate [kbdResendRsp] d

def command (b : Byte) (d : Ps2) : Ps2 :=
  if b = disableP1Cmd then { d with config := d.config ||| p1ClkCfgMsk, writing := false }
  else if b = disableP2Cmd then { d with config := d.config ||| p2ClkCfgMsk, writing := false }
  else if b = enableP1Cmd then { d with config := d.config &&& ~~~p1ClkCfgMsk, writing := false }
  else if b = readCfgCmd then { d with output := d.output ++ [d.config], writing := false }
  else { d with writing := decide (b = writeCfgCmd) }

/-- A byte of data is for the controller if it waits for one, else for the keyboard if that has its
clock. -/
def data (translate : Byte → Byte) (b : Byte) (d : Ps2) : Ps2 :=
  if d.writing then { d with config := b, writing := false }
  else if d.config &&& p1ClkCfgMsk = 0 then takeByte translate b d
  else d

def writePort (translate : Byte → Byte) (port : BitVec 16) (val : Byte) (d : Ps2) : Ps2 :=
  if port = ioP1 then data translate val d
  else if port = ioP2 then command val d
  else { d with masks := ⟨if port = pic1DataPort then val else d.masks.pic1,
    if port = pic2DataPort then val else d.masks.pic2⟩ }

/-- Bytes are taken at once, so that the input buffer is always clear. An empty output buffer gives
anything. -/
inductive Read : BitVec 16 → Ps2 → Byte → Ps2 → Prop
  | data {d : Ps2} {b : Byte} {bs : List Byte} (h : d.output = b :: bs) :
      Read ioP1 d b { d with output := bs }
  | stale {d : Ps2} {r : Byte} (h : d.output = []) : Read ioP1 d r d
  | status {d : Ps2} {r : Byte} (hfull : r &&& outputBuffStatusMsk = 0 ↔ d.output = [])
      (hclear : r &&& inputBuffStatusMsk = 0) : Read ioP2 d r d
  | other {port : BitVec 16} {d : Ps2} {r : Byte} (h1 : port ≠ ioP1) (h2 : port ≠ ioP2)
      (hpic1 : port = pic1DataPort → r = d.masks.pic1)
      (hpic2 : port = pic2DataPort → r = d.masks.pic2) : Read port d r d

end Ps2

/-- While a program runs no key is pressed. -/
def ps2 (translate : Byte → Byte) : Device Ps2 where
  inb := Ps2.Read
  outb port val d d' := d' = d.writePort translate port val
  step _ _ := False

variable {translate : Byte → Byte} {s : DriverState} {d d' : Ps2} {r b : Byte} {bs : List Byte}
  {α : Type} {Q : Unit → DriverState × Ps2 → Prop} {Q' : Byte → DriverState × Ps2 → Prop}
  {fuel : Nat}

theorem Ps2.Read.data_inv (h : Ps2.Read ioP1 d r d') (hout : d.output = b :: bs) :
    r = b ∧ d' = { d with output := bs } := by
  generalize hp : ioP1 = port at h
  cases h with
  | data hout' =>
    rw [hout] at hout'
    obtain ⟨rfl, rfl⟩ := List.cons.inj hout'
    exact ⟨rfl, rfl⟩
  | stale hnil =>
    rw [hout] at hnil
    exact absurd hnil (List.cons_ne_nil b bs)
  | status => exact absurd hp (by decide)
  | other h1 => exact absurd hp.symm h1

theorem Ps2.Read.status_inv (h : Ps2.Read ioP2 d r d') :
    d' = d ∧ (r &&& outputBuffStatusMsk = 0 ↔ d.output = []) ∧ r &&& inputBuffStatusMsk = 0 := by
  generalize hp : ioP2 = port at h
  cases h with
  | data => exact absurd hp (by decide)
  | stale => exact absurd hp (by decide)
  | status hfull hclear => exact ⟨rfl, hfull, hclear⟩
  | other _ h2 => exact absurd hp.symm h2

theorem Ps2.Read.pic1_inv (h : Ps2.Read pic1DataPort d r d') : r = d.masks.pic1 ∧ d' = d := by
  generalize hp : pic1DataPort = port at h
  cases h with
  | data => exact absurd hp (by decide)
  | stale => exact absurd hp (by decide)
  | status => exact absurd hp (by decide)
  | other _ _ hpic1 => exact ⟨hpic1 hp.symm, rfl⟩

/-! What the operations of `keyboard.c` need for a postcondition. -/

theorem wp_writeCommandByte (h : Q () (s, d.command b)) :
    (writeCommandByte b).wp Sound (ps2 translate).Exec Q (s, d) := by
  refine wp_outb.mpr ⟨⟨by simp, by simp⟩, fun d' hd' => ?_⟩
  have hcmd : d.writePort translate ioP2 b = d.command b := rfl
  rw [hd', hcmd]
  exact h

theorem wp_recvKbdByte (hout : d.output = b :: bs) (h : Q' b (s, { d with output := bs })) :
    recvKbdByte.wp Sound (ps2 translate).Exec Q' (s, d) := by
  refine wp_inb.mpr ⟨⟨by simp, by simp⟩, fun r d' hd' => ?_⟩
  obtain ⟨rfl, rfl⟩ := Ps2.Read.data_inv hd' hout
  exact h

theorem wp_writeDataByte (h : Q () (s, d.data translate b)) :
    (writeDataByte (fuel + 1) b).wp Sound (ps2 translate).Exec Q (s, d) := by
  refine wp_bind (wp_inb.mpr ⟨⟨by simp, by simp⟩, fun r d' hd' => ?_⟩)
  obtain ⟨rfl, -, hclear⟩ := Ps2.Read.status_inv hd'
  show (if r &&& inputBuffStatusMsk ≠ 0 then waitWriteData fuel else pure () : Driver Unit).wp _ _ _ _
  rw [if_neg (not_not.mpr hclear)]
  refine wp_outb.mpr ⟨⟨by simp, by simp⟩, fun d'' hd'' => ?_⟩
  have hdata : d'.writePort translate ioP1 b = d'.data translate b := rfl
  rw [hd'', hdata]
  exact h

/-- One round for each byte in the output buffer. -/
theorem wp_flushBuff (hfuel : d.output.length < fuel) (h : Q () (s, { d with output := [] })) :
    (flushBuff fuel).wp Sound (ps2 translate).Exec Q (s, d) := by
  induction fuel generalizing d with
  | zero => exact absurd hfuel (Nat.not_lt_zero _)
  | succ fuel ih =>
    refine wp_inb.mpr ⟨⟨by simp, by simp⟩, fun r d' hd' => ?_⟩
    obtain ⟨rfl, hfull, -⟩ := Ps2.Read.status_inv hd'
    have hmask : outputBuffStatusMsk = 0x1 := rfl
    rw [hmask] at hfull
    show (if r &&& 0x1 ≠ 0 then inb ioP1 >>= fun _ => flushBuff fuel
      else pure () : Driver Unit).wp _ _ _ _
    cases hout : d'.output with
    | nil =>
      rw [if_neg (not_not.mpr (hfull.mpr hout))]
      have hsame : ({ d' with output := [] } : Ps2) = d' := by rw [← hout]
      rw [hsame] at h
      exact h
    | cons b bs =>
      rw [if_pos (mt hfull.mp (by rw [hout]; exact List.cons_ne_nil b bs))]
      refine wp_bind (wp_inb.mpr ⟨⟨by simp, by simp⟩, fun r d'' hd'' => ?_⟩)
      obtain ⟨rfl, rfl⟩ := Ps2.Read.data_inv hd'' hout
      refine ih ?_ h
      rw [hout, List.length_cons] at hfuel
      exact Nat.lt_of_succ_lt_succ hfuel

theorem wp_readDataByte (hout : d.output = b :: bs) (h : Q' b (s, { d with output := bs })) :
    (readDataByte (fuel + 1)).wp Sound (ps2 translate).Exec Q' (s, d) := by
  refine wp_bind (wp_inb.mpr ⟨⟨by simp, by simp⟩, fun r d' hd' => ?_⟩)
  obtain ⟨rfl, hfull, -⟩ := Ps2.Read.status_inv hd'
  have hsome : r &&& outputBuffStatusMsk ≠ 0 :=
    mt hfull.mp (by rw [hout]; exact List.cons_ne_nil b bs)
  show (if r &&& outputBuffStatusMsk = 0 then waitReadData fuel else pure () : Driver Unit).wp _ _ _ _
  rw [if_neg hsome]
  exact wp_recvKbdByte hout h

/-- An answer that starts with an ACK is taken without sending again. -/
theorem wp_sendKbdByte (hout : (d.data translate b).output = kbdAckRsp :: bs)
    (h : Q () (s, { d.data translate b with output := bs })) :
    (sendKbdByte (fuel + 1) b).wp Sound (ps2 translate).Exec Q (s, d) := by
  refine wp_bind (wp_writeDataByte (wp_bind (wp_bind (wp_recvKbdByte hout ?_))))
  rw [if_neg fun hne => hne.1 rfl]
  exact h

theorem wp_irqEnableKbd (h : Q () (s, { d with masks := d.masks.setLine kbdIntNum true })) :
    (irqEnableIndex kbdIntNum).wp Sound (ps2 translate).Exec Q (s, d) := by
  have hport : maskPort kbdIntNum = pic1DataPort := rfl
  rw [irqEnableIndex, setIrqLineState_eq (by decide), hport]
  refine wp_inb.mpr ⟨⟨by simp, by simp⟩, fun r d' hd' => ?_⟩
  obtain ⟨rfl, rfl⟩ := Ps2.Read.pic1_inv hd'
  refine wp_outb.mpr ⟨⟨by simp, by simp⟩, fun d'' hd'' => ?_⟩
  rw [hd'']
  exact h

/-- What `KBD_init` makes of a controller. -/
def Ps2.ready (d : Ps2) : Ps2 where
  config := getGoodConfigByte d.config
  writing := false
  output := []
  scanSet := kbdSetScanCode2Data
  choosing := false
  scanning := true
  masks := d.masks.setLine kbdIntNum true

/-- Disabling the ports before does not show in the configuration byte written. -/
theorem getGoodConfigByte_disabled (c : Byte) :
    getGoodConfigByte (c ||| p1ClkCfgMsk ||| p2ClkCfgMsk) &&& ~~~p1ClkCfgMsk =
      getGoodConfigByte c := by
  revert c
  decide

theorem getGoodConfigByte_bits (c : Byte) : getGoodConfigByte c &&& p1ClkCfgMsk = 0 ∧
    getGoodConfigByte c &&& p1TranslationCfgMsk = 0 := by
  revert c
  decide

theorem getGoodConfigByte_raises (c : Byte) : getGoodConfigByte c &&& p1IntCfgMsk ≠ 0 := by
  revert c
  decide

theorem wp_writeGoodConfigByte (hout : d.output = [])
    (h : Q () (s, { d with config := getGoodConfigByte d.config, writing := false })) :
    (writeGoodConfigByte (fuel + 1)).wp Sound (ps2 translate).Exec Q (s, d) := by
  have hread : (d.command readCfgCmd).output = [d.config] := by
    show d.output ++ [d.config] = [d.config]
    rw [hout]
    rfl
  refine wp_bind (wp_bind (wp_writeCommandByte (wp_readDataByte hread ?_)))
  refine wp_bind (wp_writeCommandByte (wp_writeDataByte ?_))
  have hstate : Ps2.data translate (getGoodConfigByte d.config)
      (Ps2.command writeCfgCmd { d.command readCfgCmd with output := [] }) =
      { d with config := getGoodConfigByte d.config, writing := false } := by
    rw [← hout]
    rfl
  rw [hstate]
  exact h

theorem wp_enableP1 (hd : d.command enableP1Cmd = d') (h : Q () (s, d')) :
    enableP1.wp Sound (ps2 translate).Exec Q (s, d) := by
  refine wp_writeCommandByte ?_
  rw [hd]
  exact h

/-- A controller that hands bytes on to its keyboard and back, with none left to read. -/
structure Ps2.Listening (d : Ps2) : Prop where
  idle : d.writing = false
  clock : d.config &&& p1ClkCfgMsk = 0
  direct : d.config &&& p1TranslationCfgMsk = 0
  empty : d.output = []

theorem Ps2.Listening.data (h : d.Listening) : d.data translate b = d.takeByte translate b := by
  rw [Ps2.data, h.idle, if_neg Bool.false_ne_true, if_pos h.clock]

theorem Ps2.Listening.send (h : d.Listening) :
    d.send translate bs = { d with output := bs } := by
  rw [Ps2.send, h.empty, if_pos h.direct, List.nil_append]

theorem wp_resetKbd (hd : d.Listening)
    (h : Q () (s, { d with
      output := [], scanSet := kbdSetScanCode2Data, choosing := false, scanning := true })) :
    (resetKbd (fuel + 1)).wp Sound (ps2 translate).Exec Q (s, d) := by
  have hreset : d.data translate kbdRstCmd = { d with
      output := [kbdAckRsp, kbdSelfTestPass], scanSet := kbdSetScanCode2Data, choosing := false,
      scanning := true } := by
    rw [hd.data, Ps2.takeByte, if_pos rfl]
    exact Ps2.Listening.send ⟨hd.idle, hd.clock, hd.direct, hd.empty⟩
  refine wp_bind (wp_sendKbdByte (by rw [hreset]) (wp_bind (wp_recvKbdByte (by rw [hreset]) ?_)))
  rw [hreset]
  exact h

theorem wp_setKbdScanCode2 (hd : d.Listening) (hchoosing : d.choosing = false)
    (h : Q () (s, { d with output := [], scanSet := kbdSetScanCode2Data, choosing := false })) :
    (setKbdScanCode2 (fuel + 1)).wp Sound (ps2 translate).Exec Q (s, d) := by
  have hset : d.data translate kbdSetScanCodeCmd =
      { d with output := [kbdAckRsp], choosing := true } := by
    rw [hd.data, Ps2.takeByte, if_neg (by decide), hchoosing, if_neg Bool.false_ne_true, if_pos rfl]
    exact Ps2.Listening.send ⟨hd.idle, hd.clock, hd.direct, hd.empty⟩
  have hnext : Ps2.Listening { d with output := [], choosing := true } :=
    ⟨hd.idle, hd.clock, hd.direct, rfl⟩
  have hnumber : Ps2.data translate kbdSetScanCode2Data { d with output := [], choosing := true } =
      { d with output := [kbdAckRsp], scanSet := kbdSetScanCode2Data, choosing := false } := by
    rw [hnext.data, Ps2.takeByte, if_neg (by decide), if_pos rfl]
    exact Ps2.Listening.send ⟨hd.idle, hd.clock, hd.direct, rfl⟩
  refine wp_bind (wp_sendKbdByte (by rw [hset]) ?_)
  rw [hset]
  refine wp_sendKbdByte (by rw [hnumber]) ?_
  rw [hnumber]
  exact h

theorem kbdInit_wp {behind : List ScodeMapElem} {kdbState : Word} {irqTable : IrqTable}
    (hfuel : d.output.length < fuel) :
    (kbdInit fuel behind kdbState irqTable).wp Sound (ps2 translate).Exec
      (fun table u => table = registerKbdIsr behind kdbState irqTable ∧ u = (s, d.ready)) (s, d) := by
  obtain ⟨fuel, rfl⟩ := Nat.exists_eq_succ_of_ne_zero (Nat.ne_zero_of_lt hfuel)
  obtain ⟨hclk, htrans⟩ := getGoodConfigByte_bits d.config
  refine wp_bind (wp_writeCommandByte (wp_bind (wp_writeCommandByte ?_)))
  refine wp_bind (wp_flushBuff hfuel ?_)
  refine wp_bind (wp_writeGoodConfigByte rfl ?_)
  have henabled : Ps2.command enableP1Cmd { d with
      config := getGoodConfigByte (d.config ||| p1ClkCfgMsk ||| p2ClkCfgMsk), writing := false,
      output := [] } =
      { d with config := getGoodConfigByte d.config, writing := false, output := [] } := by
    rw [← getGoodConfigByte_disabled d.config]
    rfl
  refine wp_bind (wp_enableP1 henabled ?_)
  refine wp_bind (wp_resetKbd ⟨rfl, hclk, htrans, rfl⟩ ?_)
  refine wp_bind (wp_setKbdScanCode2 ⟨rfl, hclk, htrans, rfl⟩ rfl ?_)
  exact wp_bind (wp_irqEnableKbd ⟨rfl, rfl⟩)

def Ps2.readPort (port : BitVec 16) (d : Ps2) : Byte × Ps2 :=
  if port = ioP1 then (d.output.headD 0, { d with output := d.output.tail })
  else if port = ioP2 then (if d.output = [] then 0 else outputBuffStatusMsk, d)
  else (if port = pic1DataPort then d.masks.pic1 else d.masks.pic2, d)

theorem Ps2.read_readPort (port : BitVec 16) (d : Ps2) :
    Ps2.Read port d (d.readPort port).1 (d.readPort port).2 := by
  by_cases h1 : port = ioP1
  · subst h1
    obtain ⟨config, writing, output, scanSet, choosing, scanning, masks⟩ := d
    cases output with
    | nil => exact .stale rfl
    | cons b bs => exact .data rfl
  · by_cases h2 : port = ioP2
    · subst h2
      have hport : d.readPort ioP2 = (if d.output = [] then 0 else outputBuffStatusMsk, d) := rfl
      have hin : outputBuffStatusMsk &&& inputBuffStatusMsk = 0 := by decide
      rw [hport]
      by_cases hout : d.output = []
      · exact .status (by simp [hout]) (by simp [hout])
      · exact .status (by simp [hout, outputBuffStatusMsk]) (by simp [hout, hin])
    · rw [Ps2.readPort, if_neg h1, if_neg h2]
      refine .other h1 h2 (fun hpic => if_pos hpic) fun hpic => if_neg ?_
      rw [hpic]
      decide

theorem ps2_enabled {o : Action} (ho : o ≠ .halt ∧ o ≠ .fuel) (u : DriverState × Ps2) :
    ∃ r v, (ps2 translate).Exec o u r v := by
  obtain ⟨r, v, hstep⟩ := Action.exists_step ho u
  exact ⟨r, v, Action.exec_of_step Ps2.read_readPort (fun _ _ _ => rfl) o u r v hstep⟩

/-- Whatever firmware has left in the controller and the keyboard, `KBD_init` ends without a failed
assertion on a keyboard that answers at once, in one state only: scan codes of set 2 arrive as they
are sent, with interrupts enabled for them and their handler installed. -/
theorem kbd_init_ready (translate : Byte → Byte) (behind : List ScodeMapElem) (kdbState : Word)
    (irqTable : IrqTable) (s : DriverState) (d : Ps2) (hfuel : d.output.length < fuel) :
    (∃ table u, (kbdInit fuel behind kdbState irqTable).Runs (ps2 translate).Exec (s, d) table u) ∧
    (∀ table u, (kbdInit fuel behind kdbState irqTable).Runs (ps2 translate).Exec (s, d) table u →
      table = registerKbdIsr behind kdbState irqTable ∧ u = (s, d.ready)) ∧
    ∀ o u, (kbdInit fuel behind kdbState irqTable).Performs (ps2 translate).Exec (s, d) o u →
      o ≠ .halt ∧ o ≠ .fuel := by
  have hwp : (kbdInit fuel behind kdbState irqTable).wp Sound (ps2 translate).Exec
      (fun table u => table = registerKbdIsr behind kdbState irqTable ∧ u = (s, d.ready)) (s, d) :=
    kbdInit_wp hfuel
  exact ⟨hwp.exists_runs (only_true _) fun o u _ hok => ps2_enabled hok u,
    fun table u hrun => hwp.runs hrun, fun o u hp => hwp.performs hp⟩

/-- The code of a key waits to be read, in translation mode; the keyboard waits for the number of a
set, and the controller for its configuration. -/
def firmware : Ps2 := ⟨0x47, true, [0x1E], 1, true, false, ⟨0xFB, 0xFF⟩⟩

theorem kbd_init_firmware :
    ∃ table u, (kbdInit 2 [] 0x9000 quietTable).Runs (ps2 fun _ => 0).Exec
      (⟨0, zeroVars⟩, firmware) table u ∧
      u.2 = ⟨0x25, false, [], 2, false, true, ⟨0xF9, 0xFF⟩⟩ := by
  obtain ⟨⟨table, u, hrun⟩, hready, -⟩ :=
    kbd_init_ready (fun _ => 0) [] 0x9000 quietTable ⟨0, zeroVars⟩ firmware (show 1 < 2 by decide)
  exact ⟨table, u, hrun, by rw [(hready table u hrun).2]; rfl⟩

end SkipOS
