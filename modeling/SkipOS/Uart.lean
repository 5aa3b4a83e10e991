import SkipOS.SerialRun

/-! A 16550 with its FIFOs off behind the serial driver, and that queued output never waits
for an interrupt that does not come. -/

namespace SkipOS

open Prog Line

/-- `written` and `shifted` log what was put into the holding register and what was taken out
of it to be sent. -/
structure Uart where
  lcr : Byte
  ier : Byte
  thr : Option Byte
  /-- the latched transmit-empty interrupt -/
  drained : Bool
  written : List Byte
  shifted : List Byte

def Uart.writePort (port : BitVec 16) (val : Byte) (d : Uart) : Uart :=
  if port = comPort lcrOffset then { d with lcr := val }
  else if port = comPort tranOffset ∧ d.lcr.getLsbD 7 = false then
    { d with thr := some val, drained := false, written := d.written ++ [val] }
  else if port = comPort intEnRegOffset ∧ d.lcr.getLsbD 7 = false then
    -- a transmitter that is empty already reports itself
    { d with ier := val, drained := d.drained || (val.getLsbD 1 && d.thr.isNone) }
  else d

/-- Bit 5 of LSR tells whether the holding register is empty. IIR may report another source in
place of the transmitter at any time. All else that is read is arbitrary. -/
inductive Uart.Read : BitVec 16 → Uart → Byte → Uart → Prop
  | lsr {d : Uart} {r : Byte} (h : r.getLsbD 5 = d.thr.isNone) : Read (comPort lsrOffset) d r d
  | drained {d : Uart} (h : d.drained = true) (he : d.ier.getLsbD 1 = true) :
      Read (comPort iirOffset) d 0x02 { d with drained := false }
  | iir {d : Uart} {r : Byte} (h : r >>> 1 ≠ 1) : Read (comPort iirOffset) d r d
  | other {port : BitVec 16} {d : Uart} {r : Byte} (hl : port ≠ comPort lsrOffset)
      (hi : port ≠ comPort iirOffset) : Read port d r d

inductive Uart.Shift : Uart → Uart → Prop
  | mk {d : Uart} {b : Byte} (h : d.thr = some b) :
      Shift d { d with thr := none, drained := true, shifted := d.shifted ++ [b] }

def uart : Device Uart where
  inb := Uart.Read
  outb port val d d' := d' = d.writePort port val
  step := Uart.Shift

variable {base : Word} {l m : Line Uart} {d d' : Uart} {r : Byte} {c : SerCall}
  {t₀ t₁ t : DriverState × Uart} {accepted bytes : List Byte}

theorem lsr_bit (r : Byte) : r &&& 0x20 = 0 ↔ r.getLsbD 5 = false := by
  revert r
  decide

theorem Uart.Read.lsr_inv (h : Uart.Read (comPort lsrOffset) d r d') :
    d' = d ∧ (r &&& 0x20 = 0 ↔ d.thr ≠ none) := by
  generalize hp : comPort lsrOffset = port at h
  cases h with
  | lsr h =>
    refine ⟨rfl, ?_⟩
    rw [lsr_bit, h]
    cases d.thr <;> simp
  | drained => exact absurd hp (by decide)
  | iir => exact absurd hp (by decide)
  | other hl => exact absurd hp.symm hl

theorem Uart.Read.iir_inv (h : Uart.Read (comPort iirOffset) d r d') :
    (d.drained = true ∧ (r >>> 1) &&& 0xFF = 0b01 ∧ d' = { d with drained := false }) ∨
      ((r >>> 1) &&& 0xFF ≠ 0b01 ∧ d' = d) := by
  generalize hp : comPort iirOffset = port at h
  cases h with
  | lsr => exact absurd hp (by decide)
  | drained h => exact Or.inl ⟨h, by decide, rfl⟩
  | iir h =>
    have hall : (r >>> 1) &&& (255 : Byte) = r >>> 1 := BitVec.and_allOnes
    rw [hall]
    exact Or.inr ⟨h, rfl⟩
  | other _ hi => exact absurd hp.symm hi

@[simp] theorem Uart.writePort_lcr (d : Uart) (val : Byte) :
    d.writePort (comPort lcrOffset) val = { d with lcr := val } := rfl

@[simp] theorem Uart.writePort_tran (val : Byte) (h : d.lcr.getLsbD 7 = false) :
    d.writePort (comPort tranOffset) val =
      { d with thr := some val, drained := false, written := d.written ++ [val] } := by
  rw [Uart.writePort, if_neg (by decide), if_pos ⟨rfl, h⟩]

@[simp] theorem Uart.writePort_ier (val : Byte) (h : d.lcr.getLsbD 7 = false) :
    d.writePort (comPort intEnRegOffset) val =
      { d with ier := val, drained := d.drained || (val.getLsbD 1 && d.thr.isNone) } := by
  rw [Uart.writePort, if_neg (by decide), if_neg (by simp [tranOffset, intEnRegOffset]),
    if_pos ⟨rfl, h⟩]

theorem Uart.writePort_other {port : BitVec 16} (val : Byte) (hl : port ≠ comPort lcrOffset)
    (ht : port ≠ comPort tranOffset) (hi : port ≠ comPort intEnRegOffset) :
    d.writePort port val = d := by
  simp [Uart.writePort, hl, ht, hi]

/-- Bit 6 of LCR does not select the divisor latch, and the divisor is put out as a byte. -/
theorem InitDevice.uart_eq (h : InitDevice uart d d') :
    d' = ⟨3, 2, some 12, false, d.written ++ [12], d.shifted⟩ := by
  cases h with
  | mk hbank hlow hhigh hformat hints hfifo hmask hline =>
    obtain rfl := hbank
    obtain rfl := hlow
    obtain rfl := hhigh
    obtain rfl := hformat
    obtain rfl := hints
    obtain rfl := hfifo
    cases hmask with
    | other =>
      obtain rfl := hline
      have hlow : comPort lsbyDivOffset = comPort tranOffset := rfl
      have hhigh : comPort msbyDivOffset = comPort intEnRegOffset := rfl
      rw [hlow, hhigh, Uart.writePort_other _ (by decide) (by decide) (by decide),
        Uart.writePort_other _ (by decide) (by decide) (by decide)]
      simp

/-- Writes of the driver reach the holding register and its interrupt is enabled. -/
structure Uart.Ready (d : Uart) : Prop where
  bank : d.lcr.getLsbD 7 = false
  enabled : d.ier.getLsbD 1 = true

theorem Uart.Ready.outb {b : Byte} (h : d.Ready) (hw : uart.outb (comPort tranOffset) b d d') :
    d' = { d with thr := some b, drained := false, written := d.written ++ [b] } :=
  hw.trans (Uart.writePort_tran b h.bank)

/-- Bytes queued are waited for: by a byte still to be shifted out or by the interrupt. -/
def Awake (l : Line Uart) : Prop :=
  l.queue ≠ [] → l.busy = true ∧ (l.dev.thr ≠ none ∨ l.dev.drained = true)

theorem Line.Poll.ready (h : Poll uart l m) (hready : l.dev.Ready) :
    m.dev.Ready ∧ (m.busy = true → m.dev.thr ≠ none) := by
  cases h with
  | idle hb => exact ⟨hready, by simp [hb]⟩
  | full hb hr he =>
    obtain ⟨rfl, hbit⟩ := hr.lsr_inv
    exact ⟨hready, fun _ => hbit.mp he⟩
  | empty hb hr he =>
    obtain ⟨rfl, -⟩ := hr.lsr_inv
    exact ⟨hready, by simp⟩

theorem Line.HwWrite.awake (h : HwWrite uart l m) (hready : l.dev.Ready) :
    m.dev.Ready ∧ Awake m := by
  obtain ⟨hpoll, hsend⟩ := h
  obtain ⟨hready', hfull⟩ := hpoll.ready hready
  cases hsend with
  | busy hb => exact ⟨hready', fun _ => ⟨hb, Or.inl (hfull hb)⟩⟩
  | none hb hq => exact ⟨hready', fun hne => absurd hq hne⟩
  | next hb hq hw =>
    rw [hready'.outb hw]
    exact ⟨⟨hready'.bank, hready'.enabled⟩, fun _ => ⟨rfl, by simp⟩⟩

theorem Line.Drain.awake (h : Drain uart l m) (hready : l.dev.Ready) : m.dev.Ready ∧ Awake m := by
  induction h with
  | done hq => exact ⟨hready, fun hne => absurd hq hne⟩
  | next hq hw _ ih =>
    obtain rfl := hready.outb hw
    exact ih ⟨hready.bank, hready.enabled⟩

/-- An interrupt that is taken without output leaves the latch as it is. -/
theorem Line.Call.awake (h : Call uart c l m) (hready : l.dev.Ready) (hawake : Awake l) :
    m.dev.Ready ∧ Awake m := by
  cases h with
  | write hw => exact hw.awake hready
  | flush hd => exact hd.awake hready
  | lineStatus hr hi hr' =>
    obtain ⟨rfl, -⟩ := hr'.lsr_inv
    rcases hr.iir_inv with ⟨-, htran, -⟩ | ⟨-, rfl⟩
    · rw [hi] at htran
      exact absurd htran (by decide)
    · exact ⟨hready, hawake⟩
  | drained hr _ hw =>
    apply hw.awake
    rcases hr.iir_inv with ⟨-, -, rfl⟩ | ⟨-, rfl⟩
    · exact ⟨hready.bank, hready.enabled⟩
    · exact hready
  | other hr _ hi =>
    rcases hr.iir_inv with ⟨-, htran, -⟩ | ⟨-, rfl⟩
    · exact absurd htran hi
    · exact ⟨hready, hawake⟩

theorem Line.Run.awake (h : l.Run uart anything bytes m) (hready : l.dev.Ready)
    (hawake : Awake l) : m.dev.Ready ∧ Awake m := by
  induction h with
  | refl => exact ⟨hready, hawake⟩
  | call _ _ hc ih => exact hc.awake ih.1 ih.2
  | device _ _ hd ih =>
    obtain ⟨hthr⟩ := hd
    refine ⟨⟨ih.1.bank, ih.1.enabled⟩, fun hne => ⟨(ih.2 hne).1, Or.inr rfl⟩⟩

theorem serInit_uart (h : (serInit base).Runs uart.Exec t₀ () t₁) :
    Rep base ⟨[], false, ⟨3, 2, some 12, false, t₀.2.written ++ [12], t₀.2.shifted⟩⟩ t₁ := by
  obtain ⟨s, d⟩ := t₀
  have hwp : (serInit base).wp (InRing base) uart.Exec (fun _ u => Rep base
      ⟨[], false, ⟨3, 2, some 12, false, d.written ++ [12], d.shifted⟩⟩ u) (s, d) := by
    apply serInit_wp
    intro s' d' hd hrep
    rw [← hd.uart_eq]
    exact hrep
  exact hwp.runs h

/-- Queued output is never stranded. -/
theorem queued_output_awake {base : Word} {t₀ t₁ t : DriverState × Uart} {accepted : List Byte}
    (hinit : (serInit base).Runs uart.Exec t₀ () t₁)
    (hrun : SerRun uart base anything t₁ accepted t) (hq : queued base t.1 ≠ []) :
    t.1.vars .serBusy = true ∧ (t.2.thr ≠ none ∨ t.2.drained = true) := by
  obtain ⟨-, hline⟩ := hrun.refines (serInit_uart hinit)
  obtain ⟨-, hawake⟩ := hline.awake ⟨by simp, by simp⟩ fun hne => absurd rfl hne
  exact hawake hq

/-- One answer of the device, with no other source of interrupts. -/
def Uart.readPort (port : BitVec 16) (d : Uart) : Byte × Uart :=
  if port = comPort lsrOffset then (if d.thr.isNone then 0x20 else 0, d)
  else if port = comPort iirOffset then
    if d.drained && d.ier.getLsbD 1 then (0x02, { d with drained := false }) else (0x01, d)
  else (0, d)

theorem Uart.read_readPort (port : BitVec 16) (d : Uart) :
    uart.inb port d (d.readPort port).1 (d.readPort port).2 := by
  by_cases hl : port = comPort lsrOffset
  · subst hl
    apply Uart.Read.lsr
    cases hthr : d.thr <;> simp [Uart.readPort, hthr]
  · by_cases hi : port = comPort iirOffset
    · subst hi
      by_cases hd : (d.drained && d.ier.getLsbD 1) = true
      · rw [Uart.readPort, if_neg hl, if_pos rfl, if_pos hd]
        rw [Bool.and_eq_true] at hd
        exact .drained hd.1 hd.2
      · rw [Uart.readPort, if_neg hl, if_pos rfl, if_neg hd]
        exact .iir (by simp)
    · rw [Uart.readPort, if_neg hl, if_neg hi]
      exact .other hl hi

def uartStep : (o : Action) → DriverState × Uart → Option (o.Res × (DriverState × Uart)) :=
  Action.step Uart.readPort fun port val d => d.writePort port val

theorem uartStep_exec (o : Action) (s : DriverState × Uart) (r : o.Res) (s' : DriverState × Uart)
    (h : uartStep o s = some (r, s')) : uart.Exec o s r s' :=
  Action.exec_of_step Uart.read_readPort (fun _ _ _ => rfl) o s r s' h

def uartOff : DriverState × Uart := (⟨0, zeroVars⟩, ⟨0, 0, none, false, [], []⟩)

def uartOn : DriverState × Uart := (serInit 0x100000).final uartStep uartOff

theorem uartOn_runs : (serInit 0x100000).Runs uart.Exec uartOff () uartOn :=
  runs_final uartStep_exec (by decide +kernel)

def uartWritten : DriverState × Uart :=
  (SerCall.prog 0x100000 (.write [0x41, 0x42])).final uartStep uartOn

theorem uartWritten_awake : uartWritten.1.vars .serBusy = true ∧
    (uartWritten.2.thr ≠ none ∨ uartWritten.2.drained = true) := by
  have hwrite : (SerCall.prog 0x100000 (.write [0x41, 0x42])).Runs uart.Exec uartOn () uartWritten :=
    runs_final uartStep_exec (by decide +kernel)
  exact queued_output_awake uartOn_runs (.call .refl trivial hwrite) (by decide +kernel)

end SkipOS
