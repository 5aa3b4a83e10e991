import SkipOS.SerialLine

/-! Runs of the serial driver after its initialisation: the bytes sent and the bytes queued
are the bytes accepted. -/

namespace SkipOS

open Prog Line

variable {δ : Type} {D : Device δ} {base : Word} {may : Option SerCall → Line δ → Prop}
  {l m : Line δ} {s : DriverState} {d : δ} {t u : DriverState × δ} {accepted bytes : List Byte}
  {c : SerCall}

def line (base : Word) (t : DriverState × δ) : Line δ := ⟨queued base t.1, t.1.vars .serBusy, t.2⟩

/-- Calls, each in one piece, and steps of the device, where `may` lets them happen, with all
the bytes accepted so far. -/
inductive SerRun (D : Device δ) (base : Word) (may : Option SerCall → Line δ → Prop)
    (t : DriverState × δ) : List Byte → DriverState × δ → Prop
  | refl : SerRun D base may t [] t
  | call {bytes : List Byte} {u v : DriverState × δ} {c : SerCall}
      (h : SerRun D base may t bytes u) (hmay : may (some c) (line base u))
      (hc : (c.prog base).Runs D.Exec u () v) :
      SerRun D base may t (bytes ++ (line base u).accepted c) v
  | device {bytes : List Byte} {u : DriverState × δ} {d : δ} (h : SerRun D base may t bytes u)
      (hmay : may none (line base u)) (hd : D.step u.2 d) : SerRun D base may t bytes (u.1, d)

inductive Line.Run (D : Device δ) (may : Option SerCall → Line δ → Prop) (l : Line δ) :
    List Byte → Line δ → Prop
  | refl : Run D may l [] l
  | call {bytes : List Byte} {m n : Line δ} {c : SerCall} (h : Run D may l bytes m)
      (hmay : may (some c) m) (hc : Call D c m n) : Run D may l (bytes ++ m.accepted c) n
  | device {bytes : List Byte} {m : Line δ} {d : δ} (h : Run D may l bytes m)
      (hmay : may none m) (hd : D.step m.dev d) : Run D may l bytes { m with dev := d }

theorem Line.Rep.line_eq (h : l.Rep base t) : line base t = l := by
  obtain ⟨⟨i, hring⟩, hbusy, hdev⟩ := h
  rw [line, hring.queued_eq, hbusy, hdev]

theorem SerRun.refines (h : SerRun D base may t bytes u) (hrep : l.Rep base t) :
    (line base u).Rep base u ∧ l.Run D may bytes (line base u) := by
  induction h with
  | refl =>
    rw [hrep.line_eq]
    exact ⟨hrep, .refl⟩
  | call _ hmay hc ih =>
    obtain ⟨m, hm, hrep'⟩ := (SerCall.wp ih.1).runs hc
    rw [hrep'.line_eq]
    exact ⟨hrep', .call ih.2 hmay hm⟩
  | device _ hmay hd ih =>
    obtain ⟨hring, hbusy, -⟩ := ih.1
    exact ⟨⟨hring, hbusy, rfl⟩, .device ih.2 hmay hd⟩

/-- The divisor goes to the ports of the divisor latch, whatever they stand for. -/
inductive InitDevice (D : Device δ) : δ → δ → Prop
  | mk {d d₁ d₂ d₃ d₄ d₅ d₆ d₇ d₈ : δ} {mask : Byte}
      (hbank : D.outb (comPort lcrOffset) 0x40 d d₁)
      (hlow : D.outb (comPort lsbyDivOffset) 12 d₁ d₂)
      (hhigh : D.outb (comPort msbyDivOffset) 0 d₂ d₃)
      (hformat : D.outb (comPort lcrOffset) 3 d₃ d₄)
      (hints : D.outb (comPort intEnRegOffset) 2 d₄ d₅)
      (hfifo : D.outb (comPort fifoCntrRegOffset) 0 d₅ d₆)
      (hmask : D.inb pic1DataPort d₆ mask d₇)
      (hline : D.outb pic1DataPort (mask &&& 0xEF) d₇ d₈) : InitDevice D d d₈

theorem serInit_wp {Q : Unit → DriverState × δ → Prop}
    (hQ : ∀ s' d', InitDevice D d d' → Rep base ⟨[], false, d'⟩ (s', d') → Q () (s', d')) :
    (serInit base).wp (InRing base) D.Exec Q (s, d) := by
  rw [serInit]
  apply writeSerReg_wp
  intro d₁ h₁
  apply writeSerReg_wp
  intro d₂ h₂
  apply writeSerReg_wp
  intro d₃ h₃
  apply writeSerReg_wp
  intro d₄ h₄
  apply writeSerReg_wp
  intro d₅ h₅
  apply writeSerReg_wp
  intro d₆ h₆
  refine store_wp (by simp) (store_wp (by simp) (store_wp (by simp) ?_))
  have he : irqEnableIndex com1IrqNum = .op (.inb pic1DataPort) fun mask =>
    .op (.outb pic1DataPort (mask &&& 0xEF)) fun _ => .ret () := rfl
  rw [he, wp_inb]
  refine ⟨⟨by simp, by simp, trivial⟩, fun mask d₇ h₇ => ?_⟩
  rw [wp_outb]
  refine ⟨⟨by simp, by simp, trivial⟩, fun d₈ h₈ => ?_⟩
  apply hQ _ _ (.mk h₁ h₂ h₃ h₄ h₅ h₆ h₇ h₈)
  refine ⟨⟨0, by simp, by simp, by simp [slot], by simp [slot], by simp⟩, by simp, rfl⟩

/-- A port on which the bytes written are recorded and anything may be read. -/
def recorder : Device (List Byte) where
  inb _ d _ d' := d' = d
  outb port val d d' := d' = if port = comPort tranOffset then d ++ [val] else d
  step _ _ := False

abbrev anything : Option SerCall → Line δ → Prop := fun _ _ => True

/-- What has been sent and what is queued, in this order. -/
def Line.sentQueued (l : Line (List Byte)) : List Byte := l.dev ++ l.queue

theorem Line.Poll.sentQueued {l m : Line (List Byte)} (h : Poll recorder l m) :
    m.sentQueued = l.sentQueued := by
  cases h with
  | idle => rfl
  | full _ hr _ =>
    obtain rfl := hr
    rfl
  | empty _ hr _ =>
    obtain rfl := hr
    rfl

theorem Line.Send.sentQueued {l m : Line (List Byte)} (h : Send recorder l m) :
    m.sentQueued = l.sentQueued := by
  cases h with
  | busy => rfl
  | none => rfl
  | next _ hq hw =>
    obtain rfl := hw
    simp [Line.sentQueued, hq]

theorem Line.Drain.sentQueued {l m : Line (List Byte)} (h : Drain recorder l m) :
    m.sentQueued = l.sentQueued := by
  induction h with
  | done => rfl
  | next hq hw _ ih =>
    obtain rfl := hw
    rw [ih]
    simp [Line.sentQueued, hq]

theorem Line.HwWrite.sentQueued {l m : Line (List Byte)} (h : HwWrite recorder l m) :
    m.sentQueued = l.sentQueued := by
  obtain ⟨hpoll, hsend⟩ := h
  rw [hsend.sentQueued, hpoll.sentQueued]

theorem Line.Call.sentQueued {l m : Line (List Byte)} (h : Call recorder c l m) :
    m.sentQueued = l.sentQueued ++ l.accepted c := by
  cases h with
  | write hw =>
    rw [hw.sentQueued]
    simp [Line.sentQueued, enqueue]
  | flush hd =>
    rw [hd.sentQueued]
    simp [accepted]
  | lineStatus hr _ hr' =>
    obtain rfl := hr
    obtain rfl := hr'
    simp [Line.sentQueued, accepted]
  | drained hr _ hw =>
    obtain rfl := hr
    rw [hw.sentQueued]
    simp [Line.sentQueued, accepted]
  | other hr =>
    obtain rfl := hr
    simp [Line.sentQueued, accepted]

theorem Line.Run.sentQueued {l m : Line (List Byte)} (h : l.Run recorder anything bytes m) :
    m.sentQueued = l.sentQueued ++ bytes := by
  induction h with
  | refl => simp
  | call _ _ hc ih => rw [hc.sentQueued, ih, List.append_assoc]
  | device _ _ hd => exact hd.elim

/-- No accepted byte is lost, duplicated or moved, and every call runs to its end. -/
theorem serial_fifo {base : Word} {s s' t : DriverState} {before sent accepted : List Byte}
    (hinit : (serInit base).Runs recorder.Exec (s, []) () (s', before))
    (hrun : SerRun recorder base anything (s', []) accepted (t, sent)) :
    sent ++ queued base t = accepted ∧
      ∀ c o u, (SerCall.prog base c).Performs recorder.Exec (t, sent) o u →
        o ≠ .halt ∧ o ≠ .fuel := by
  have hrep : Rep base ⟨[], false, []⟩ (s', ([] : List Byte)) := by
    have hwp : (serInit base).wp (InRing base) recorder.Exec
        (fun _ u => Rep base ⟨[], false, u.2⟩ u) (s, []) := serInit_wp fun _ _ _ h => h
    obtain ⟨hring, hbusy, -⟩ := hwp.runs hinit
    exact ⟨hring, hbusy, rfl⟩
  obtain ⟨hend, hline⟩ := hrun.refines hrep
  refine ⟨hline.sentQueued, fun c o u hp => ?_⟩
  have hdis := (SerCall.wp (c := c) hend).performs hp
  exact ⟨hdis.1, hdis.2.1⟩

/-- The transmitter is never empty when asked and reports itself drained. -/
def recorderStep : (o : Action) → DriverState × List Byte →
    Option (o.Res × (DriverState × List Byte)) :=
  Action.step (fun port d => (if port = comPort iirOffset then 2 else 0, d))
    fun port val d => if port = comPort tranOffset then d ++ [val] else d

theorem recorderStep_exec (o : Action) (s : DriverState × List Byte) (r : o.Res)
    (s' : DriverState × List Byte) (h : recorderStep o s = some (r, s')) :
    recorder.Exec o s r s' :=
  Action.exec_of_step (fun _ _ => rfl) (fun _ _ _ => rfl) o s r s' h

def initialised : DriverState × List Byte := (serInit 0x100000).final recorderStep (⟨0, zeroVars⟩, [])

def written : DriverState × List Byte :=
  (SerCall.prog 0x100000 (.write [0x41, 0x42])).final recorderStep (initialised.1, [])

theorem written_sent_and_queued : written.2 ++ queued 0x100000 written.1 = [0x41, 0x42] := by
  have hinit : (serInit 0x100000).Runs recorder.Exec (⟨0, zeroVars⟩, []) () initialised :=
    runs_final recorderStep_exec (by decide +kernel)
  have hwrite : (SerCall.prog 0x100000 (.write [0x41, 0x42])).Runs recorder.Exec
      (initialised.1, []) () written :=
    runs_final recorderStep_exec (by decide +kernel)
  have hacc : [] ++ (line 0x100000 (initialised.1, ([] : List Byte))).accepted
      (.write [0x41, 0x42]) = [0x41, 0x42] := by decide +kernel
  have hrun : SerRun recorder 0x100000 anything (initialised.1, []) [0x41, 0x42] written :=
    hacc ▸ .call .refl trivial hwrite
  exact (serial_fifo hinit hrun).1

end SkipOS
