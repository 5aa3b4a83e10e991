import SkipOS.Uart

/-! What the 16550 sends. The holding register is overwritten where `busy` does not know that it
is full: by `SER_init`'s divisor, and by and after `SER_flush`. -/

namespace SkipOS

open Prog Line

variable {base : Word} {l m : Line Uart} {d : Uart} {c : SerCall} {b : Byte}
  {q accepted bytes : List Byte} {busy : Bool}

/-- The steps that lose nothing: the divisor is overwritten before it is shifted out, output
starts on an empty register where `busy` is clear, and a flush has no more than that room. -/
def SafeStep : Option SerCall → Line Uart → Prop
  | none, l => 2 ≤ l.dev.written.length
  | some (.write buff), l => l.busy = false → l.queue ++ buff ≠ [] →
      l.dev.thr = none ∨ l.dev.written.length = 1
  | some .flush, l => l.queue ≠ [] → l.dev.thr = none ∧ l.queue.length = 1
  | some .irq, _ => True

/-- What has left the queue since the initialisation. -/
def Uart.out (d : Uart) : List Byte := d.shifted ++ d.thr.toList

/-- Only the divisor has been written, or every byte written since is sent or is next. -/
inductive Sending (accepted : List Byte) : Line Uart → Prop
  | fresh {l : Line Uart} (hb : l.busy = false) (hw : l.dev.written = [12])
      (ht : l.dev.thr = some 12) (hs : l.dev.shifted = []) (hq : l.queue = accepted) :
      Sending accepted l
  | started {l : Line Uart} (hne : l.dev.out ≠ []) (hw : l.dev.written = 12 :: l.dev.out)
      (hq : l.dev.out ++ l.queue = accepted) : Sending accepted l

structure InOrder (accepted : List Byte) (l : Line Uart) : Prop where
  ready : l.dev.Ready
  latch : l.dev.drained = true → l.dev.thr = none
  sending : Sending accepted l

theorem InOrder.clear (h : InOrder accepted l) : InOrder accepted { l with busy := false } := by
  obtain ⟨hready, hlatch, hsend⟩ := h
  refine ⟨hready, hlatch, ?_⟩
  cases hsend with
  | fresh hb hw ht hs hq => exact .fresh rfl hw ht hs hq
  | started hne hw hq => exact .started hne hw hq

theorem InOrder.enqueue (h : InOrder accepted l) (bytes : List Byte) :
    InOrder (accepted ++ bytes) (l.enqueue bytes) := by
  obtain ⟨hready, hlatch, hsend⟩ := h
  refine ⟨hready, hlatch, ?_⟩
  cases hsend with
  | fresh hb hw ht hs hq => exact .fresh hb hw ht hs (by rw [Line.enqueue, hq])
  | started hne hw hq => exact .started hne hw (by rw [Line.enqueue, ← List.append_assoc, hq])

/-- A byte of the queue that goes into an empty register, or over the divisor. -/
theorem InOrder.put (h : InOrder accepted l) (hq : l.queue = b :: q)
    (hroom : l.dev.thr = none ∨ l.dev.written.length = 1)
    (hw : uart.outb (comPort tranOffset) b l.dev d) : InOrder accepted ⟨q, busy, d⟩ := by
  obtain ⟨hready, -, hsend⟩ := h
  rw [hready.outb hw]
  refine ⟨⟨hready.bank, hready.enabled⟩, by simp, ?_⟩
  cases hsend with
  | fresh _ hwritten ht hs hacc =>
    apply Sending.started
    · simp [Uart.out]
    · simp [Uart.out, hwritten, hs]
    · simp [Uart.out, hs, ← hacc, hq]
  | started hne hwritten hacc =>
    have hthr : l.dev.thr = none := by
      rcases hroom with hroom | hroom
      · exact hroom
      · rw [hwritten, List.length_cons, Nat.add_eq_right, List.length_eq_zero_iff] at hroom
        exact absurd hroom hne
    simp only [Uart.out, hthr, Option.toList_none, List.append_nil] at hwritten hacc
    apply Sending.started
    · simp [Uart.out]
    · simp [Uart.out, hwritten]
    · simp [Uart.out, ← hacc, hq]

theorem Line.Poll.inOrder (h : Poll uart l m) (hin : InOrder accepted l)
    (hroom : l.busy = false → l.queue ≠ [] → l.dev.thr = none ∨ l.dev.written.length = 1) :
    InOrder accepted m ∧
      (m.busy = false → m.queue ≠ [] → m.dev.thr = none ∨ m.dev.written.length = 1) := by
  cases h with
  | idle _ => exact ⟨hin, hroom⟩
  | full hb hr _ =>
    obtain ⟨rfl, -⟩ := hr.lsr_inv
    exact ⟨hin, fun hf => absurd hf (by simp [hb])⟩
  | empty hb hr he =>
    obtain ⟨rfl, hbit⟩ := hr.lsr_inv
    refine ⟨hin.clear, fun _ _ => Or.inl ?_⟩
    by_contra hthr
    exact he (hbit.mpr hthr)

theorem Line.HwWrite.inOrder (h : HwWrite uart l m) (hin : InOrder accepted l)
    (hroom : l.busy = false → l.queue ≠ [] → l.dev.thr = none ∨ l.dev.written.length = 1) :
    InOrder accepted m := by
  obtain ⟨hpoll, hsend⟩ := h
  obtain ⟨hmid, hroom'⟩ := hpoll.inOrder hin hroom
  cases hsend with
  | busy => exact hmid
  | none => exact hmid
  | next hb hq hw => exact hmid.put hq (hroom' hb (by simp [hq])) hw

/-- One byte at most, and only into an empty register. -/
theorem Line.Drain.inOrder (h : Drain uart l m) (hin : InOrder accepted l)
    (hsafe : SafeStep (some .flush) l) : InOrder accepted m := by
  cases h with
  | done => exact hin.clear
  | next hq hw hrest =>
    obtain ⟨hthr, hone⟩ := hsafe (by simp [hq])
    rw [hq, List.length_cons, Nat.add_eq_right, List.length_eq_zero_iff] at hone
    subst hone
    have hput : InOrder accepted ⟨_, l.busy, _⟩ := hin.put hq (Or.inl hthr) hw
    cases hrest with
    | done => exact hput.clear
    | next hq' => cases hq'

theorem Line.Call.inOrder (h : Call uart c l m) (hin : InOrder accepted l)
    (hsafe : SafeStep (some c) l) : InOrder (accepted ++ l.accepted c) m := by
  cases h with
  | @write buff l m hw =>
    apply hw.inOrder (hin.enqueue _)
    intro hb hne
    apply hsafe hb
    contrapose! hne
    simp_all [enqueue, Line.accepted]
  | flush hd =>
    simpa [Line.accepted] using hd.inOrder hin hsafe
  | lineStatus hr hi hr' =>
    obtain ⟨rfl, -⟩ := hr'.lsr_inv
    rcases hr.iir_inv with ⟨-, htran, -⟩ | ⟨-, rfl⟩
    · rw [hi] at htran
      exact absurd htran (by decide)
    · simpa [Line.accepted] using hin
  | drained hr htran hw =>
    rcases hr.iir_inv with ⟨hlatch, -, rfl⟩ | ⟨hother, -⟩
    · have hthr := hin.latch hlatch
      have hmid : InOrder accepted
          { l with busy := false, dev := { l.dev with drained := false } } := by
        obtain ⟨hready, -, hsend⟩ := hin.clear
        refine ⟨⟨hready.bank, hready.enabled⟩, by simp, ?_⟩
        cases hsend with
        | fresh _ _ ht => exact absurd (hthr.symm.trans ht) (by simp)
        | started hne hw hq => exact .started hne hw hq
      simpa [Line.accepted] using hw.inOrder hmid fun _ _ => Or.inl hthr
    · exact absurd htran hother
  | other hr _ hi =>
    rcases hr.iir_inv with ⟨-, htran, -⟩ | ⟨-, rfl⟩
    · exact absurd htran hi
    · simpa [Line.accepted] using hin

theorem InOrder.shift (h : InOrder accepted l) (hd : Uart.Shift l.dev d)
    (hsafe : SafeStep none l) : InOrder accepted { l with dev := d } := by
  obtain ⟨hready, -, hsend⟩ := h
  obtain ⟨hthr⟩ := hd
  refine ⟨⟨hready.bank, hready.enabled⟩, fun _ => rfl, ?_⟩
  cases hsend with
  | fresh _ hw =>
    rw [SafeStep, hw] at hsafe
    exact absurd hsafe (by simp)
  | started hne hw hq =>
    simp only [Uart.out, hthr, Option.toList_some] at hne hw hq
    apply Sending.started
    · simp [Uart.out]
    · simpa [Uart.out] using hw
    · simpa [Uart.out] using hq

theorem Line.Run.inOrder (h : l.Run uart SafeStep bytes m) (hin : InOrder [] l) :
    InOrder bytes m := by
  induction h with
  | refl => exact hin
  | call _ hmay hc ih => exact hc.inOrder ih hmay
  | device _ hmay hd ih => exact ih.shift hd hmay

theorem Sending.shifted_accepted (h : Sending accepted l) : l.dev.shifted <+: accepted := by
  cases h with
  | fresh _ _ _ hs => simp [hs]
  | started _ _ hq =>
    rw [← hq, Uart.out, List.append_assoc]
    exact List.prefix_append _ _

theorem Sending.written_tail (h : Sending accepted l) : l.dev.written.tail ++ l.queue = accepted ∧
    (l.dev.written.tail = [] ∨ l.dev.written.tail = l.dev.out) := by
  cases h with
  | fresh _ hw _ _ hq => simpa [hw] using hq
  | started _ hw hq => simpa [hw] using hq

/-- In a run of safe steps what is shifted out is accepted output in its order. After the divisor
only accepted bytes are written, and none of them over another. -/
theorem shifted_in_order {base : Word} {t₀ t₁ t : DriverState × Uart} {accepted : List Byte}
    (hlog : t₀.2.written = [] ∧ t₀.2.shifted = [])
    (hinit : (serInit base).Runs uart.Exec t₀ () t₁)
    (hrun : SerRun uart base SafeStep t₁ accepted t) :
    t.2.shifted <+: accepted ∧ t.2.written.tail ++ queued base t.1 = accepted ∧
      (t.2.written.tail = [] ∨ t.2.written.tail = t.2.out) := by
  obtain ⟨-, hline⟩ := hrun.refines (serInit_uart hinit)
  have hstart : InOrder [] (⟨[], false,
      ⟨3, 2, some 12, false, t₀.2.written ++ [12], t₀.2.shifted⟩⟩ : Line Uart) := by
    refine ⟨⟨by simp, by simp⟩, by simp, .fresh rfl ?_ rfl hlog.2 rfl⟩
    simp [hlog.1]
  obtain ⟨-, -, hsend⟩ := hline.inOrder hstart
  exact ⟨hsend.shifted_accepted, hsend.written_tail⟩

def uartFilled : DriverState × Uart :=
  (SerCall.prog 0x100000 (.write [0x41])).final uartStep uartOn

def uartShifted : DriverState × Uart := (uartFilled.1,
  { uartFilled.2 with thr := none, drained := true, shifted := uartFilled.2.shifted ++ [0x41] })

theorem uartShifted_in_order : uartShifted.2.shifted <+: [0x41] ∧
    uartShifted.2.written.tail ++ queued 0x100000 uartShifted.1 = [0x41] ∧
      (uartShifted.2.written.tail = [] ∨ uartShifted.2.written.tail = uartShifted.2.out) := by
  have hwrite : (SerCall.prog 0x100000 (.write [0x41])).Runs uart.Exec uartOn () uartFilled :=
    runs_final uartStep_exec (by decide +kernel)
  have hsafe : SafeStep (some (.write [0x41])) (line 0x100000 uartOn) :=
    fun _ _ => Or.inr (by decide +kernel)
  have hacc : [] ++ (line 0x100000 uartOn).accepted (.write [0x41]) = [0x41] := by decide +kernel
  have hshift : 2 ≤ (line 0x100000 uartFilled).dev.written.length := by decide +kernel
  have hthr : uartFilled.2.thr = some 0x41 := by decide +kernel
  have hrun : SerRun uart 0x100000 SafeStep uartOn [0x41] uartShifted :=
    .device (hacc ▸ .call .refl hsafe hwrite) hshift (.mk hthr)
  exact shifted_in_order ⟨rfl, rfl⟩ uartOn_runs hrun

/-! What is asked of the holding register itself, in a run that includes `SER_init`. -/

/-- The program gets from `t` to `t'` and writes the holding register only when that is empty, and
only with accepted bytes. -/
def WritesAccepted (prog : Driver Unit) (accepted : List Byte) (t t' : DriverState × Uart) : Prop :=
  prog.Runs (fun o u r v => uart.Exec o u r v ∧ ∀ b, o = .outb (comPort tranOffset) b →
    u.2.lcr.getLsbD 7 = false → u.2.thr = none ∧ b ∈ accepted) t () t'

/-- A run from `SER_init` on, with what has been accepted, of which each step can be asked
something. The logs are empty before it. -/
inductive UartRun (base : Word) (t₀ : DriverState × Uart) :
    List Byte → DriverState × Uart → Type
  | init {t₁ : DriverState × Uart} (hlog : t₀.2.written = [] ∧ t₀.2.shifted = [])
      (h : (serInit base).Runs uart.Exec t₀ () t₁) : UartRun base t₀ [] t₁
  | call {accepted : List Byte} {u v : DriverState × Uart} (r : UartRun base t₀ accepted u)
      (c : SerCall) (h : (c.prog base).Runs uart.Exec u () v) :
      UartRun base t₀ (accepted ++ (line base u).accepted c) v
  | device {accepted : List Byte} {u : DriverState × Uart} {d : Uart}
      (r : UartRun base t₀ accepted u) (h : uart.step u.2 d) : UartRun base t₀ accepted (u.1, d)

/-- In every step what is written is accepted and overwrites nothing, and after every step what has
been shifted out is accepted output in its order. -/
def UartRun.SendsAccepted {base : Word} {t₀ : DriverState × Uart} :
    {accepted : List Byte} → {t : DriverState × Uart} → UartRun base t₀ accepted t → Prop
  | _, t, .init _ _ => WritesAccepted (serInit base) [] t₀ t ∧ t.2.shifted <+: []
  | _, t, @UartRun.call _ _ accepted u _ r c _ => r.SendsAccepted ∧
      WritesAccepted (c.prog base) (accepted ++ (line base u).accepted c) u t ∧
      t.2.shifted <+: accepted ++ (line base u).accepted c
  | _, _, @UartRun.device _ _ accepted _ d r _ => r.SendsAccepted ∧ d.shifted <+: accepted

/-- `SER_init` writes the divisor, whatever was in the registers before. -/
theorem serInit_writes_divisor (base : Word) (t₀ t₁ : DriverState × Uart) :
    ¬ WritesAccepted (serInit base) [] t₀ t₁ := by
  intro h
  obtain ⟨_, u, ⟨hbank, -⟩, hrest⟩ := runs_op_iff.mp h
  obtain ⟨_, _, ⟨-, hkept⟩, -⟩ := runs_op_iff.mp hrest
  have hu : u.2 = t₀.2.writePort (comPort lcrOffset) 0x40 := hbank.1
  have hlatch : u.2.lcr.getLsbD 7 = false := by
    rw [hu, Uart.writePort_lcr]
    exact (by decide : (0x40 : Byte).getLsbD 7 = false)
  exact absurd (hkept 12 rfl hlatch).2 List.not_mem_nil

/-- No run has it: each begins with the divisor in the holding register. -/
theorem divisor_in_every_run {base : Word} {t₀ t : DriverState × Uart} {accepted : List Byte}
    (r : UartRun base t₀ accepted t) : ¬ r.SendsAccepted := by
  induction r with
  | init _ _ => exact fun h => serInit_writes_divisor base t₀ _ h.1
  | call r c _ ih => exact fun h => ih h.1
  | device r _ ih => exact fun h => ih h.1

theorem divisor_in_first_run :
    ∃ r : UartRun 0x100000 uartOff [] uartOn, ¬ r.SendsAccepted :=
  ⟨.init ⟨rfl, rfl⟩ uartOn_runs, divisor_in_every_run _⟩

/-- The divisor is shifted out though nothing has been accepted. -/
theorem divisor_shifted_out : ¬ ∀ (base : Word) (t₀ t₁ t : DriverState × Uart)
      (accepted : List Byte),
    t₀.2.written = [] ∧ t₀.2.shifted = [] → (serInit base).Runs uart.Exec t₀ () t₁ →
      SerRun uart base anything t₁ accepted t → t.2.shifted <+: accepted := by
  intro h
  have hthr : uartOn.2.thr = some 12 := by decide +kernel
  have hrun : SerRun uart 0x100000 anything uartOn [] (uartOn.1, _) :=
    .device .refl trivial (.mk hthr)
  have hout := h 0x100000 uartOff uartOn _ [] ⟨rfl, rfl⟩ uartOn_runs hrun
  simp at hout

end SkipOS
