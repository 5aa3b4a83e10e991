import SkipOS.SerialRing

/-! The serial driver as a queue of bytes in front of a device. Every call takes the ring
buffer and the device through the steps of that line. -/

namespace SkipOS

open Prog

inductive SerCall where
  | write (buff : List Byte)
  | flush
  | irq

/-- `SER_flush` needs no more rounds than there are slots. The handler is entered for
`COM1_IRQ_NUM` only. -/
def SerCall.prog (base : Word) : SerCall → Driver Unit
  | .write buff => serWrite base buff
  | .flush => serFlush base 1024
  | .irq => serIrqHandler base com1IrqNum

structure Line (δ : Type) where
  queue : List Byte
  busy : Bool
  dev : δ

variable {δ : Type} {D : Device δ} {base : Word} {l m : Line δ} {s : DriverState} {d : δ}
  {t : DriverState × δ} {i : Nat} {q buff : List Byte} {c : SerCall}

namespace Line

/-- Whether the transmitter is empty is asked only while the line is busy. -/
inductive Poll (D : Device δ) : Line δ → Line δ → Prop
  | idle {l : Line δ} (hb : l.busy = false) : Poll D l l
  | full {l : Line δ} {r : Byte} {d : δ} (hb : l.busy = true)
      (hr : D.inb (comPort lsrOffset) l.dev r d) (he : r &&& 0x20 = 0) :
      Poll D l { l with dev := d }
  | empty {l : Line δ} {r : Byte} {d : δ} (hb : l.busy = true)
      (hr : D.inb (comPort lsrOffset) l.dev r d) (he : r &&& 0x20 ≠ 0) :
      Poll D l { l with busy := false, dev := d }

inductive Send (D : Device δ) : Line δ → Line δ → Prop
  | busy {l : Line δ} (hb : l.busy = true) : Send D l l
  | none {l : Line δ} (hb : l.busy = false) (hq : l.queue = []) : Send D l l
  | next {l : Line δ} {b : Byte} {q : List Byte} {d : δ} (hb : l.busy = false)
      (hq : l.queue = b :: q) (hw : D.outb (comPort tranOffset) b l.dev d) : Send D l ⟨q, true, d⟩

inductive HwWrite (D : Device δ) : Line δ → Line δ → Prop
  | mk {l m n : Line δ} (hp : Poll D l m) (hs : Send D m n) : HwWrite D l n

/-- One slot of the buffer stays unused. -/
def accepted (l : Line δ) : SerCall → List Byte
  | .write buff => buff.take (1023 - l.queue.length)
  | _ => []

def enqueue (l : Line δ) (bytes : List Byte) : Line δ := { l with queue := l.queue ++ bytes }

inductive Drain (D : Device δ) : Line δ → Line δ → Prop
  | done {l : Line δ} (hq : l.queue = []) : Drain D l { l with busy := false }
  | next {l m : Line δ} {b : Byte} {q : List Byte} {d : δ} (hq : l.queue = b :: q)
      (hw : D.outb (comPort tranOffset) b l.dev d) (h : Drain D ⟨q, l.busy, d⟩ m) : Drain D l m

inductive Call (D : Device δ) : SerCall → Line δ → Line δ → Prop
  | write {buff : List Byte} {l m : Line δ}
      (h : HwWrite D (l.enqueue (l.accepted (.write buff))) m) : Call D (.write buff) l m
  | flush {l m : Line δ} (h : Drain D l m) : Call D .flush l m
  | lineStatus {l : Line δ} {r r' : Byte} {d d' : δ} (hr : D.inb (comPort iirOffset) l.dev r d)
      (hi : (r >>> 1) &&& 0xFF = 0b11) (hr' : D.inb (comPort lsrOffset) d r' d') :
      Call D .irq l { l with dev := d' }
  | drained {l m : Line δ} {r : Byte} {d : δ} (hr : D.inb (comPort iirOffset) l.dev r d)
      (hi : (r >>> 1) &&& 0xFF = 0b01) (h : HwWrite D { l with busy := false, dev := d } m) :
      Call D .irq l m
  | other {l : Line δ} {r : Byte} {d : δ} (hr : D.inb (comPort iirOffset) l.dev r d)
      (hl : (r >>> 1) &&& 0xFF ≠ 0b11) (hi : (r >>> 1) &&& 0xFF ≠ 0b01) :
      Call D .irq l { l with dev := d }

/-- The buffer, the flag and the device of the driver are those of the line. -/
structure Rep (base : Word) (l : Line δ) (t : DriverState × δ) : Prop where
  ring : ∃ i, SerRep base t.1 i l.queue
  busy : t.1.vars .serBusy = l.busy
  dev : t.2 = l.dev

end Line

open Line

theorem initHwWrite_poll_wp (h : l.Rep base (s, d)) {R : Unit → DriverState × δ → Prop}
    (hR : ∀ m t, Poll D l m → m.Rep base t → R () t) :
    (Prog.when (s.vars .serBusy = true) (readSerReg lsrOffset >>= fun lsr =>
      Prog.when (lsr &&& 0x20 ≠ 0) (store .serBusy false))).wp (InRing base) D.Exec R (s, d) := by
  have hbusy := h.busy
  have hdev : d = l.dev := h.dev
  obtain ⟨i, hring⟩ := h.ring
  apply wp_when
  · intro hb
    have hb' : l.busy = true := hbusy.symm.trans hb
    apply readSerReg_wp
    intro r d' hr
    rw [hdev] at hr
    apply wp_when
    · intro hempty
      apply wp_store.mpr
      refine ⟨disciplined_store (by simp), hR _ _ (.empty hb' hr hempty) ⟨⟨i, ?_⟩, ?_, rfl⟩⟩
      · exact hring.congr (by simp) (by simp) fun a => by simp
      · simp
    · intro hfull
      exact hR _ _ (.full hb' hr (not_not.mp hfull)) ⟨⟨i, hring⟩, hbusy, rfl⟩
  · intro hb
    exact hR _ _ (.idle (hbusy.symm.trans (Bool.eq_false_iff.mpr hb))) ⟨⟨i, hring⟩, hbusy, hdev⟩

theorem initHwWrite_wp (h : l.Rep base t) :
    (initHwWrite base).wp (InRing base) D.Exec
      (fun _ t' => ∃ m, HwWrite D l m ∧ m.Rep base t') t := by
  obtain ⟨s, d⟩ := t
  rw [initHwWrite]
  refine load_wp (by simp) ?_
  apply wp_bind
  apply initHwWrite_poll_wp h
  rintro m ⟨s, d⟩ hpoll hm
  have hbusy : s.vars .serBusy = m.busy := hm.busy
  have hdev : d = m.dev := hm.dev
  obtain ⟨i, hring⟩ := hm.ring
  refine load_wp (by simp) ?_
  cases hb : m.busy with
  | true =>
    rw [if_pos (hbusy.trans hb)]
    exact ⟨m, ⟨hpoll, .busy hb⟩, hm⟩
  | false =>
    rw [if_neg (by simp [hbusy, hb])]
    apply wp_bind
    cases hq : m.queue with
    | nil =>
      rw [hq] at hring
      apply consume_empty_wp (hring.empty_iff.mpr rfl)
      exact ⟨m, ⟨hpoll, .none hb hq⟩, hm⟩
    | cons b q =>
      rw [hq] at hring
      apply consume_wp hring
      intro s' hring' _
      refine store_wp (by simp) ?_
      apply wp_outb.mpr
      refine ⟨⟨by simp, by simp, trivial⟩, fun d' hw => ?_⟩
      refine ⟨⟨q, true, d'⟩, ⟨hpoll, .next hb hq ?_⟩, ?_⟩
      · rw [← hdev]
        exact hw
      · refine ⟨⟨_, hring'.congr (by simp) (by simp) fun a => by simp⟩, by simp, rfl⟩

theorem writeLoop_wp (h : l.Rep base t) {Q : Unit → DriverState × δ → Prop}
    (hQ : ∀ t', (l.enqueue (l.accepted (.write buff))).Rep base t' → Q () t') :
    (writeLoop base buff).wp (InRing base) D.Exec Q t := by
  induction buff generalizing l t with
  | nil =>
    apply hQ
    simpa [enqueue, accepted] using h
  | cons b buff ih =>
    obtain ⟨s, d⟩ := t
    obtain ⟨⟨i, hring⟩, hbusy, hdev⟩ := h
    have hlen := hring.length_lt
    rw [writeLoop]
    apply wp_bind
    apply produce_wp hring
    · intro hfull
      rw [if_neg (by simp)]
      apply hQ
      have he : l.enqueue (l.accepted (.write (b :: buff))) = l := by
        simp [enqueue, accepted, hfull]
      rw [he]
      exact ⟨⟨i, hring⟩, hbusy, hdev⟩
    · intro hroom s' hring' hbusy'
      rw [if_pos rfl]
      have hrep : (l.enqueue [b]).Rep base (s', d) := ⟨⟨i, hring'⟩, hbusy'.trans hbusy, hdev⟩
      apply ih hrep
      have he : (l.enqueue [b]).enqueue ((l.enqueue [b]).accepted (.write buff)) =
          l.enqueue (l.accepted (.write (b :: buff))) := by
        have hsucc : 1023 - l.queue.length = 1023 - (l.queue.length + 1) + 1 := by omega
        simp [enqueue, accepted, hsucc]
      intro t' ht'
      rw [he] at ht'
      exact hQ t' ht'

theorem flushLoop_wp {fuel : Nat} (h : l.Rep base t) (hfuel : l.queue.length < fuel)
    {Q : Unit → DriverState × δ → Prop}
    (hQ : ∀ (m : Line δ) t', (∀ n, Drain D m n → Drain D l n) → m.queue = [] →
      m.Rep base t' → Q () t') :
    (flushLoop base fuel).wp (InRing base) D.Exec Q t := by
  induction fuel generalizing l t with
  | zero => omega
  | succ fuel ih =>
    obtain ⟨s, d⟩ := t
    obtain ⟨⟨i, hring⟩, hbusy, hdev⟩ := h
    rw [flushLoop]
    apply wp_bind
    cases hq : l.queue with
    | nil =>
      rw [hq] at hring
      apply consume_empty_wp (hring.empty_iff.mpr rfl)
      apply hQ l _ (fun _ h => h) hq
      rw [← hq] at hring
      exact ⟨⟨i, hring⟩, hbusy, hdev⟩
    | cons b q =>
      rw [hq] at hring hfuel
      apply consume_wp hring
      intro s' hring' hbusy'
      apply writeSerReg_wp
      intro d' hw
      have hrep : Line.Rep base ⟨q, l.busy, d'⟩ (s', d') := ⟨⟨_, hring'⟩, hbusy'.trans hbusy, rfl⟩
      apply ih hrep
      · simpa using hfuel
      · intro m t' hm
        exact hQ m t' fun n hn => .next hq (hdev ▸ hw) (hm n hn)

theorem SerCall.wp (h : l.Rep base t) :
    (c.prog base).wp (InRing base) D.Exec (fun _ t' => ∃ m, Call D c l m ∧ m.Rep base t') t := by
  obtain ⟨s, d⟩ := t
  cases c with
  | write buff =>
    rw [SerCall.prog, serWrite, nestedSafe_eq, wp_pushfq]
    refine ⟨⟨by simp, by simp, trivial⟩, ?_⟩
    apply wp_bind
    apply wp_bind
    apply writeLoop_wp h
    intro t' ht'
    apply wp_mono (initHwWrite_wp ht')
    rintro - t'' ⟨m, hm, ht''⟩
    exact ⟨m, .write hm, ht''⟩
  | flush =>
    obtain ⟨i, hring⟩ := h.ring
    rw [SerCall.prog, serFlush, nestedSafe_eq, wp_pushfq]
    refine ⟨⟨by simp, by simp, trivial⟩, ?_⟩
    apply wp_bind
    apply wp_bind
    apply flushLoop_wp h hring.length_lt
    rintro m ⟨s', d'⟩ hdrain hq ⟨⟨j, hring'⟩, -, hdev⟩
    refine wp_store.mpr ⟨disciplined_store (by simp), _, .flush (hdrain _ (.done hq)), ?_⟩
    exact ⟨⟨j, hring'.congr (by simp) (by simp) fun a => by simp⟩, by simp, hdev⟩
  | irq =>
    obtain ⟨⟨i, hring⟩, hbusy, hdev⟩ := h
    obtain rfl : d = l.dev := hdev
    apply serIrqHandler_wp
    · intro r d₁ r' d₂ hr hl hr'
      exact ⟨_, .lineStatus hr hl hr', ⟨⟨i, hring⟩, hbusy, rfl⟩⟩
    · intro r d₁ hr hi
      have hrep : Line.Rep base { l with busy := false, dev := d₁ } (s.set .serBusy false, d₁) :=
        ⟨⟨i, hring.congr (by simp) (by simp) fun a => by simp⟩, by simp, rfl⟩
      apply wp_mono (initHwWrite_wp hrep)
      rintro - t' ⟨m, hm, ht'⟩
      exact ⟨m, .drained hr hi hm, ht'⟩
    · intro r d₁ hr hl hi
      exact ⟨_, .other hr hl hi, ⟨⟨i, hring⟩, hbusy, rfl⟩⟩

end SkipOS
