import SkipOS.SerialRun

/-! The serial driver from boot on. Until `SER_init` has run both pointers of the ring are NULL,
and the first byte printed is stored through them. -/

namespace SkipOS

open Prog Line

inductive BootCall where
  | init
  | ser (c : SerCall)

def BootCall.prog (base : Word) : BootCall → Driver Unit
  | .init => serInit base
  | .ser c => c.prog base

variable {δ : Type} {D : Device δ} {base : Word} {s : DriverState} {d : δ} {b : Byte}
  {buff : List Byte} {t u v : DriverState × δ} {calls : List BootCall} {c : SerCall}
  {ok : Action → DriverState × δ → Prop}

inductive BootRun (D : Device δ) (base : Word) (t : DriverState × δ) :
    List BootCall → DriverState × δ → Prop
  | boot : BootRun D base t [] t
  | call {calls : List BootCall} {u v : DriverState × δ} {c : BootCall}
      (h : BootRun D base t calls u) (hc : (c.prog base).Runs D.Exec u () v) :
      BootRun D base t (calls ++ [c]) v
  | device {calls : List BootCall} {u : DriverState × δ} {d : δ} (h : BootRun D base t calls u)
      (hd : D.step u.2 d) : BootRun D base t calls (u.1, d)

/-- `ser_state` as it is loaded. -/
structure ZeroInitialised (s : DriverState) : Prop where
  consumer : s.vars .serC = 0
  producer : s.vars .serP = 0
  busy : s.vars .serBusy = false

/-- Nothing is given to `SER_write` before the first `SER_init`. -/
def Prepared (calls : List BootCall) : Prop :=
  ∀ before buff after, calls = before ++ .ser (.write buff) :: after → buff ≠ [] → .init ∈ before

theorem initHwWrite_zero_wp (h : ZeroInitialised s) {Q : Unit → DriverState × δ → Prop}
    (hQ : Q () (s, d)) : (initHwWrite base).wp (InRing base) D.Exec Q (s, d) := by
  rw [initHwWrite]
  refine load_wp (by simp) ?_
  rw [h.busy, Prog.when, if_neg (by simp), ret_bind]
  refine load_wp (by simp) ?_
  rw [h.busy, if_neg (by simp)]
  apply wp_bind
  apply consume_empty_wp (h.consumer.trans h.producer.symm)
  exact hQ

theorem SerCall.zero_wp (h : ZeroInitialised s) (hc : ∀ buff, c = .write buff → buff = []) :
    (c.prog base).wp (InRing base) D.Exec (fun _ t => ZeroInitialised t.1) (s, d) := by
  have hclear : ZeroInitialised (s.set .serBusy false) := by
    refine ⟨?_, ?_, ?_⟩
    · simpa using h.consumer
    · simpa using h.producer
    · simp
  cases c with
  | write buff =>
    obtain rfl := hc buff rfl
    rw [SerCall.prog, serWrite, nestedSafe_eq, wp_pushfq]
    refine ⟨⟨by simp, by simp, trivial⟩, ?_⟩
    apply wp_bind
    exact initHwWrite_zero_wp h h
  | flush =>
    rw [SerCall.prog, serFlush, nestedSafe_eq, wp_pushfq]
    refine ⟨⟨by simp, by simp, trivial⟩, ?_⟩
    apply wp_bind
    rw [flushLoop]
    apply wp_bind
    apply wp_bind
    apply consume_empty_wp (h.consumer.trans h.producer.symm)
    exact wp_store.mpr ⟨disciplined_store (by simp), hclear⟩
  | irq =>
    apply serIrqHandler_wp
    · intro _ _ _ _ _ _ _
      exact h
    · intro _ _ _ _
      exact initHwWrite_zero_wp hclear hclear
    · intro _ _ _ _ _
      exact h

theorem produce_null (h : ZeroInitialised s) {Q : Bool → DriverState × δ → Prop}
    (hwp : (produce base b).wp ok D.Exec Q (s, d)) : ok (.store (.byte 0) b) (s, d) := by
  have hroom : (0#64 = buffSize - 1#64) = False := by decide
  simp [produce, assertInterruptsOff, irqAreInterruptsEnabled_eq, driverAssert, isBuffFull, load,
    store, Prog.perform, h.consumer, h.producer, hroom] at hwp
  obtain ⟨-, -, -, -, -, -, hstore, -⟩ := hwp
  rwa [h.producer] at hstore

theorem serWrite_null (h : ZeroInitialised s) {Q : Unit → DriverState × δ → Prop}
    (hwp : (serWrite base (b :: buff)).wp ok D.Exec Q (s, d)) :
    ok (.store (.byte 0) b) (s, d) := by
  rw [serWrite, nestedSafe_eq, wp_pushfq, writeLoop] at hwp
  exact produce_null h (wp_bind_iff.mp (wp_bind_iff.mp (wp_bind_iff.mp hwp.2)))

/-- While nothing is printed too early the ring is either untouched or set up. -/
theorem BootRun.state (h : BootRun D base t calls u) (hzero : ZeroInitialised t.1)
    (hprep : Prepared calls) :
    (.init ∉ calls ∧ ZeroInitialised u.1) ∨ (.init ∈ calls ∧ ∃ l, Line.Rep base l u) := by
  induction h with
  | boot => exact Or.inl ⟨by simp, hzero⟩
  | @call calls u v c hrun hc ih =>
    obtain ⟨s, d⟩ := u
    have hbefore : Prepared calls := by
      intro before buff after he hne
      apply hprep before buff (after ++ [c]) _ hne
      simp [he]
    cases c with
    | init =>
      right
      have hwp : (serInit base).wp (InRing base) D.Exec (fun _ v => ∃ l, Line.Rep base l v) (s, d) :=
        serInit_wp fun _ _ _ hrep => ⟨_, hrep⟩
      exact ⟨by simp, hwp.runs hc⟩
    | ser c =>
      rcases ih hbefore with ⟨hno, hs⟩ | ⟨hinit, l, hrep⟩
      · left
        have hempty : ∀ buff, c = .write buff → buff = [] := by
          rintro buff rfl
          by_contra hne
          exact hno (hprep calls buff [] rfl hne)
        exact ⟨by simp [hno], (SerCall.zero_wp hs hempty).runs hc⟩
      · right
        obtain ⟨m, -, hrep'⟩ := (SerCall.wp hrep).runs hc
        exact ⟨by simp [hinit], m, hrep'⟩
  | @device _ _ d _ _ ih =>
    rcases ih hprep with hs | ⟨hinit, l, hring, hbusy, -⟩
    · exact Or.inl hs
    · exact Or.inr ⟨hinit, { l with dev := d }, hring, hbusy, rfl⟩

/-- After calls that printed nothing too early, the next call stays inside the buffer exactly if
it does not print too early either. -/
theorem boot_accesses_inside_iff {δ : Type} {D : Device δ} {base : Word} {t u : DriverState × δ}
    {calls : List BootCall} {c : BootCall} (hnull : ¬ InBuffer base 0)
    (hzero : ZeroInitialised t.1) (hrun : BootRun D base t calls u) (hprep : Prepared calls) :
    (∀ o v, (c.prog base).Performs D.Exec u o v → o.InBuffer base) ↔ Prepared (calls ++ [c]) := by
  obtain ⟨s, d⟩ := u
  constructor
  · intro hin before buff after he hne
    rcases List.eq_nil_or_concat after with rfl | ⟨after, last, rfl⟩
    · obtain ⟨rfl, hc⟩ := List.append_inj' he rfl
      obtain rfl : c = .ser (.write buff) := by simpa using hc
      by_contra hno
      rcases hrun.state hzero hprep with ⟨-, hs⟩ | ⟨hinit, -⟩
      · obtain ⟨b, buff, rfl⟩ := List.exists_cons_of_ne_nil hne
        have hwp : (serWrite base (b :: buff)).wp (fun o _ => o.InBuffer base) D.Exec
            (fun _ _ => True) (s, d) := wp_iff.mpr ⟨hin, fun _ _ _ => trivial⟩
        exact hnull (serWrite_null hs hwp)
      · exact hno hinit
    · have hsplit : calls ++ [c] = (before ++ .ser (.write buff) :: after) ++ [last] := by
        simpa using he
      exact hprep before buff after (List.append_inj' hsplit rfl).1 hne
  · intro hnext o v hp
    cases c with
    | init =>
      have hwp : (serInit base).wp (InRing base) D.Exec (fun _ _ => True) (s, d) :=
        serInit_wp fun _ _ _ _ => trivial
      exact (hwp.performs hp).2.2
    | ser c =>
      rcases hrun.state hzero hprep with ⟨hno, hs⟩ | ⟨-, l, hrep⟩
      · have hempty : ∀ buff, c = .write buff → buff = [] := by
          rintro buff rfl
          by_contra hne
          exact hno (hnext calls buff [] rfl hne)
        exact ((SerCall.zero_wp hs hempty).performs hp).2.2
      · exact ((SerCall.wp hrep).performs hp).2.2

def recorderOff : DriverState × List Byte := (⟨0, zeroVars⟩, [])

theorem recorderOff_zero : ZeroInitialised recorderOff.1 := ⟨rfl, rfl, rfl⟩

theorem initialised_accesses_inside :
    (∀ o v, ((BootCall.ser (.write [0x41])).prog 0x100000).Performs recorder.Exec
      initialised o v → o.InBuffer 0x100000) ↔
    Prepared [.init, .ser (.write [0x41])] := by
  have hinit : (serInit 0x100000).Runs recorder.Exec recorderOff () initialised :=
    runs_final recorderStep_exec (by decide +kernel)
  have hnull : ¬ InBuffer 0x100000 0 := by
    rw [InBuffer]
    decide
  have hprep : Prepared [.init] := by
    rintro (_ | ⟨_, _ | ⟨_, _⟩⟩) buff after he <;> simp at he
  exact boot_accesses_inside_iff hnull recorderOff_zero (.call (c := .init) .boot hinit) hprep

/-- The first byte that `kernel_main` prints, before `SER_init`, is stored at address 0. -/
theorem first_byte_at_null : ¬ ∀ (base : Word) (t u : DriverState × List Byte)
    (calls : List BootCall) (c : BootCall), ¬ InBuffer base 0 → ZeroInitialised t.1 →
    BootRun recorder base t calls u →
    ∀ o v, (c.prog base).Performs recorder.Exec u o v → o.InBuffer base := by
  intro h
  have hnull : ¬ InBuffer 0x100000 0 := by
    rw [InBuffer]
    decide
  have hin := h 0x100000 recorderOff recorderOff [] (.ser (.write [0x0A])) hnull recorderOff_zero
    .boot
  have hwp : (serWrite 0x100000 [0x0A]).wp (fun o _ => o.InBuffer 0x100000) recorder.Exec
      (fun _ _ => True) recorderOff := wp_iff.mpr ⟨hin, fun _ _ _ => trivial⟩
  exact hnull (serWrite_null recorderOff_zero hwp)

end SkipOS
