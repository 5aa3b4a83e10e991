import SkipOS.KbdHandler
import SkipOS.KernelMain
import SkipOS.Rendering
import SkipOS.SerialRun

/-! The console: `printk`, the keys and the serial line on one machine do what a terminal does that
has a page, a queue of bytes and the state of the shift keys. -/

namespace SkipOS

open Prog Line

structure Terminal (δ : Type) where
  page : Page
  line : Line δ
  kbd : KbdState

/-- `items` is what `fmt` and `args` are read as. -/
inductive ConsoleEvent where
  | print (fmt : CString) (args : List Arg) (items : List Item)
  | interrupt (irqNum : Byte) (error : BitVec 32)
  | flush

/-- The handlers after `kernel_main` has installed its own. -/
def KernelData.handlers (k : KernelData) (irqTable : IrqTable) : IrqTable :=
  k.afterVp (k.afterSer (k.afterKbd irqTable))

def ConsoleEvent.prog (k : KernelData) (irqTable : IrqTable) : ConsoleEvent → Driver Unit
  | .print fmt args _ => do
    let _ ← Console.printk k.serBuff (some fmt) args
  | .interrupt irqNum error => isrHelper (k.handlers irqTable) irqNum error
  | .flush => serFlush k.serBuff 1024

/-- Text whose directives have their arguments, and the interrupts of the two devices. -/
def ConsoleEvent.Regular : ConsoleEvent → Prop
  | .print fmt args items => Reads fmt.bytes args items []
  | .interrupt irqNum _ => irqNum = kbdIntNum ∨ irqNum = com1IrqNum
  | .flush => True

/-- Events, each in one piece, and steps of the devices. -/
inductive ConsoleRun {δ : Type} (D : Device δ) (k : KernelData) (irqTable : IrqTable)
    (t : DriverState × δ) : List ConsoleEvent → DriverState × δ → Prop
  | refl : ConsoleRun D k irqTable t [] t
  | event {es : List ConsoleEvent} {e : ConsoleEvent} {u v : DriverState × δ}
      (h : ConsoleRun D k irqTable t es u) (hreg : e.Regular)
      (hrun : (e.prog k irqTable).Runs D.Exec u () v) : ConsoleRun D k irqTable t (es ++ [e]) v
  | device {es : List ConsoleEvent} {u : DriverState × δ} {d : δ}
      (h : ConsoleRun D k irqTable t es u) (hd : D.step u.2 d) :
      ConsoleRun D k irqTable t es (u.1, d)

/-- The state of the keyboard is where `serial.c` does not write. -/
structure KernelData.Apart (k : KernelData) : Prop where
  notNull : k.kdbState ≠ 0
  shift : ¬ InBuffer k.serBuff k.kdbState
  release : ¬ InBuffer k.serBuff (k.kdbState + 1)

/-! The terminal. -/

/-- The buffers given to `SER_write`. -/
def writes (calls : List PrintCall) : List (List Byte) :=
  calls.flatMap fun
    | .vgaDisplayChar _ => []
    | .serWrite buff => [buff]

def Page.perform (pg : Page) : VgaCall → Page
  | .display c => pg.display c
  | .backspace => pg.backspace

inductive Line.Writes {δ : Type} (D : Device δ) : List (List Byte) → Line δ → Line δ → Prop
  | nil {l : Line δ} : Writes D [] l l
  | cons {buff : List Byte} {buffs : List (List Byte)} {l m n : Line δ}
      (h : Call D (.write buff) l m) (hs : Writes D buffs m n) : Writes D (buff :: buffs) l n

/-- An interrupt ends with a command to both controllers, whichever had it. -/
def Eoi {δ : Type} (D : Device δ) (d d' : δ) : Prop :=
  ∃ d₁, D.outb pic2CmdPort eoiCmd d d₁ ∧ D.outb pic1CmdPort eoiCmd d₁ d'

namespace Terminal

variable {δ : Type}

def withDev (T : Terminal δ) (dev : δ) : Terminal δ :=
  { T with line := { T.line with dev := dev } }

/-- A byte from the keyboard. -/
def press (T : Terminal δ) (behind : List ScodeMapElem) (scode : Byte) (dev : δ) : Terminal δ where
  page := (T.kbd.calls behind scode).foldl Page.perform T.page
  line := { T.line with dev := dev }
  kbd := T.kbd.recv scode

inductive Step (D : Device δ) (behind : List ScodeMapElem) :
    ConsoleEvent → Terminal δ → Terminal δ → Prop
  | print {T : Terminal δ} {fmt : CString} {args : List Arg} {items : List Item} {m : Line δ}
      (hread : Reads fmt.bytes args items [])
      (h : Writes D (writes (items.flatMap Item.calls)) T.line m) :
      Step D behind (.print fmt args items) T
        ⟨(items.flatMap Item.shown).foldl Page.display T.page, m, T.kbd⟩
  | key {T : Terminal δ} {error : BitVec 32} {scode : Byte} {d d' : δ}
      (hin : D.inb ioP1 T.line.dev scode d) (heoi : Eoi D d d') :
      Step D behind (.interrupt kbdIntNum error) T (T.press behind scode d')
  | serial {T : Terminal δ} {error : BitVec 32} {m : Line δ} {d : δ} (h : Call D .irq T.line m)
      (heoi : Eoi D m.dev d) :
      Step D behind (.interrupt com1IrqNum error) T (withDev { T with line := m } d)
  | flush {T : Terminal δ} {m : Line δ} (h : Call D .flush T.line m) :
      Step D behind .flush T { T with line := m }

inductive Run (D : Device δ) (behind : List ScodeMapElem) (T : Terminal δ) :
    List ConsoleEvent → Terminal δ → Prop
  | refl : Run D behind T [] T
  | event {es : List ConsoleEvent} {e : ConsoleEvent} {U V : Terminal δ}
      (h : Run D behind T es U) (hs : Step D behind e U V) : Run D behind T (es ++ [e]) V
  | device {es : List ConsoleEvent} {U : Terminal δ} {d : δ} (h : Run D behind T es U)
      (hd : D.step U.line.dev d) : Run D behind T es (U.withDev d)

/-- The machine shows the page, has the queue in its buffer and the keys in `kdb_state`. -/
structure Rep (k : KernelData) (T : Terminal δ) (t : DriverState × δ) : Prop where
  page : Draws T.page t.1
  line : T.line.Rep k.serBuff t
  kbd : kbdState k.kdbState t.1 = T.kbd

end Terminal

/-- No assertion fails and no bound on iterations is reached. -/
abbrev Sound {δ : Type} : Action → DriverState × δ → Prop := fun o _ => o ≠ .halt ∧ o ≠ .fuel

variable {δ : Type} {D : Device δ} {k : KernelData} {T : Terminal δ} {t u : DriverState × δ}
  {s s' : DriverState} {d : δ} {pg : Page} {base arg : Word} {l : Line δ}
  {behind : List ScodeMapElem} {irqTable : IrqTable} {es : List ConsoleEvent} {e : ConsoleEvent}
  {i : Nat} {q : List Byte}

/-! What the screen and the serial line leave alone of each other. -/

theorem Draws.congr (h : Draws pg s) (he : ∀ v : Var, v.OnScreen → s'.vars v = s.vars v) :
    Draws pg s' := by
  have hx := he .xPos trivial
  have hy := he .yPos trivial
  have hc := he .cursor trivial
  obtain ⟨⟨hcol, hrow, hfull, hcells, hbelow⟩, hin, hcur⟩ := h
  refine ⟨⟨?_, ?_, ?_, fun r c hr hc => ?_, hbelow⟩, ?_, ?_⟩
  · rwa [hx]
  · rwa [hy]
  · rwa [hy]
  · rw [← hcells r c hr hc]
    exact he (.vgaBuff _) trivial
  · rwa [hx, hy]
  · rwa [hx, hy, hc]

theorem SerRep.congr_buffer (h : SerRep base s i q) (hc : s'.vars .serC = s.vars .serC)
    (hp : s'.vars .serP = s.vars .serP)
    (hb : ∀ a, InBuffer base a → s'.vars (.byte a) = s.vars (.byte a)) : SerRep base s' i q := by
  refine ⟨h.head_lt, h.length_lt, hc.trans h.consumer, hp.trans h.producer, fun j b hj => ?_⟩
  rw [hb _ (inBuffer_slot (Nat.mod_lt _ (by decide)))]
  exact h.bytes j b hj

theorem Line.Rep.congr (h : l.Rep base (s, d)) (hc : s'.vars .serC = s.vars .serC)
    (hp : s'.vars .serP = s.vars .serP) (hbusy : s'.vars .serBusy = s.vars .serBusy)
    (hb : ∀ a, InBuffer base a → s'.vars (.byte a) = s.vars (.byte a)) :
    l.Rep base (s', d) := by
  obtain ⟨⟨i, hring⟩, hflag, hdev⟩ := h
  exact ⟨⟨i, hring.congr_buffer hc hp hb⟩, hbusy.trans hflag, hdev⟩

theorem Terminal.Rep.withDev (h : T.Rep k (s, d)) (d' : δ) : (T.withDev d').Rep k (s, d') :=
  ⟨h.page, ⟨h.line.ring, h.line.busy, rfl⟩, h.kbd⟩

/-- What `vga.c` leaves as it was. -/
def OffScreenSame (t u : DriverState × δ) : Prop :=
  u.2 = t.2 ∧ ∀ v : Var, ¬ v.OnScreen → u.1.vars v = t.1.vars v

/-- What `serial.c` leaves as it was. -/
def OffLineSame (base : Word) (t u : DriverState × δ) : Prop :=
  (∀ v : Var, v.OnScreen → u.1.vars v = t.1.vars v) ∧
    ∀ a, ¬ InBuffer base a → u.1.vars (.byte a) = t.1.vars (.byte a)

theorem OffScreenSame.exec {o : Action} {t u v : DriverState × δ} {r : o.Res} (ho : o.OnScreen)
    (he : D.Exec o u r v) (h : OffScreenSame t u) : OffScreenSame t v :=
  ⟨(ho.device he).trans h.1, fun w hw => (ho.keeps he hw).trans (h.2 w hw)⟩

theorem OffLineSame.exec {o : Action} {t u v : DriverState × δ} {r : o.Res} (ho : o.OnLine)
    (hin : o.InBuffer base) (he : D.Exec o u r v) (h : OffLineSame base t u) :
    OffLineSame base t v := by
  have hsame (hvars : v.1.vars = u.1.vars) : OffLineSame base t v := by
    refine ⟨fun w hw => ?_, fun a ha => ?_⟩
    · rw [hvars]
      exact h.1 w hw
    · rw [hvars]
      exact h.2 a ha
  have hdriver := he.driver
  cases o with
  | pushfq => exact hsame (congrArg DriverState.vars hdriver.2)
  | cli => exact ho.elim
  | sti => exact ho.elim
  | halt => exact hdriver.elim
  | fuel => exact hdriver.elim
  | inb port => exact hsame (congrArg DriverState.vars hdriver)
  | outb port val => exact hsame (congrArg DriverState.vars hdriver)
  | load w => exact hsame (congrArg DriverState.vars hdriver.2)
  | store w x =>
    have hvars : v.1.vars = Function.update u.1.vars w x := congrArg DriverState.vars hdriver
    refine ⟨fun w' hw' => ?_, fun a ha => ?_⟩
    · have hne : w' ≠ w := by
        rintro rfl
        cases w' <;> first | exact ho | exact hw'
      rw [hvars, Function.update_of_ne hne]
      exact h.1 w' hw'
    · have hne : Var.byte a ≠ w := by
        rintro rfl
        exact ha hin
      rw [hvars, Function.update_of_ne hne]
      exact h.2 a ha

theorem kbdState_congr (hshift : s'.vars (.byte arg) = s.vars (.byte arg))
    (hrelease : s'.vars (.byte (arg + 1)) = s.vars (.byte (arg + 1))) :
    kbdState arg s' = kbdState arg s := by
  rw [kbdState, kbdState, hshift, hrelease]

/-! The operations. -/

theorem Terminal.Rep.vga (h : T.Rep k t) (call : VgaCall) :
    call.prog.wp Sound D.Exec
      (fun _ u => Terminal.Rep k { T with page := T.page.perform call } u) t := by
  obtain ⟨s, d⟩ := t
  have hpage : call.prog.wp NoHalt D.Exec (fun _ u => Draws (T.page.perform call) u.1) (s, d) := by
    cases call with
    | display c => exact vgaDisplayChar_wp h.page
    | backspace => exact vgaBackspaceChar_wp h.page
  have hframe : call.prog.wp Sound D.Exec
      (fun _ u => Draws (T.page.perform call) u.1 ∧ OffScreenSame (s, d) u) (s, d) := by
    refine hpage.frame call.only_onScreen (fun o _ ho hhalt => ⟨hhalt, ?_⟩)
      (fun o _ _ _ ho _ he hs => hs.exec ho he) ⟨rfl, fun _ _ => rfl⟩
    rintro rfl
    exact ho
  refine wp_mono hframe ?_
  rintro - ⟨s', d'⟩ ⟨hdraws, hdev, hsame⟩
  obtain rfl : d' = d := hdev
  refine ⟨hdraws, ?_, (kbdState_congr (hsame _ id) (hsame _ id)).trans h.kbd⟩
  exact h.line.congr (hsame .serC id) (hsame .serP id) (hsame .serBusy id)
    fun a _ => hsame (.byte a) id

/-- What a part of `serial.c` does to the line it does on the terminal. -/
theorem Terminal.Rep.serial (hapart : k.Apart) (h : T.Rep k t) {p : Driver Unit}
    {R : Line δ → Prop} (hp : p.Only Action.OnLine)
    (hwp : p.wp (InRing k.serBuff) D.Exec (fun _ u => ∃ m, R m ∧ m.Rep k.serBuff u) t) :
    p.wp Sound D.Exec (fun _ u => ∃ m, R m ∧ Terminal.Rep k { T with line := m } u) t := by
  have hframe : p.wp Sound D.Exec
      (fun _ u => (∃ m, R m ∧ m.Rep k.serBuff u) ∧ OffLineSame k.serBuff t u) t :=
    hwp.frame hp (fun _ _ _ hdis => ⟨hdis.1, hdis.2.1⟩)
      (fun _ _ _ _ ho hdis he hs => hs.exec ho hdis.2.2 he) ⟨fun _ _ => rfl, fun _ _ => rfl⟩
  refine wp_mono hframe ?_
  rintro - u ⟨⟨m, hm, hrep⟩, hscreen, hbyte⟩
  refine ⟨m, hm, h.page.congr hscreen, hrep, ?_⟩
  exact (kbdState_congr (hbyte _ hapart.shift) (hbyte _ hapart.release)).trans h.kbd

theorem Terminal.Rep.serCall (hapart : k.Apart) (h : T.Rep k t) (c : SerCall) :
    (c.prog k.serBuff).wp Sound D.Exec (fun _ u => ∃ m, Call D c T.line m ∧
      Terminal.Rep k { T with line := m } u) t := by
  refine h.serial hapart ?_ (SerCall.wp h.line)
  cases c with
  | write buff => exact line_serWrite
  | flush => exact line_serFlush 1024
  | irq => exact line_serIrqHandler

theorem Terminal.Rep.performCalls (hapart : k.Apart) (h : T.Rep k t) (calls : List PrintCall) :
    (performCalls k.serBuff calls).wp Sound D.Exec (fun _ u => ∃ m,
      Writes D (writes calls) T.line m ∧ Terminal.Rep k
        ⟨(displayed calls).foldl Page.display T.page, m, T.kbd⟩ u) t := by
  induction calls generalizing T t with
  | nil => exact ⟨T.line, .nil, h⟩
  | cons c calls ih =>
    rw [SkipOS.performCalls]
    apply wp_bind
    cases c with
    | vgaDisplayChar c =>
      refine wp_mono (h.vga (.display c)) fun _ u hu => ?_
      exact ih hu
    | serWrite buff =>
      refine wp_mono (h.serCall hapart (.write buff)) ?_
      rintro - u ⟨m, hcall, hu⟩
      refine wp_mono (ih hu) ?_
      rintro - v ⟨n, hwrites, hv⟩
      exact ⟨n, .cons hcall hwrites, hv⟩

theorem printk_reads {fmt : CString} {args : List Arg} {items : List Item}
    (h : Reads fmt.bytes args items []) :
    printk (some fmt) args [] = .ok 0 (items.flatMap Item.calls) := by
  obtain ⟨more, hmore⟩ := h.args
  have hrun : printkLoop fmt.bytes ⟨args, []⟩ =
      printkLoop [] ⟨more, [] ++ items.flatMap Item.calls⟩ := by
    rw [h.text, ← hmore, printkLoop_items]
  rw [printk, hrun]
  rfl

theorem Terminal.Rep.print (hapart : k.Apart) (h : T.Rep k t) {fmt : CString} {args : List Arg}
    {items : List Item} (hread : Reads fmt.bytes args items []) :
    (ConsoleEvent.prog k irqTable (.print fmt args items)).wp Sound D.Exec (fun _ u => ∃ U,
      Terminal.Step D behind (.print fmt args items) T U ∧ U.Rep k u) t := by
  rw [ConsoleEvent.prog, Console.printk, printk_reads hread]
  refine wp_bind (wp_bind (wp_mono (h.performCalls hapart _) ?_))
  rintro - u ⟨m, hwrites, hu⟩
  rw [(outputs_items items).1] at hu
  exact ⟨_, .print hread hwrites, hu⟩

/-! The keyboard. -/

theorem wp_inb_bind {α : Type} {port : BitVec 16} {f : Byte → Driver α}
    {ok : Action → DriverState × δ → Prop} {Q : α → DriverState × δ → Prop} :
    (inb port >>= f).wp ok D.Exec Q (s, d) ↔
      ok (.inb port) (s, d) ∧ ∀ r d', D.inb port d r d' → (f r).wp ok D.Exec Q (s, d') := by
  have he : (inb port >>= f) = .op (.inb port) f := rfl
  rw [he, wp_inb]

theorem Terminal.Rep.setByte (h : T.Rep k (s, d)) {a : Word} (ha : ¬ InBuffer k.serBuff a)
    (x : Byte) : Terminal.Rep k
      { T with kbd := kbdState k.kdbState (s.set (.byte a) x) } (s.set (.byte a) x, d) := by
  have hne {v : Var} (hv : v ≠ .byte a) : (s.set (.byte a) x).vars v = s.vars v :=
    DriverState.set_of_ne x hv
  refine ⟨h.page.congr fun v hv => hne ?_, h.line.congr (hne (by simp)) (hne (by simp))
    (hne (by simp)) fun b hb => hne ?_, rfl⟩
  · rintro rfl
    exact hv
  · intro he
    cases he
    exact ha hb

theorem Terminal.press_eq {scode : Byte} {calls : List VgaCall} {kbd : KbdState}
    (hcalls : T.kbd.calls behind scode = calls) (hkbd : T.kbd.recv scode = kbd) (d : δ) :
    T.press behind scode d = ⟨calls.foldl Page.perform T.page, { T.line with dev := d }, kbd⟩ := by
  rw [press, hcalls, hkbd]

theorem Terminal.Rep.key (hapart : k.Apart) (h : T.Rep k t) (error : BitVec 32) :
    (kbdIsrHandler behind kbdIntNum error k.kdbState).wp Sound D.Exec (fun _ u => ∃ scode d',
      D.inb ioP1 T.line.dev scode d' ∧ Terminal.Rep k (T.press behind scode d') u) t := by
  obtain ⟨s, d⟩ := t
  rw [kbdIsrHandler, driverAssert, if_pos (by simpa using hapart.notNull), driverAssert,
    if_pos (by simp), pure_eq, ret_bind, ret_bind]
  refine wp_inb_bind.mpr ⟨⟨by simp, by simp⟩, fun b d' hin => ?_⟩
  have hdev : d = T.line.dev := h.line.dev
  have hT := h.withDev d'
  have hshift : T.kbd.shiftPressed = decide (s.vars (.byte k.kdbState) ≠ 0) :=
    congrArg KbdState.shiftPressed h.kbd.symm
  have hprev : T.kbd.prevScodeRelease = decide (s.vars (.byte (k.kdbState + 1)) ≠ 0) :=
    congrArg KbdState.prevScodeRelease h.kbd.symm
  apply wp_mono (R := fun _ u => ∃ scode d', D.inb ioP1 T.line.dev scode d' ∧
    Terminal.Rep k (T.press behind scode d') u) (Q := fun _ u =>
      Terminal.Rep k (T.press behind b d') u) ?_ fun _ u hu => ⟨b, d', hdev ▸ hin, hu⟩
  refine wp_load_bind.mpr ⟨⟨by simp, by simp⟩, ?_⟩
  by_cases hrel : s.vars (.byte (k.kdbState + 1)) ≠ 0
  · have hk : T.kbd.prevScodeRelease = true := hprev.trans (decide_eq_true hrel)
    have hcalls : T.kbd.calls behind b = [] := if_pos (Or.inl hk)
    have hclear := hT.setByte hapart.release 0
    rw [if_pos hrel]
    refine wp_store_bind.mpr ⟨⟨by simp, by simp⟩, wp_when (fun hs => ?_) fun hs => ?_⟩
    · refine wp_store.mpr ⟨⟨by simp, by simp⟩, ?_⟩
      rw [Terminal.press_eq hcalls (if_pos hk), if_pos (show IsShift b from hs)]
      have hboth := hclear.setByte hapart.shift 0
      rwa [kbdState_set_shift, kbdState_set_release] at hboth
    · rw [Terminal.press_eq hcalls (if_pos hk), if_neg (show ¬ IsShift b from hs), hshift]
      rwa [kbdState_set_release] at hclear
  have hk : ¬ T.kbd.prevScodeRelease = true := by rw [hprev]; simpa using hrel
  rw [if_neg hrel]
  by_cases hs : IsShift b
  · have hcalls : T.kbd.calls behind b = [] := if_pos (Or.inr (Or.inl hs))
    have hrecv : T.kbd.recv b = { T.kbd with shiftPressed := true } := by
      rw [KbdState.recv, if_neg hk, if_pos hs]
    rw [if_pos (show b = lShiftScode ∨ b = rShiftScode from hs), Terminal.press_eq hcalls hrecv]
    have hset := hT.setByte hapart.shift 1
    rw [kbdState_set_shift, h.kbd] at hset
    exact wp_store.mpr ⟨⟨by simp, by simp⟩, hset⟩
  rw [if_neg (show ¬ (b = lShiftScode ∨ b = rShiftScode) from hs)]
  by_cases hr : b = releasedScode
  · have hcalls : T.kbd.calls behind b = [] := if_pos (Or.inr (Or.inr hr))
    have hrecv : T.kbd.recv b = { T.kbd with prevScodeRelease := true } := by
      rw [KbdState.recv, if_neg hk, if_neg hs, if_pos hr]
    rw [if_pos hr, Terminal.press_eq hcalls hrecv]
    have hset := hT.setByte hapart.release 1
    rw [kbdState_set_release, h.kbd] at hset
    exact wp_store.mpr ⟨⟨by simp, by simp⟩, hset⟩
  have hshown : ¬ (T.kbd.prevScodeRelease = true ∨ IsShift b ∨ b = releasedScode) := by
    rintro (h | h | h)
    exacts [hk h, hs h, hr h]
  have hrecv : T.kbd.recv b = T.kbd := by
    rw [KbdState.recv, if_neg hk, if_neg hs, if_neg hr]
  rw [if_neg hr]
  by_cases hback : b = backspaceScode
  · have hcalls : T.kbd.calls behind b = [.backspace] := by
      rw [KbdState.calls, if_neg hshown, if_pos hback]
    rw [if_pos hback, Terminal.press_eq hcalls hrecv]
    exact hT.vga .backspace
  rw [if_neg hback]
  refine wp_when (fun hack => ?_) fun hack => ?_
  · have hcalls : T.kbd.calls behind b =
        [.display (charFromScode behind b T.kbd.shiftPressed)] := by
      rw [KbdState.calls, if_neg hshown, if_neg hback, if_neg hack]
    rw [Terminal.press_eq hcalls hrecv, hshift]
    refine wp_load_bind.mpr ⟨⟨by simp, by simp⟩, ?_⟩
    exact hT.vga (.display _)
  · have hcalls : T.kbd.calls behind b = [] := by
      rw [KbdState.calls, if_neg hshown, if_neg hback, if_pos (not_not.mp hack)]
    rw [Terminal.press_eq hcalls hrecv]
    exact hT

/-! Events and runs of them. -/

theorem irqEndOfInterrupt_wp {irqNum : Byte} (h : IsExternal irqNum) (s : DriverState) (d : δ) :
    (irqEndOfInterrupt irqNum).wp Sound D.Exec (fun _ u => u.1 = s ∧ Eoi D d u.2) (s, d) := by
  obtain ⟨hlow, hhigh⟩ := h
  have hout : ¬ (irqNum < externalIntBase ∨ irqNum > externalIntMax) := by
    simp only [externalIntBase, externalIntMax] at hlow hhigh ⊢
    bv_omega
  have hline : irqNum ≥ linesPerPic := by
    simp only [externalIntBase, linesPerPic] at hlow ⊢
    bv_omega
  rw [irqEndOfInterrupt, if_neg hout, Prog.when, if_pos hline]
  have hprog : (picSendPic2Eoi >>= fun _ => picSendPic1Eoi) =
      .op (.outb pic2CmdPort eoiCmd) fun _ => .op (.outb pic1CmdPort eoiCmd) fun _ => .ret () := rfl
  rw [hprog, wp_outb]
  refine ⟨⟨by simp, by simp⟩, fun d₁ h₁ => ?_⟩
  rw [wp_outb]
  exact ⟨⟨by simp, by simp⟩, fun d₂ h₂ => ⟨rfl, d₁, h₁, h₂⟩⟩

/-- An interrupt is its handler and then its end. -/
theorem Terminal.Rep.interrupt {irqNum : Byte} {error : BitVec 32} {R : Terminal δ → Prop}
    (hext : IsExternal irqNum)
    (hwp : ((k.handlers irqTable irqNum).handler irqNum error (k.handlers irqTable irqNum).arg).wp
      Sound D.Exec (fun _ u => ∃ U : Terminal δ,
        (∀ d', Eoi D U.line.dev d' → R (U.withDev d')) ∧ U.Rep k u) t) :
    (isrHelper (k.handlers irqTable) irqNum error).wp Sound D.Exec
      (fun _ u => ∃ U, R U ∧ U.Rep k u) t := by
  rw [isrHelper]
  apply wp_bind
  refine wp_mono hwp ?_
  rintro - ⟨s, d⟩ ⟨U, hR, hU⟩
  refine wp_mono (irqEndOfInterrupt_wp hext s d) ?_
  rintro - ⟨s', d'⟩ ⟨hs, heoi⟩
  obtain rfl : s' = s := hs
  have hdev : d = U.line.dev := hU.line.dev
  exact ⟨_, hR d' (hdev ▸ heoi), hU.withDev d'⟩

theorem KernelData.handlers_kbd (k : KernelData) (irqTable : IrqTable) :
    k.handlers irqTable kbdIntNum = ⟨k.kdbState, kbdIsrHandler k.behind⟩ := by
  rw [handlers, afterVp, afterSer, afterKbd, registerKbdIsr, irqSetHandler, irqSetHandler,
    irqSetHandler, Function.update_of_ne (by decide), Function.update_of_ne (by decide)]
  exact Function.update_self _ _ _

theorem KernelData.handlers_ser (k : KernelData) (irqTable : IrqTable) :
    k.handlers irqTable com1IrqNum = ⟨k.serState, serHandler k.serBuff⟩ := by
  rw [handlers, afterVp, afterSer, irqSetHandler, irqSetHandler,
    Function.update_of_ne (by decide)]
  exact Function.update_self _ _ _

theorem Terminal.Rep.event (hapart : k.Apart) (h : T.Rep k t) (hreg : e.Regular) :
    (e.prog k irqTable).wp Sound D.Exec
      (fun _ u => ∃ U, Terminal.Step D k.behind e T U ∧ U.Rep k u) t := by
  cases e with
  | print fmt args items => exact h.print hapart hreg
  | interrupt irqNum error =>
    rcases hreg with rfl | rfl
    · refine Terminal.Rep.interrupt (by decide) ?_
      rw [k.handlers_kbd]
      refine wp_mono (h.key hapart error) ?_
      rintro - u ⟨scode, d', hin, hu⟩
      exact ⟨_, fun d'' heoi => .key hin heoi, hu⟩
    · refine Terminal.Rep.interrupt (by decide) ?_
      rw [k.handlers_ser]
      refine wp_mono (h.serCall hapart .irq) ?_
      rintro - u ⟨m, hcall, hu⟩
      exact ⟨_, fun d' heoi => .serial hcall heoi, hu⟩
  | flush =>
    refine wp_mono (h.serCall hapart .flush) ?_
    rintro - u ⟨m, hcall, hu⟩
    exact ⟨_, .flush hcall, hu⟩

theorem ConsoleRun.refines (hapart : k.Apart) (h : T.Rep k t)
    (hrun : ConsoleRun D k irqTable t es u) :
    ∃ U, Terminal.Run D k.behind T es U ∧ U.Rep k u := by
  induction hrun with
  | refl => exact ⟨T, .refl, h⟩
  | event _ hreg hrun ih =>
    obtain ⟨U, hU, hrep⟩ := ih
    obtain ⟨V, hstep, hV⟩ := (hrep.event hapart hreg).runs hrun
    exact ⟨V, .event hU hstep, hV⟩
  | @device es u d _ hd ih =>
    obtain ⟨U, hU, hrep⟩ := ih
    have hdev : u.2 = U.line.dev := hrep.line.dev
    exact ⟨U.withDev d, .device hU (hdev ▸ hd), hrep.withDev d⟩

/-- The terminal after `SER_init`: what the screen shows stays, and the queue is empty. -/
def Terminal.start (k : KernelData) (s : DriverState) (d : δ) : Terminal δ :=
  ⟨pageOf s, ⟨[], false, d⟩, kbdState k.kdbState s⟩

theorem serInit_rep {t₀ t₁ : DriverState × δ} (hapart : k.Apart) (hpos : Positioned t₀.1)
    (hinit : (serInit k.serBuff).Runs D.Exec t₀ () t₁) :
    (Terminal.start k t₀.1 t₁.2).Rep k t₁ := by
  obtain ⟨s, d⟩ := t₀
  have hline : (serInit k.serBuff).wp (InRing k.serBuff) D.Exec
      (fun _ u => Line.Rep k.serBuff ⟨[], false, u.2⟩ u) (s, d) := serInit_wp fun _ _ _ h => h
  have hframe : (serInit k.serBuff).wp Sound D.Exec (fun _ u =>
      Line.Rep k.serBuff ⟨[], false, u.2⟩ u ∧ OffLineSame k.serBuff (s, d) u) (s, d) :=
    hline.frame line_serInit (fun _ _ _ hdis => ⟨hdis.1, hdis.2.1⟩)
      (fun _ _ _ _ ho hdis he hs => hs.exec ho hdis.2.2 he) ⟨fun _ _ => rfl, fun _ _ => rfl⟩
  obtain ⟨hrep, hscreen, hbyte⟩ := hframe.runs hinit
  exact ⟨hpos.draws.congr hscreen, hrep,
    kbdState_congr (hbyte _ hapart.shift) (hbyte _ hapart.release)⟩

/-- From `SER_init` on, whatever is printed and whichever keys and serial interrupts come, the
machine does what the terminal does, and no assertion fails. -/
theorem console_refines {t₀ t₁ : DriverState × δ} (hapart : k.Apart) (hpos : Positioned t₀.1)
    (hinit : (serInit k.serBuff).Runs D.Exec t₀ () t₁)
    (hrun : ConsoleRun D k irqTable t₁ es t) :
    ∃ T, Terminal.Run D k.behind (.start k t₀.1 t₁.2) es T ∧ T.Rep k t ∧
      ∀ e : ConsoleEvent, e.Regular → ∀ o u, (e.prog k irqTable).Performs D.Exec t o u →
        o ≠ .halt ∧ o ≠ .fuel := by
  obtain ⟨T, hT, hrep⟩ := hrun.refines hapart (serInit_rep hapart hpos hinit)
  exact ⟨T, hT, hrep, fun e hreg o u hp => (hrep.event hapart hreg).performs hp⟩

def consoleData : KernelData where
  serBuff := 0x100000
  serState := 0x100408
  kdbState := 0x100420
  behind := []
  pageFault _ _ _ := pure ()

def oneLetter : CString := cString ['A'] (by decide)

def printLetter : ConsoleEvent := .print oneLetter [] [.literal 0x41 (by decide)]

def letterEvents : List ConsoleEvent :=
  [printLetter, .interrupt kbdIntNum 0, .interrupt com1IrqNum 0]

def emptyTable : IrqTable := fun _ => ⟨0, fun _ _ _ => pure ()⟩

def consoleOn : DriverState × List Byte :=
  (serInit consoleData.serBuff).final recorderStep (⟨0, zeroVars⟩, [])

def eventDone (u : DriverState × List Byte) (e : ConsoleEvent) : DriverState × List Byte :=
  (e.prog consoleData emptyTable).final recorderStep u

theorem consoleData_apart : consoleData.Apart := by
  refine ⟨by decide, ?_, ?_⟩
  · rw [InBuffer]
    decide
  · rw [InBuffer]
    decide

theorem consoleOn_runs :
    (serInit consoleData.serBuff).Runs recorder.Exec (⟨0, zeroVars⟩, []) () consoleOn :=
  runs_final recorderStep_exec (by decide +kernel)

theorem eventDone_runs (e : ConsoleEvent) (u : DriverState × List Byte)
    (h : ((e.prog consoleData emptyTable).eval recorderStep u).isSome = true) :
    (e.prog consoleData emptyTable).Runs recorder.Exec u () (eventDone u e) :=
  runs_final recorderStep_exec h

theorem printLetter_run : ConsoleRun recorder consoleData emptyTable consoleOn [printLetter]
    (eventDone consoleOn printLetter) := by
  have hread : Reads oneLetter.bytes [] [.literal 0x41 (by decide)] [] :=
    ⟨rfl, List.prefix_rfl, .inl rfl⟩
  exact .event (e := printLetter) .refl hread (eventDone_runs _ _ (by decide +kernel))

theorem letterEvents_run : ConsoleRun recorder consoleData emptyTable consoleOn letterEvents
    (letterEvents.foldl eventDone consoleOn) := by
  have hkey : ConsoleRun recorder consoleData emptyTable consoleOn
      [printLetter, .interrupt kbdIntNum 0]
      (eventDone (eventDone consoleOn printLetter) (.interrupt kbdIntNum 0)) :=
    .event printLetter_run (Or.inl rfl) (eventDone_runs _ _ (by decide +kernel))
  exact .event hkey (Or.inr rfl) (eventDone_runs _ _ (by decide +kernel))

/-- A letter is printed, a key is pressed and the transmitter asks for more. -/
theorem console_refines_letter : ∃ T,
    Terminal.Run recorder [] (.start consoleData ⟨0, zeroVars⟩ consoleOn.2) letterEvents T ∧
      T.Rep consoleData (letterEvents.foldl eventDone consoleOn) ∧
      ∀ e : ConsoleEvent, e.Regular → ∀ o u, (e.prog consoleData emptyTable).Performs recorder.Exec
        (letterEvents.foldl eventDone consoleOn) o u → o ≠ .halt ∧ o ≠ .fuel :=
  console_refines consoleData_apart ⟨by decide, rfl⟩ consoleOn_runs letterEvents_run

/-! What is printed, on the screen and on a line that records it. -/

def ConsoleEvent.shown : ConsoleEvent → List Byte
  | .print _ _ items => items.flatMap Item.shown
  | _ => []

def ConsoleEvent.sent : ConsoleEvent → List Byte
  | .print _ _ items => items.flatMap Item.sent
  | _ => []

/-- Text is offered to `SER_write` in pieces, between other calls. Of each piece the bytes are left
out for which there is no room in the queue at that call. -/
inductive Line.Feeds {δ : Type} (D : Device δ) (l : Line δ) :
    List Byte → List Byte → Line δ → Prop
  | refl : Feeds D l [] [] l
  | write {text accepted buff : List Byte} {m n : Line δ} (h : Feeds D l text accepted m)
      (hc : Call D (.write buff) m n) :
      Feeds D l (text ++ buff) (accepted ++ buff.take (1023 - m.queue.length)) n
  | quiet {text accepted : List Byte} {c : SerCall} {m n : Line δ}
      (h : Feeds D l text accepted m) (hc : Call D c m n) (hw : ∀ buff, c ≠ .write buff) :
      Feeds D l text accepted n

variable {l m n : Line (List Byte)} {text accepted : List Byte} {c : SerCall}
  {T U : Terminal (List Byte)} {d d' : List Byte}

theorem offered_eq (calls : List PrintCall) : offered calls = (writes calls).flatten := by
  induction calls with
  | nil => rfl
  | cons c calls ih =>
    cases c with
    | vgaDisplayChar c => exact ih
    | serWrite buff => exact congrArg (buff ++ ·) ih

theorem Line.HwWrite.queue_le (h : HwWrite recorder l m) : m.queue.length ≤ l.queue.length := by
  obtain ⟨hpoll, hsend⟩ := h
  have hkept : ∀ {l m : Line (List Byte)}, Poll recorder l m → m.queue = l.queue := by
    intro l m hpoll
    cases hpoll <;> rfl
  rw [← hkept hpoll]
  cases hsend with
  | busy => exact le_rfl
  | none => exact le_rfl
  | next _ hq => simp [hq]

theorem Line.Drain.queue_le (h : Drain recorder l m) : m.queue.length ≤ l.queue.length := by
  induction h with
  | done => exact le_rfl
  | next hq _ _ ih => exact ih.trans (by simp [hq])

theorem Line.Call.queue_le (h : Call recorder c l m) :
    m.queue.length ≤ l.queue.length + (l.accepted c).length := by
  cases h with
  | write hw => exact hw.queue_le.trans (by simp [enqueue])
  | flush hd => exact hd.queue_le
  | lineStatus => exact Nat.le_add_right _ _
  | drained _ _ hw => exact hw.queue_le
  | other => exact Nat.le_add_right _ _

theorem SerCall.accepted_eq_nil (hw : ∀ buff, c ≠ .write buff) (l : Line (List Byte)) :
    l.accepted c = [] := by
  cases c with
  | write buff => exact absurd rfl (hw buff)
  | _ => rfl

theorem Line.Feeds.sentQueued (h : Feeds recorder l text accepted m) :
    m.sentQueued = l.sentQueued ++ accepted := by
  induction h with
  | refl => exact (List.append_nil _).symm
  | write _ hc ih =>
    rw [hc.sentQueued, ih, List.append_assoc]
    rfl
  | quiet _ hc hw ih => rw [hc.sentQueued, SerCall.accepted_eq_nil hw, List.append_nil, ih]

theorem Line.Feeds.sublist (h : Feeds recorder l text accepted m) : accepted.Sublist text := by
  induction h with
  | refl => exact List.Sublist.refl _
  | write _ _ ih => exact ih.append (List.take_sublist _ _)
  | quiet _ _ _ ih => exact ih

theorem Line.Feeds.queue_le (h : Feeds recorder l text accepted m) :
    m.queue.length ≤ l.queue.length + accepted.length := by
  induction h with
  | refl => exact Nat.le_add_right _ _
  | @write text accepted buff m n _ hc ih =>
    have hle := hc.queue_le
    rw [Line.accepted] at hle
    rw [List.length_append]
    omega
  | quiet _ hc hw ih =>
    have hle := hc.queue_le
    rw [SerCall.accepted_eq_nil hw] at hle
    exact hle.trans ih

/-- Text that fits the queue is accepted as a whole. -/
theorem Line.Feeds.accepted_eq (h : Feeds recorder l text accepted m)
    (hroom : l.queue.length + text.length ≤ 1023) : accepted = text := by
  induction h with
  | refl => rfl
  | @write text accepted buff m n h _ ih =>
    rw [List.length_append] at hroom
    obtain rfl := ih (by omega)
    have hle := h.queue_le
    rw [List.take_of_length_le (by omega)]
  | quiet _ _ _ ih => exact ih hroom

theorem Line.Feeds.writes {buffs : List (List Byte)} (h : Feeds recorder l text accepted m)
    (hs : Writes recorder buffs m n) :
    ∃ accepted', Feeds recorder l (text ++ buffs.flatten) accepted' n := by
  induction hs generalizing text accepted with
  | nil =>
    rw [List.flatten_nil, List.append_nil]
    exact ⟨accepted, h⟩
  | cons hc _ ih =>
    rw [List.flatten_cons, ← List.append_assoc]
    exact ih (h.write hc)

theorem eoi_recorder (h : Eoi recorder d d') : d' = d := by
  obtain ⟨d₁, h₁, h₂⟩ := h
  have hout {port : BitVec 16} {val : Byte} {x y : List Byte} (hne : port ≠ comPort tranOffset)
      (h : recorder.outb port val x y) : y = x := h.trans (if_neg hne)
  rw [hout (by decide) h₂, hout (by decide) h₁]

theorem Terminal.Step.feeds (h : Terminal.Step recorder behind e T U)
    (hf : Feeds recorder l text accepted T.line) :
    ∃ accepted', Feeds recorder l (text ++ e.sent) accepted' U.line := by
  have hquiet : text ++ [] = text := List.append_nil text
  cases h with
  | @print _ _ _ items _ _ hwrites =>
    have hnext := hf.writes hwrites
    rwa [← offered_eq, (outputs_items items).2] at hnext
  | key hin heoi =>
    obtain rfl := eoi_recorder heoi
    obtain rfl := hin
    exact ⟨accepted, hquiet.symm ▸ hf⟩
  | serial hcall heoi =>
    obtain rfl := eoi_recorder heoi
    exact ⟨accepted, hquiet.symm ▸ hf.quiet hcall (by simp)⟩
  | flush hcall => exact ⟨accepted, hquiet.symm ▸ hf.quiet hcall (by simp)⟩

theorem Terminal.Run.feeds (h : Terminal.Run recorder behind T es U) :
    ∃ accepted, Feeds recorder T.line (es.flatMap ConsoleEvent.sent) accepted U.line := by
  induction h with
  | refl => exact ⟨[], .refl⟩
  | event _ hs ih =>
    obtain ⟨accepted, hbefore⟩ := ih
    rw [List.flatMap_append, List.flatMap_singleton]
    exact hs.feeds hbefore
  | device _ hd => exact hd.elim

theorem Terminal.Run.page {δ : Type} {D : Device δ} {T U : Terminal δ}
    (h : Terminal.Run D behind T es U) (hkeys : ∀ error, .interrupt kbdIntNum error ∉ es) :
    U.page = (es.flatMap ConsoleEvent.shown).foldl Page.display T.page := by
  induction h with
  | refl => rfl
  | event _ hs ih =>
    have hbefore := ih fun error hm => hkeys error (List.mem_append_left _ hm)
    rw [List.flatMap_append, List.flatMap_singleton, List.foldl_append, ← hbefore]
    cases hs with
    | print => rfl
    | key => exact absurd (List.mem_append_right _ List.mem_cons_self) (hkeys _)
    | serial => rfl
    | flush => rfl
  | device _ _ ih => exact ih hkeys

end SkipOS
