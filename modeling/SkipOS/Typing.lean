import SkipOS.KeyEvents
import SkipOS.Ps2

/-! From `KBD_init` on what is typed on the keyboard is shown on the screen, key by key, between what
is printed. -/

namespace SkipOS

open Prog Line

/-- The keyboard reports a key while it scans and has its clock. `others` are the codes of the other
sets. -/
def Ps2.report (translate : Byte → Byte) (others : KbdEvent → List Byte) (e : KbdEvent) (d : Ps2) :
    Ps2 :=
  if d.scanning ∧ d.config &&& p1ClkCfgMsk = 0 then
    d.send translate (if d.scanSet = kbdSetScanCode2Data then e.scodes else others e)
  else d

/-- A byte to be read raises the interrupt of the keyboard, and its line lets it through. -/
structure Ps2.Interrupts (d : Ps2) : Prop where
  full : d.output ≠ []
  raised : d.config &&& p1IntCfgMsk ≠ 0
  line : d.masks.enabled kbdIntNum = true

def ConsoleEvent.OfKbd : ConsoleEvent → Prop
  | .interrupt irqNum _ => irqNum = kbdIntNum
  | _ => False

/-- Keys that are pressed and released, their interrupts, and the other events of the console. -/
inductive TypingRun (translate : Byte → Byte) (others : KbdEvent → List Byte) (k : KernelData)
    (irqTable : IrqTable) (t : DriverState × Ps2) :
    List KbdEvent → List ConsoleEvent → DriverState × Ps2 → Prop
  | refl : TypingRun translate others k irqTable t [] [] t
  | key {es : List KbdEvent} {cs : List ConsoleEvent} {u : DriverState × Ps2} (e : KbdEvent)
      (h : TypingRun translate others k irqTable t es cs u) :
      TypingRun translate others k irqTable t (es ++ [e]) cs (u.1, u.2.report translate others e)
  | interrupt {es : List KbdEvent} {cs : List ConsoleEvent} {u v : DriverState × Ps2}
      (error : BitVec 32) (h : TypingRun translate others k irqTable t es cs u)
      (hirq : u.2.Interrupts)
      (hrun : (isrHelper (k.handlers irqTable) kbdIntNum error).Runs (ps2 translate).Exec u () v) :
      TypingRun translate others k irqTable t es cs v
  | event {es : List KbdEvent} {cs : List ConsoleEvent} {u v : DriverState × Ps2} {c : ConsoleEvent}
      (h : TypingRun translate others k irqTable t es cs u) (hreg : c.Regular) (hc : ¬ c.OfKbd)
      (hrun : (c.prog k irqTable).Runs (ps2 translate).Exec u () v) :
      TypingRun translate others k irqTable t es (cs ++ [c]) v

/-- The calls that the keys are to make, from a state of the shift keys on. -/
def typedCalls (behind : List ScodeMapElem) : Bool → List KbdEvent → List VgaCall
  | _, [] => []
  | shifted, e :: es => e.shown behind shifted ++ typedCalls behind (e.shift shifted) es

/-- One change of the screen: a call made for a key, or a character printed. -/
inductive Shown where
  | key (call : VgaCall)
  | print (c : Byte)

namespace Shown

def keys (log : List Shown) : List VgaCall :=
  log.filterMap fun
    | key call => some call
    | print _ => none

def text (log : List Shown) : List Byte :=
  log.filterMap fun
    | key _ => none
    | print c => some c

def onPage (pg : Page) : Shown → Page
  | key call => pg.perform call
  | print c => pg.display c

@[simp] theorem keys_append (log more : List Shown) : keys (log ++ more) = keys log ++ keys more :=
  List.filterMap_append

@[simp] theorem text_append (log more : List Shown) : text (log ++ more) = text log ++ text more :=
  List.filterMap_append

@[simp] theorem keys_key (calls : List VgaCall) : keys (calls.map key) = calls := by
  induction calls with
  | nil => rfl
  | cons call calls ih => exact congrArg (call :: ·) ih

@[simp] theorem text_key (calls : List VgaCall) : text (calls.map key) = [] := by
  induction calls with
  | nil => rfl
  | cons call calls ih => exact ih

@[simp] theorem keys_print (cs : List Byte) : keys (cs.map print) = [] := by
  induction cs with
  | nil => rfl
  | cons c cs ih => exact ih

@[simp] theorem text_print (cs : List Byte) : text (cs.map print) = cs := by
  induction cs with
  | nil => rfl
  | cons c cs ih => exact congrArg (c :: ·) ih

end Shown

/-- Keys are reported by the codes of set 2, and the interrupts come through. -/
structure Ps2.Reporting (d : Ps2) : Prop where
  scanning : d.scanning = true
  set2 : d.scanSet = kbdSetScanCode2Data
  clock : d.config &&& p1ClkCfgMsk = 0
  direct : d.config &&& p1TranslationCfgMsk = 0
  raised : d.config &&& p1IntCfgMsk ≠ 0
  line : d.masks.enabled kbdIntNum = true

/-- The screen shows the keys handled, whose codes are not to be read any more, and the text, each in
their order. -/
structure Typed.Shows (k : KernelData) (T₀ : Terminal Ps2) (cs : List ConsoleEvent)
    (scodes : List Byte) (T : Terminal Ps2) (log : List Shown) : Prop where
  keys : Shown.keys log = T₀.kbd.callsAll k.behind scodes
  text : Shown.text log = cs.flatMap ConsoleEvent.shown
  page : T.page = log.foldl Shown.onPage T₀.page
  kbd : T.kbd = scodes.foldl KbdState.recv T₀.kbd

structure Typed (k : KernelData) (T₀ : Terminal Ps2) (es : List KbdEvent) (cs : List ConsoleEvent)
    (u : DriverState × Ps2) : Prop where
  reporting : u.2.Reporting
  handled : ∃ scodes T log, streamScodes es = scodes ++ u.2.output ∧ Terminal.Rep k T u ∧
    Typed.Shows k T₀ cs scodes T log

variable {translate : Byte → Byte} {others : KbdEvent → List Byte} {s : DriverState} {d d' : Ps2}
  {fuel : Nat} {k : KernelData} {T T₀ U : Terminal Ps2} {t u v : DriverState × Ps2}
  {irqTable : IrqTable} {es : List KbdEvent} {e : KbdEvent} {cs : List ConsoleEvent}
  {c : ConsoleEvent} {behind : List ScodeMapElem} {error : BitVec 32} {l m : Line Ps2}
  {port : BitVec 16} {r : Byte} {scall : SerCall} {buffs : List (List Byte)}

/-! The serial line and the interrupt controllers leave the keyboard alone. -/

theorem Ps2.Read.same (h : Ps2.Read port d r d') (hport : port ≠ ioP1) : d' = d := by
  cases h with
  | data => exact absurd rfl hport
  | stale => rfl
  | status => rfl
  | other => rfl

theorem eoi_ps2 (h : Eoi (ps2 translate) d d') : d' = d := by
  obtain ⟨d₁, h₁, h₂⟩ := h
  obtain rfl : d₁ = d := h₁
  exact h₂

theorem Line.HwWrite.dev_ps2 (h : HwWrite (ps2 translate) l m) : m.dev = l.dev := by
  obtain ⟨hpoll, hsend⟩ := h
  have hdev : ∀ {l m : Line Ps2}, Poll (ps2 translate) l m → m.dev = l.dev := by
    intro l m hpoll
    cases hpoll with
    | idle => rfl
    | full _ hr => exact Ps2.Read.same hr (by decide)
    | empty _ hr => exact Ps2.Read.same hr (by decide)
  rw [← hdev hpoll]
  cases hsend with
  | busy => rfl
  | none => rfl
  | next _ _ hw => exact hw

theorem Line.Call.dev_ps2 (h : Call (ps2 translate) scall l m) : m.dev = l.dev := by
  cases h with
  | write hw => exact hw.dev_ps2
  | flush hdrain =>
    induction hdrain with
    | done => rfl
    | next _ hw _ ih => exact ih.trans hw
  | lineStatus hr _ hr' =>
    exact (Ps2.Read.same hr' (by decide)).trans (Ps2.Read.same hr (by decide))
  | drained hr _ hw => exact hw.dev_ps2.trans (Ps2.Read.same hr (by decide))
  | other hr => exact Ps2.Read.same hr (by decide)

theorem Line.Writes.dev_ps2 (h : Writes (ps2 translate) buffs l m) : m.dev = l.dev := by
  induction h with
  | nil => rfl
  | cons hcall _ ih => exact ih.trans hcall.dev_ps2

theorem step_other (h : Terminal.Step (ps2 translate) behind c T U) (hc : ¬ c.OfKbd) :
    U.line.dev = T.line.dev ∧ U.kbd = T.kbd ∧ U.page = c.shown.foldl Page.display T.page := by
  cases h with
  | print hread hwrites => exact ⟨hwrites.dev_ps2, rfl, rfl⟩
  | key => exact absurd rfl hc
  | serial hcall heoi => exact ⟨(eoi_ps2 heoi).trans hcall.dev_ps2, rfl, rfl⟩
  | flush hcall => exact ⟨hcall.dev_ps2, rfl, rfl⟩

theorem step_kbd {δ : Type} {D : Device δ} {T U : Terminal δ}
    (h : Terminal.Step D behind (.interrupt kbdIntNum error) T U) :
    ∃ scode d d', D.inb ioP1 T.line.dev scode d ∧ Eoi D d d' ∧ U = T.press behind scode d' := by
  generalize he : ConsoleEvent.interrupt kbdIntNum error = e at h
  cases h with
  | print => cases he
  | key hin heoi => exact ⟨_, _, _, hin, heoi, rfl⟩
  | serial => exact absurd (ConsoleEvent.interrupt.inj he).1 (by decide)
  | flush => cases he

/-! Steps of a run. -/

theorem Ps2.Reporting.withOutput (h : d.Reporting) (output : List Byte) :
    Ps2.Reporting { d with output := output } :=
  ⟨h.scanning, h.set2, h.clock, h.direct, h.raised, h.line⟩

theorem Ps2.Reporting.report (h : d.Reporting) (e : KbdEvent) :
    d.report translate others e = { d with output := d.output ++ e.scodes } := by
  rw [Ps2.report, if_pos ⟨h.scanning, h.clock⟩, if_pos h.set2, Ps2.send, if_pos h.direct]

theorem Typed.key (h : Typed k T₀ es cs u) (e : KbdEvent) :
    Typed k T₀ (es ++ [e]) cs (u.1, u.2.report translate others e) := by
  obtain ⟨hreporting, scodes, T, log, hstream, hrep, hshows⟩ := h
  rw [hreporting.report e]
  refine ⟨hreporting.withOutput _, scodes, T.withDev _, log, ?_, hrep.withDev _,
    ⟨hshows.keys, hshows.text, hshows.page, hshows.kbd⟩⟩
  have hone : streamScodes (es ++ [e]) = streamScodes es ++ e.scodes := by simp [streamScodes]
  rw [hone, hstream, List.append_assoc]

/-- An interrupt handles the byte that comes next. -/
theorem Typed.interrupt (hapart : k.Apart) (h : Typed k T₀ es cs u) (hout : u.2.output ≠ [])
    (error : BitVec 32) : (isrHelper (k.handlers irqTable) kbdIntNum error).wp Sound
      (ps2 translate).Exec (fun _ v => Typed k T₀ es cs v ∧ v.2.output = u.2.output.tail) u := by
  obtain ⟨hreporting, scodes, T, log, hstream, hrep, hshows⟩ := h
  obtain ⟨b, bs, hcons⟩ := List.exists_cons_of_ne_nil hout
  have hreg : ConsoleEvent.Regular (.interrupt kbdIntNum error) := Or.inl rfl
  have hevent : (isrHelper (k.handlers irqTable) kbdIntNum error).wp Sound (ps2 translate).Exec
      (fun _ v => ∃ U, Terminal.Step (ps2 translate) k.behind (.interrupt kbdIntNum error) T U ∧
        U.Rep k v) u := hrep.event hapart hreg
  refine wp_mono hevent ?_
  rintro - v ⟨U, hstep, hU⟩
  obtain ⟨hrest, hpressed⟩ : v.2 = { u.2 with output := bs } ∧ U = T.press k.behind b v.2 := by
    obtain ⟨scode, d, d', hin, heoi, rfl⟩ := step_kbd hstep
    have hdev : u.2 = T.line.dev := hrep.line.dev
    have hdev' : v.2 = d' := hU.line.dev
    rw [← hdev] at hin
    obtain ⟨rfl, rfl⟩ := Ps2.Read.data_inv hin hcons
    rw [hdev', eoi_ps2 heoi]
    exact ⟨rfl, rfl⟩
  refine ⟨⟨?_, scodes ++ [b], U, log ++ (T.kbd.calls k.behind b).map .key, ?_, hU,
    ⟨?_, ?_, ?_, ?_⟩⟩, ?_⟩
  · rw [hrest]
    exact hreporting.withOutput bs
  · rw [hstream, hrest, hcons, List.append_assoc]
    rfl
  · rw [Shown.keys_append, Shown.keys_key, hshows.keys, KbdState.callsAll_append, ← hshows.kbd]
    simp [KbdState.callsAll]
  · rw [Shown.text_append, Shown.text_key, List.append_nil, hshows.text]
  · rw [hpressed, List.foldl_append, ← hshows.page, List.foldl_map]
    rfl
  · rw [hpressed, List.foldl_append, ← hshows.kbd]
    rfl
  · rw [hrest, hcons]
    rfl

theorem Typed.event (hapart : k.Apart) (h : Typed k T₀ es cs u) (hreg : c.Regular)
    (hc : ¬ c.OfKbd) : (c.prog k irqTable).wp Sound (ps2 translate).Exec
      (fun _ v => Typed k T₀ es (cs ++ [c]) v) u := by
  obtain ⟨hreporting, scodes, T, log, hstream, hrep, hshows⟩ := h
  have hevent : (c.prog k irqTable).wp Sound (ps2 translate).Exec (fun _ v => ∃ U,
      Terminal.Step (ps2 translate) k.behind c T U ∧ U.Rep k v) u := hrep.event hapart hreg
  refine wp_mono hevent ?_
  rintro - v ⟨U, hstep, hU⟩
  obtain ⟨hdev, hkbd, hpage⟩ := step_other hstep hc
  have hsame : v.2 = u.2 := (hU.line.dev.trans hdev).trans hrep.line.dev.symm
  refine ⟨by rw [hsame]; exact hreporting, scodes, U, log ++ c.shown.map .print, ?_, hU,
    ⟨?_, ?_, ?_, hkbd.trans hshows.kbd⟩⟩
  · rw [hsame, hstream]
  · rw [Shown.keys_append, Shown.keys_print, List.append_nil, hshows.keys]
  · rw [Shown.text_append, Shown.text_print, hshows.text, List.flatMap_append, List.flatMap_singleton]
  · rw [hpage, List.foldl_append, ← hshows.page, List.foldl_map]
    rfl

theorem TypingRun.typed (hapart : k.Apart) (h : Typed k T₀ [] [] t)
    (hrun : TypingRun translate others k irqTable t es cs u) : Typed k T₀ es cs u := by
  induction hrun with
  | refl => exact h
  | key e _ ih => exact ih.key e
  | interrupt error _ hirq hrun ih => exact ((ih.interrupt hapart hirq.full error).runs hrun).1
  | event _ hreg hc hrun ih => exact (ih.event hapart hreg hc).runs hrun

/-- All that was typed can be handled. -/
theorem TypingRun.exists_empty (hapart : k.Apart) (h : Typed k T₀ [] [] t)
    (hrun : TypingRun translate others k irqTable t es cs u) :
    ∃ v, TypingRun translate others k irqTable t es cs v ∧ v.2.output = [] := by
  generalize hlen : u.2.output.length = n
  induction n generalizing u with
  | zero => exact ⟨u, hrun, List.eq_nil_of_length_eq_zero hlen⟩
  | succ n ih =>
    have hout : u.2.output ≠ [] := by
      intro hnil
      rw [hnil] at hlen
      cases hlen
    have htyped := hrun.typed hapart h
    have hwp : (isrHelper (k.handlers irqTable) kbdIntNum 0).wp Sound (ps2 translate).Exec
        (fun _ v => Typed k T₀ es cs v ∧ v.2.output = u.2.output.tail) u :=
      htyped.interrupt hapart hout 0
    obtain ⟨_, v, hv⟩ := hwp.exists_runs (only_true _) fun o v _ hok => ps2_enabled hok v
    have hirq : u.2.Interrupts := ⟨hout, htyped.reporting.raised, htyped.reporting.line⟩
    refine ih (hrun.interrupt 0 hirq hv) ?_
    rw [(hwp.runs hv).2, List.length_tail, hlen]
    rfl

/-- The bytes of the events make their calls. -/
theorem callsAll_streamScodes (shifted : Bool) (hack : ∀ e ∈ es, e.key.val ≠ kbdAckRsp) :
    KbdState.callsAll behind ⟨shifted, false⟩ (streamScodes es) = typedCalls behind shifted es := by
  induction es generalizing shifted with
  | nil => rfl
  | cons e es ih =>
    have hsplit : streamScodes (e :: es) = e.scodes ++ streamScodes es := rfl
    rw [hsplit, KbdState.callsAll_append, KbdState.recv_event,
      KbdState.callsAll_event shifted (hack e List.mem_cons_self),
      ih _ fun e he => hack e (List.mem_cons_of_mem _ he)]
    rfl

/-! From `KBD_init` and `SER_init` on. -/

theorem InitDevice.ps2_eq (h : InitDevice (ps2 translate) d d') :
    d' = { d with masks := d.masks.setLine com1IrqNum true } := by
  cases h with
  | mk hbank hlow hhigh hformat hints hfifo hmask hline =>
    obtain rfl := hbank
    obtain rfl := hlow
    obtain rfl := hhigh
    obtain rfl := hformat
    obtain rfl := hints
    obtain rfl := hfifo
    obtain ⟨rfl, rfl⟩ := Ps2.Read.pic1_inv hmask
    exact hline

theorem Ps2.ready_reporting (d : Ps2) :
    Ps2.Reporting { d.ready with masks := d.ready.masks.setLine com1IrqNum true } := by
  obtain ⟨hclock, hdirect⟩ := getGoodConfigByte_bits d.config
  refine ⟨rfl, rfl, hclock, hdirect, getGoodConfigByte_raises d.config, ?_⟩
  have hserial : kbdIntNum ≠ com1IrqNum := by decide
  rw [enabled_setLine (by decide) (by decide), if_neg hserial, Ps2.ready,
    enabled_setLine (by decide) (by decide), if_pos rfl]

/-- They leave a terminal on which nothing has been typed or printed. -/
theorem typed_start (hapart : k.Apart) (hpos : Positioned s) (hfuel : d.output.length < fuel)
    {table : IrqTable} {t₀ : DriverState × Ps2}
    (hkbd : (kbdInit fuel k.behind k.kdbState irqTable).Runs (ps2 translate).Exec (s, d) table t₀)
    (hser : (serInit k.serBuff).Runs (ps2 translate).Exec t₀ () t) :
    Typed k (.start k s t.2) [] [] t := by
  obtain ⟨-, rfl⟩ := (kbdInit_wp hfuel).runs hkbd
  have hdevice : (serInit k.serBuff).wp (InRing k.serBuff) (ps2 translate).Exec
      (fun _ u => InitDevice (ps2 translate) d.ready u.2) (s, d.ready) :=
    serInit_wp fun _ _ h _ => h
  have ht := (hdevice.runs hser).ps2_eq
  refine ⟨?_, [], _, [], ?_, serInit_rep hapart hpos hser, ⟨rfl, rfl, rfl, rfl⟩⟩
  · rw [ht]
    exact d.ready_reporting
  · rw [ht]
    rfl

/-- Once `KBD_init` and `SER_init` have returned, the screen shows an interleaving of the text printed
and of the calls for the keys pressed and released, each in their order, up to the bytes that wait to
be read; those can be read at any time, and then no key is missing. -/
theorem typed_keys_shown (hapart : k.Apart) (hpos : Positioned s)
    (hkeys : kbdState k.kdbState s = ⟨false, false⟩) (hfuel : d.output.length < fuel)
    {table : IrqTable} {t₀ : DriverState × Ps2}
    (hkbd : (kbdInit fuel k.behind k.kdbState irqTable).Runs (ps2 translate).Exec (s, d) table t₀)
    (hser : (serInit k.serBuff).Runs (ps2 translate).Exec t₀ () t)
    (hrun : TypingRun translate others k irqTable t es cs u)
    (hack : ∀ e ∈ es, e.key.val ≠ kbdAckRsp) :
    (∃ scodes log, streamScodes es = scodes ++ u.2.output ∧
      Shown.keys log = KbdState.callsAll k.behind ⟨false, false⟩ scodes ∧
      (u.2.output = [] → Shown.keys log = typedCalls k.behind false es) ∧
      Shown.text log = cs.flatMap ConsoleEvent.shown ∧
      Draws (log.foldl Shown.onPage (pageOf s)) u.1) ∧
    ∃ v, TypingRun translate others k irqTable t es cs v ∧ v.2.output = [] := by
  have hstart := typed_start hapart hpos hfuel hkbd hser
  obtain ⟨-, scodes, T, log, hstream, hrep, hshows⟩ := hrun.typed hapart hstart
  have hlog : Shown.keys log = KbdState.callsAll k.behind ⟨false, false⟩ scodes := by
    rw [hshows.keys, Terminal.start, hkeys]
  refine ⟨⟨scodes, log, hstream, hlog, fun hout => ?_, hshows.text, hshows.page ▸ hrep.page⟩,
    hrun.exists_empty hapart hstart⟩
  rw [hout, List.append_nil] at hstream
  rw [hlog, ← hstream, callsAll_streamScodes false hack]

/-- A letter is printed, and another one is typed. -/
theorem typed_letter : ∃ (u : DriverState × Ps2) (log : List Shown),
    u.2.output = [] ∧ Shown.keys log = [.display 0x61] ∧ Shown.text log = [0x41] ∧
    Draws (log.foldl Shown.onPage (pageOf ⟨0, zeroVars⟩)) u.1 := by
  have hfuel : firmware.output.length < 2 := by decide
  have hkbd : ∃ table t₀, (kbdInit 2 consoleData.behind consoleData.kdbState emptyTable).Runs
      (ps2 fun _ => 0).Exec (⟨0, zeroVars⟩, firmware) table t₀ :=
    (kbdInit_wp hfuel).exists_runs (only_true _) fun o u _ hok => ps2_enabled hok u
  obtain ⟨table, t₀, hkbd⟩ := hkbd
  have hser : ∃ u t, (serInit consoleData.serBuff).Runs (ps2 fun _ => 0).Exec t₀ u t :=
    (serInit_wp (Q := fun _ _ => True) fun _ _ _ _ => trivial).exists_runs (only_true _)
      fun o u _ hok => ps2_enabled ⟨hok.1, hok.2.1⟩ u
  obtain ⟨_, t, hser⟩ := hser
  have hread : printLetter.Regular := ⟨rfl, List.prefix_rfl, .inl rfl⟩
  have hprint : ∃ w u, (printLetter.prog consoleData emptyTable).Runs (ps2 fun _ => 0).Exec t w u :=
    ((typed_start consoleData_apart positioned_zero hfuel hkbd hser).event consoleData_apart hread
      id).exists_runs (only_true _) fun o u _ hok => ps2_enabled hok u
  obtain ⟨_, u, hprint⟩ := hprint
  have hack : ∀ e ∈ [KbdEvent.press keyA], e.key.val ≠ kbdAckRsp := by decide
  have hkey : TypingRun (fun _ => 0) (fun _ => []) consoleData emptyTable t [.press keyA]
      [printLetter] (u.1, u.2.report (fun _ => 0) (fun _ => []) (.press keyA)) :=
    .key (.press keyA) (.event .refl hread id hprint)
  obtain ⟨-, v, hv, hempty⟩ :=
    typed_keys_shown consoleData_apart positioned_zero rfl hfuel hkbd hser hkey hack
  obtain ⟨⟨scodes, log, -, -, hkeys, htext, hdraws⟩, -⟩ :=
    typed_keys_shown consoleData_apart positioned_zero rfl hfuel hkbd hser hv hack
  exact ⟨v, log, hempty, hkeys hempty, htext, hdraws⟩

end SkipOS
