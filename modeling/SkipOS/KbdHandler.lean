import SkipOS.Lib.Calls
import SkipOS.DisplayStr
import SkipOS.Keyboard

/-! One interrupt of the keyboard: what it does to `kdb_state` and the calls of `vga.c` it makes. -/

namespace SkipOS

open Prog

structure KbdState where
  shiftPressed : Bool
  prevScodeRelease : Bool
  deriving DecidableEq

/-- The `kbd_state_t` at `arg`. -/
def kbdState (arg : Word) (s : DriverState) : KbdState :=
  ⟨s.vars (.byte arg) ≠ 0, s.vars (.byte (arg + 1)) ≠ 0⟩

def IsShift (scode : Byte) : Prop := scode = lShiftScode ∨ scode = rShiftScode

instance : DecidablePred IsShift := fun _ => inferInstanceAs (Decidable (_ ∨ _))

/-- What one byte does to the state. -/
def KbdState.recv (k : KbdState) (scode : Byte) : KbdState :=
  if k.prevScodeRelease then ⟨if IsShift scode then false else k.shiftPressed, false⟩
  else if IsShift scode then { k with shiftPressed := true }
  else if scode = releasedScode then { k with prevScodeRelease := true }
  else k

/-- The bytes the controller holds are read from the data port in order. -/
def keyboard : Device (List Byte) where
  inb port d r d' := if port = ioP1 then d' = d.tail ∧ ∀ b ∈ d.head?, r = b else d' = d
  outb _ _ d d' := d' = d
  step _ _ := False

/-- An interrupt for one byte. -/
def KbdInterrupt (arg : Word) (scode : Byte) (s s' : DriverState) : Prop :=
  ∃ behind error, (kbdIsrHandler behind kbdIntNum error arg).Runs keyboard.Exec
    (s, [scode]) () (s', [])

/-- An operation of the handler's own or a call of `vga.c`. -/
abbrev ClientOp := Action ⊕ VgaCall

abbrev ClientOp.Res : ClientOp → Type
  | .inl o => o.Res
  | .inr _ => Unit

abbrev VgaClient := Prog ClientOp ClientOp.Res

def ClientOp.prog : (o : ClientOp) → Driver o.Res
  | .inl o => Prog.perform o
  | .inr c => c.prog

def ClientOp.calls : ClientOp → List VgaCall
  | .inl _ => []
  | .inr c => [c]

def own (o : Action) : VgaClient o.Res := Prog.perform (Sum.inl o : ClientOp)

def vgaCall (c : VgaCall) : VgaClient Unit := Prog.perform (Sum.inr c : ClientOp)

def clientAssert (c : Bool) : VgaClient Unit :=
  if c then pure () else .op (Sum.inl .halt : ClientOp) Empty.elim

/-- `kbd_isr_handler` with its calls of `vga.c` as single operations. -/
def kbdIsrClient (behind : List ScodeMapElem) (irqNum : Byte) (arg : Word) : VgaClient Unit := do
  clientAssert (arg ≠ 0)
  clientAssert (irqNum = kbdIntNum)
  let s ← own (.inb ioP1)
  if (← own (.load (.byte (arg + 1)))) ≠ 0 then do
    own (.store (.byte (arg + 1)) 0)
    Prog.when (s = lShiftScode ∨ s = rShiftScode) (own (.store (.byte arg) 0))
  else if s = lShiftScode ∨ s = rShiftScode then own (.store (.byte arg) 1)
  else if s = releasedScode then own (.store (.byte (arg + 1)) 1)
  else if s = backspaceScode then vgaCall .backspace
  else Prog.when (s ≠ kbdAckRsp) do
    vgaCall (.display (charFromScode behind s ((← own (.load (.byte arg))) ≠ 0)))

/-- The handler's operations on the keyboard, with the calls of `vga.c` noted. -/
abbrev clientExec : (o : ClientOp) → (DriverState × List Byte) × List VgaCall → o.Res →
    (DriverState × List Byte) × List VgaCall → Prop :=
  Noting ClientOp.calls fun o s r s' => o.prog.Runs keyboard.Exec s r s'

/-- An interrupt for one byte, and the calls it makes. -/
def KbdShows (arg : Word) (behind : List ScodeMapElem) (scode : Byte) (s : DriverState)
    (calls : List VgaCall) (s' : DriverState) : Prop :=
  (kbdIsrClient behind kbdIntNum arg).Runs clientExec ((s, [scode]), []) () ((s', []), calls)

/-- The calls one byte makes in a state. -/
def KbdState.calls (k : KbdState) (behind : List ScodeMapElem) (scode : Byte) : List VgaCall :=
  if k.prevScodeRelease ∨ IsShift scode ∨ scode = releasedScode then []
  else if scode = backspaceScode then [.backspace]
  else if scode = kbdAckRsp then []
  else [.display (charFromScode behind scode k.shiftPressed)]

/-- No assertion fails, and where `s` has a position on the screen every call finds one. -/
def ClientOk (s : DriverState) : ClientOp → (DriverState × List Byte) × List VgaCall → Prop
  | .inl o, _ => o ≠ .halt ∧ o ≠ .fuel
  | .inr _, v => Positioned s → Positioned v.1.1

/-- What is left of one byte. -/
structure KbdHandled (arg : Word) (behind : List ScodeMapElem) (scode : Byte) (s : DriverState)
    (v : (DriverState × List Byte) × List VgaCall) : Prop where
  state : kbdState arg v.1.1 = (kbdState arg s).recv scode
  calls : v.2 = (kbdState arg s).calls behind scode
  read : v.1.2 = []
  positioned : Positioned s → Positioned v.1.1

variable {δ : Type} {D : Device δ} {d : δ} {behind : List ScodeMapElem} {irqNum scode : Byte}
  {error : BitVec 32} {arg : Word} {s s' : DriverState} {log : List VgaCall} {call : VgaCall}
  {u : DriverState × List Byte} {Q : Unit → (DriverState × List Byte) × List VgaCall → Prop}

theorem expand_clientAssert (c : Bool) :
    (clientAssert c).expand ClientOp.prog = driverAssert c := by
  by_cases hc : c = true
  · rw [clientAssert, driverAssert, if_pos hc, if_pos hc]
    rfl
  · rw [clientAssert, driverAssert, if_neg hc, if_neg hc]
    exact congrArg (op Action.halt) (funext fun r => r.elim)

theorem kbdIsrHandler_eq :
    kbdIsrHandler behind irqNum error arg =
      (kbdIsrClient behind irqNum arg).expand ClientOp.prog := by
  simp only [kbdIsrClient, expand_bind, expand_ite, expand_when, own, vgaCall, expand_perform,
    expand_clientAssert]
  rfl

/-- Every run of the handler makes some calls, and the calls are noted without effect on it. -/
theorem kbdInterrupt_iff :
    KbdInterrupt arg scode s s' ↔ ∃ behind calls, KbdShows arg behind scode s calls s' := by
  constructor
  · rintro ⟨behind, error, hrun⟩
    rw [kbdIsrHandler_eq, runs_expand_iff] at hrun
    obtain ⟨calls, hnoted⟩ := hrun.noting ClientOp.calls []
    exact ⟨behind, calls, hnoted⟩
  · rintro ⟨behind, calls, hshows⟩
    refine ⟨behind, 0, ?_⟩
    rw [kbdIsrHandler_eq, runs_expand_iff]
    exact hshows.of_noting

theorem kbdState_set_shift (x : Byte) :
    kbdState arg (s.set (.byte arg) x) = { kbdState arg s with shiftPressed := x ≠ 0 } := by
  simp [kbdState]

theorem kbdState_set_release (x : Byte) :
    kbdState arg (s.set (.byte (arg + 1)) x) =
      { kbdState arg s with prevScodeRelease := x ≠ 0 } := by
  simp [kbdState]

theorem Draws.positioned {pg : Page} (h : Draws pg s) : Positioned s := ⟨h.inside, h.cursor⟩

theorem VgaCall.only_onScreen (call : VgaCall) : call.prog.Only Action.OnScreen := by
  cases call with
  | display c => exact screen_vgaDisplayChar c
  | backspace => exact screen_vgaBackspaceChar

theorem VgaCall.positioned (h : Positioned s) :
    call.prog.wp NoHalt D.Exec (fun _ v => Positioned v.1) (s, d) := by
  cases call with
  | display c => exact wp_mono (vgaDisplayChar_wp h.draws) fun _ _ hdraws => hdraws.positioned
  | backspace => exact wp_mono (vgaBackspaceChar_wp h.draws) fun _ _ hdraws => hdraws.positioned

theorem VgaCall.exists_runs (call : VgaCall) (h : Positioned s) :
    ∃ v, call.prog.Runs D.Exec (s, d) () v := by
  have hwp := call.positioned (D := D) (d := d) h
  obtain ⟨_, v, hrun⟩ := hwp.exists_runs call.only_onScreen fun o v ho hok => ho.enabled hok v
  exact ⟨v, hrun⟩

theorem Action.OnScreen.device {o : Action} {u v : DriverState × δ} {r : o.Res} (ho : o.OnScreen)
    (h : D.Exec o u r v) : v.2 = u.2 := by
  cases o with
  | pushfq => exact h.2
  | load v => exact h.2
  | store v x => exact h.2
  | halt => exact h.1.elim
  | _ => exact ho.elim

theorem VgaCall.device {u v : DriverState × δ} (h : call.prog.Runs D.Exec u () v) : v.2 = u.2 := by
  have hwp : call.prog.wp (fun _ _ => True) D.Exec (fun _ v => v.2 = u.2) u :=
    call.only_onScreen.wp (fun _ _ _ => trivial)
      (fun o _ _ _ ho he heq => (ho.device he).trans heq) rfl
  exact hwp.runs h

theorem VgaCall.kbdState_eq {u v : DriverState × δ} (h : call.prog.Runs D.Exec u () v) :
    kbdState arg v.1 = kbdState arg u.1 := by
  have hwp : call.prog.wp (fun _ _ => True) D.Exec (fun _ v => kbdState arg v.1 = kbdState arg u.1)
      u := by
    refine Only.wp (I := fun v : DriverState × δ => kbdState arg v.1 = kbdState arg u.1)
      call.only_onScreen (fun _ _ _ => trivial) ?_ rfl
    intro o w r w' ho he hw
    have hbyte (a : Word) : w'.1.vars (.byte a) = w.1.vars (.byte a) :=
      ho.keeps he fun h : Var.OnScreen (.byte a) => h
    rw [← hw, kbdState, kbdState, hbyte, hbyte]
  exact hwp.runs h

theorem wp_own_bind {o : Action} {f : o.Res → VgaClient Unit} (hhalt : o ≠ .halt ∧ o ≠ .fuel)
    (h : ∀ r u', keyboard.Exec o u r u' → (f r).wp (ClientOk s) clientExec Q (u', log)) :
    (own o >>= f).wp (ClientOk s) clientExec Q (u, log) := by
  refine ⟨hhalt, ?_⟩
  rintro r ⟨u', log'⟩ ⟨hrun, hlog⟩
  obtain rfl : log' = log := hlog.trans (List.append_nil log)
  exact h r u' (runs_perform_iff.mp hrun)

theorem wp_own_store {a : Word} {x : Byte} (h : Q () ((u.1.set (.byte a) x, u.2), log)) :
    (own (.store (.byte a) x)).wp (ClientOk s) clientExec Q (u, log) := by
  rw [← bind_ret (own (.store (.byte a) x))]
  refine wp_own_bind ⟨by simp, by simp⟩ ?_
  rintro r ⟨s', d'⟩ ⟨hs, hd⟩
  obtain ⟨rfl, rfl⟩ : s' = u.1.set (.byte a) x ∧ d' = u.2 := ⟨hs, hd⟩
  exact h

theorem wp_vgaCall (hpos : Positioned s → Positioned u.1)
    (h : ∀ s', kbdState arg s' = kbdState arg u.1 → (Positioned s → Positioned s') →
      Q () ((s', u.2), log ++ [call])) :
    (vgaCall call).wp (ClientOk s) clientExec Q (u, log) := by
  refine ⟨hpos, ?_⟩
  rintro r ⟨⟨s', d'⟩, log'⟩ ⟨hrun, hlog⟩
  obtain rfl : log' = log ++ [call] := hlog
  obtain rfl : d' = u.2 := VgaCall.device hrun
  exact h s' (VgaCall.kbdState_eq hrun) fun hs => (VgaCall.positioned (hpos hs)).runs hrun

theorem Positioned.set_byte (h : Positioned s) (a : Word) (x : Byte) :
    Positioned (s.set (.byte a) x) := by
  obtain ⟨hin, hcur⟩ := h
  constructor
  · simpa using hin
  · simpa using hcur

theorem kbdIsrClient_wp (harg : arg ≠ 0) : (kbdIsrClient behind kbdIntNum arg).wp (ClientOk s)
    clientExec (fun _ v => KbdHandled arg behind scode s v) ((s, [scode]), []) := by
  rw [kbdIsrClient, clientAssert, if_pos (by simpa using harg), clientAssert, if_pos (by simp),
    pure_eq, ret_bind, ret_bind]
  refine wp_own_bind ⟨by simp, by simp⟩ ?_
  rintro b ⟨s₁, d⟩ ⟨⟨hd, hb⟩, hs⟩
  obtain rfl : b = scode := hb scode rfl
  obtain rfl : s = s₁ := hs.symm
  obtain rfl : d = [] := hd
  refine wp_own_bind ⟨by simp, by simp⟩ ?_
  rintro flag ⟨s₁, d⟩ ⟨⟨hflag, hs⟩, hd⟩
  obtain rfl : s = s₁ := hs.symm
  obtain rfl : d = [] := hd
  obtain rfl : flag = s.vars (.byte (arg + 1)) := hflag
  by_cases hrel : s.vars (.byte (arg + 1)) ≠ 0
  · have hk : (kbdState arg s).prevScodeRelease = true := decide_eq_true hrel
    have hnone : [] = (kbdState arg s).calls behind b := (if_pos (Or.inl hk)).symm
    rw [if_pos hrel]
    refine wp_own_bind ⟨by simp, by simp⟩ ?_
    rintro r ⟨s₁, d⟩ ⟨hs, hd⟩
    obtain ⟨rfl, rfl⟩ : s₁ = s.set (.byte (arg + 1)) 0 ∧ d = [] := ⟨hs, hd⟩
    refine wp_when (fun hs => wp_own_store ⟨?_, hnone, rfl, fun h => (h.set_byte _ _).set_byte _ _⟩)
      fun hs => ⟨?_, hnone, rfl, fun h => h.set_byte _ _⟩
    · rw [kbdState_set_shift, kbdState_set_release, KbdState.recv, if_pos hk,
        if_pos (show IsShift b from hs)]
      rfl
    · rw [kbdState_set_release, KbdState.recv, if_pos hk, if_neg (show ¬ IsShift b from hs)]
      rfl
  have hk : ¬ (kbdState arg s).prevScodeRelease = true := by simpa [kbdState] using hrel
  rw [if_neg hrel]
  by_cases hs : IsShift b
  · have hnone : [] = (kbdState arg s).calls behind b := (if_pos (Or.inr (Or.inl hs))).symm
    rw [if_pos (show b = lShiftScode ∨ b = rShiftScode from hs)]
    refine wp_own_store ⟨?_, hnone, rfl, fun h => h.set_byte _ _⟩
    rw [kbdState_set_shift, KbdState.recv, if_neg hk, if_pos hs]
    rfl
  rw [if_neg (show ¬ (b = lShiftScode ∨ b = rShiftScode) from hs)]
  by_cases hr : b = releasedScode
  · have hnone : [] = (kbdState arg s).calls behind b := (if_pos (Or.inr (Or.inr hr))).symm
    rw [if_pos hr]
    refine wp_own_store ⟨?_, hnone, rfl, fun h => h.set_byte _ _⟩
    rw [kbdState_set_release, KbdState.recv, if_neg hk, if_neg hs, if_pos hr]
    rfl
  have hshown : ¬ ((kbdState arg s).prevScodeRelease = true ∨ IsShift b ∨ b = releasedScode) := by
    rintro (h | h | h)
    exacts [hk h, hs h, hr h]
  have hsame : kbdState arg s = (kbdState arg s).recv b := by
    rw [KbdState.recv, if_neg hk, if_neg hs, if_neg hr]
  rw [if_neg hr]
  by_cases hback : b = backspaceScode
  · have hcalls : [.backspace] = (kbdState arg s).calls behind b := by
      rw [KbdState.calls, if_neg hshown, if_pos hback]
    rw [if_pos hback]
    exact wp_vgaCall id fun _ hstate hpos => ⟨hstate.trans hsame, hcalls, rfl, hpos⟩
  rw [if_neg hback]
  refine wp_when (fun hack => ?_) fun hack => ?_
  · have hcalls : [.display (charFromScode behind b (kbdState arg s).shiftPressed)] =
        (kbdState arg s).calls behind b := by
      rw [KbdState.calls, if_neg hshown, if_neg hback, if_neg hack]
    refine wp_own_bind ⟨by simp, by simp⟩ ?_
    rintro flag ⟨s₁, d⟩ ⟨⟨rfl, hs⟩, hd⟩
    obtain rfl : s = s₁ := hs.symm
    obtain rfl : d = [] := hd
    exact wp_vgaCall id fun _ hstate hpos => ⟨hstate.trans hsame, hcalls, rfl, hpos⟩
  · have hnone : [] = (kbdState arg s).calls behind b := by
      rw [KbdState.calls, if_neg hshown, if_neg hback, if_pos (not_not.mp hack)]
    exact ⟨hsame, hnone, rfl, id⟩

def keyboardStep : (o : Action) → DriverState × List Byte →
    Option (o.Res × (DriverState × List Byte)) :=
  Action.step (fun port d => if port = ioP1 then (d.headD 0, d.tail) else (0, d)) fun _ _ d => d

theorem keyboardStep_exec (o : Action) (s : DriverState × List Byte) (r : o.Res)
    (s' : DriverState × List Byte) (h : keyboardStep o s = some (r, s')) :
    keyboard.Exec o s r s' := by
  refine Action.exec_of_step (fun port d => ?_) (fun _ _ _ => rfl) o s r s' h
  by_cases hp : port = ioP1
  · simp only [keyboard, if_pos hp]
    refine ⟨trivial, fun b hb => ?_⟩
    rw [List.headD_eq_head?_getD, hb]
    rfl
  · simp only [keyboard, if_neg hp]

theorem keyboard_enabled {o : Action} (ho : o ≠ .halt ∧ o ≠ .fuel) (u : DriverState × List Byte) :
    ∃ r v, keyboard.Exec o u r v := by
  obtain ⟨r, v, hstep⟩ := Action.exists_step ho u
  exact ⟨r, v, keyboardStep_exec o u r v hstep⟩

theorem client_enabled (h : Positioned s) {o : ClientOp}
    {v : (DriverState × List Byte) × List VgaCall} (ho : ClientOk s o v) :
    ∃ r v', clientExec o v r v' := by
  cases o with
  | inl o =>
    obtain ⟨r, u, he⟩ := keyboard_enabled ho v.1
    exact ⟨r, (u, v.2 ++ []), runs_perform_iff.mpr he, rfl⟩
  | inr call =>
    have hruns : ∃ u, call.prog.Runs keyboard.Exec v.1 () u := call.exists_runs (ho h)
    obtain ⟨u, hrun⟩ := hruns
    exact ⟨(), (u, v.2 ++ [call]), hrun, rfl⟩

theorem KbdShows.arg_ne (h : KbdShows arg behind scode s log s') : arg ≠ 0 := by
  rintro rfl
  rw [KbdShows, kbdIsrClient, clientAssert, if_neg (by simp), op_bind, runs_op_iff] at h
  obtain ⟨r, -⟩ := h
  exact r.elim

theorem KbdShows.handled (h : KbdShows arg behind scode s log s') :
    KbdHandled arg behind scode s ((s', []), log) := (kbdIsrClient_wp h.arg_ne).runs h

theorem KbdInterrupt.state (h : KbdInterrupt arg scode s s') :
    kbdState arg s' = (kbdState arg s).recv scode := by
  obtain ⟨behind, calls, hshows⟩ := kbdInterrupt_iff.mp h
  exact hshows.handled.state

theorem exists_kbdShows (harg : arg ≠ 0) (h : Positioned s) (behind : List ScodeMapElem)
    (scode : Byte) : ∃ calls s', KbdShows arg behind scode s calls s' ∧ Positioned s' := by
  have hwp : (kbdIsrClient behind kbdIntNum arg).wp _ _ _ ((s, [scode]), []) := kbdIsrClient_wp harg
  obtain ⟨_, ⟨⟨s', d⟩, calls⟩, hrun⟩ := hwp.exists_runs (only_true _) fun o v _ => client_enabled h
  have hend := hwp.runs hrun
  obtain rfl : d = [] := hend.read
  exact ⟨calls, s', hrun, hend.positioned h⟩

end SkipOS
