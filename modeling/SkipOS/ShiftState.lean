import SkipOS.KbdHandler
import Mathlib.Data.List.Induction

/-! The shift state of the keyboard handler over streams of key events. -/

namespace SkipOS

open Prog

/-- The bytes that arrive, and between them code that leaves `kdb_state` alone. -/
inductive KbdRun (arg : Word) (s₀ : DriverState) : List Byte → DriverState → Prop
  | refl : KbdRun arg s₀ [] s₀
  | other {scodes : List Byte} {s s' : DriverState} (h : KbdRun arg s₀ scodes s)
      (hstate : kbdState arg s' = kbdState arg s) : KbdRun arg s₀ scodes s'
  | interrupt {scodes : List Byte} {scode : Byte} {s s' : DriverState} (h : KbdRun arg s₀ scodes s)
      (hi : KbdInterrupt arg scode s s') : KbdRun arg s₀ (scodes ++ [scode]) s'

/-- A key by its code, which is one byte. -/
abbrev Key := {scode : Byte // scode ≠ releasedScode}

def leftShift : Key := ⟨lShiftScode, by decide⟩

def rightShift : Key := ⟨rShiftScode, by decide⟩

inductive KbdEvent where
  | press (key : Key)
  | release (key : Key)

def KbdEvent.scodes : KbdEvent → List Byte
  | press key => [key.val]
  | release key => [releasedScode, key.val]

def streamScodes (es : List KbdEvent) : List Byte := es.flatMap KbdEvent.scodes

def KbdEvent.apply (held : Key → Bool) : KbdEvent → Key → Bool
  | press key => Function.update held key true
  | release key => Function.update held key false

/-- The keys down after the events where those in `held` were down before. -/
def heldAfter (held : Key → Bool) (es : List KbdEvent) : Key → Bool := es.foldl KbdEvent.apply held

/-- Makes and breaks of each key alternate. -/
def Alternating (held : Key → Bool) : List KbdEvent → Prop
  | [] => True
  | .press key :: es => held key = false ∧ Alternating (KbdEvent.apply held (.press key)) es
  | .release key :: es => held key = true ∧ Alternating (KbdEvent.apply held (.release key)) es

variable {arg : Word} {s s' s₀ t : DriverState} {scode : Byte} {scodes : List Byte}
  {held : Key → Bool} {es pre : List KbdEvent}

theorem KbdRun.state (h : KbdRun arg s₀ scodes s) :
    kbdState arg s = scodes.foldl KbdState.recv (kbdState arg s₀) := by
  induction h with
  | refl => rfl
  | other _ hstate ih => rw [hstate, ih]
  | interrupt _ hi ih => rw [hi.state, ih, List.foldl_append]; rfl

theorem KbdRun.of_append {more : List Byte} (h : KbdRun arg s₀ (scodes ++ more) t) :
    ∃ s, KbdRun arg s₀ scodes s := by
  induction more using List.reverseRecOn generalizing t with
  | nil => exact ⟨t, by simpa using h⟩
  | append_singleton more scode ih =>
    generalize hall : scodes ++ (more ++ [scode]) = all at h
    induction h with
    | refl => simp at hall
    | other _ _ ih' => exact ih' hall
    | @interrupt scodes' scode' s s' h _ _ =>
      rw [← List.append_assoc] at hall
      obtain ⟨rfl, -⟩ := List.append_inj' hall rfl
      exact ih h

def KbdEvent.shift (shiftPressed : Bool) : KbdEvent → Bool
  | press key => if IsShift key.val then true else shiftPressed
  | release key => if IsShift key.val then false else shiftPressed

def shiftHeld (held : Key → Bool) : Bool := held leftShift || held rightShift

/-- One shift key is released while the other is down. -/
def KbdEvent.ReleasesOne (held : Key → Bool) : KbdEvent → Prop
  | press _ => False
  | release key => key = leftShift ∧ held rightShift = true ∨ key = rightShift ∧ held leftShift = true

theorem KbdState.recv_event (shiftPressed : Bool) (e : KbdEvent) :
    e.scodes.foldl KbdState.recv ⟨shiftPressed, false⟩ = ⟨e.shift shiftPressed, false⟩ := by
  cases e with
  | press key =>
    have hkey := key.property
    by_cases hs : IsShift key.val
    · simp [KbdEvent.scodes, KbdEvent.shift, KbdState.recv, hs]
    · simp [KbdEvent.scodes, KbdEvent.shift, KbdState.recv, hs, hkey]
  | release key =>
    have hns : ¬ IsShift releasedScode := by decide
    by_cases hs : IsShift key.val
    · simp [KbdEvent.scodes, KbdEvent.shift, KbdState.recv, hs, hns]
    · simp [KbdEvent.scodes, KbdEvent.shift, KbdState.recv, hs, hns]

theorem recv_streamScodes (es : List KbdEvent) (shiftPressed : Bool) :
    (streamScodes es).foldl KbdState.recv ⟨shiftPressed, false⟩ =
      ⟨es.foldl KbdEvent.shift shiftPressed, false⟩ := by
  induction es generalizing shiftPressed with
  | nil => rfl
  | cons e es ih =>
    have hsplit : streamScodes (e :: es) = e.scodes ++ streamScodes es := rfl
    rw [hsplit, List.foldl_append, KbdState.recv_event, ih]
    rfl

/-- Between events the handler waits for a make. -/
theorem KbdRun.between (h : KbdRun arg s₀ (streamScodes es) s)
    (hstart : kbdState arg s₀ = ⟨false, false⟩) :
    kbdState arg s = ⟨es.foldl KbdEvent.shift false, false⟩ := by
  rw [h.state, hstart, recv_streamScodes]

theorem KbdRun.shift (h : KbdRun arg s₀ (streamScodes es) s)
    (hstart : kbdState arg s₀ = ⟨false, false⟩) :
    (kbdState arg s).shiftPressed = es.foldl KbdEvent.shift false := by
  rw [h.between hstart]

theorem isShift_iff (key : Key) : IsShift key.val ↔ key = leftShift ∨ key = rightShift := by
  rw [Subtype.ext_iff, Subtype.ext_iff]
  rfl

/-- The flag follows the two keys unless one is released while the other is down. -/
theorem KbdEvent.shift_shiftHeld (held : Key → Bool) (e : KbdEvent) :
    e.shift (shiftHeld held) = shiftHeld (e.apply held) ↔ ¬ e.ReleasesOne held := by
  have hne : leftShift ≠ rightShift := by decide
  cases e with
  | press key =>
    by_cases hl : key = leftShift
    · simp [shift, shiftHeld, apply, ReleasesOne, isShift_iff, hl, hne.symm]
    by_cases hr : key = rightShift
    · simp [shift, shiftHeld, apply, ReleasesOne, isShift_iff, hr, hne]
    · simp [shift, shiftHeld, apply, ReleasesOne, isShift_iff, hl, hr, Ne.symm hl, Ne.symm hr]
  | release key =>
    by_cases hl : key = leftShift
    · simp [shift, shiftHeld, apply, ReleasesOne, isShift_iff, hl, hne, hne.symm]
    by_cases hr : key = rightShift
    · simp [shift, shiftHeld, apply, ReleasesOne, isShift_iff, hr, hne, hne.symm]
    · simp [shift, shiftHeld, apply, ReleasesOne, isShift_iff, hl, hr, Ne.symm hl, Ne.symm hr]

theorem shift_foldl_iff (hup : shiftHeld held = false) :
    (∀ pre, pre <+: es → pre.foldl KbdEvent.shift false = shiftHeld (heldAfter held pre)) ↔
      ∀ pre e, pre ++ [e] <+: es → ¬ e.ReleasesOne (heldAfter held pre) := by
  have happly (pre : List KbdEvent) (e : KbdEvent) :
      heldAfter held (pre ++ [e]) = e.apply (heldAfter held pre) := List.foldl_append ..
  constructor
  · intro h pre e hpre
    have hnow := h pre ((List.prefix_append pre [e]).trans hpre)
    have hnext := h (pre ++ [e]) hpre
    rw [List.foldl_append, hnow, happly] at hnext
    exact (KbdEvent.shift_shiftHeld _ e).mp hnext
  · intro h pre
    induction pre using List.reverseRecOn with
    | nil => exact fun _ => hup.symm
    | append_singleton pre e ih =>
      intro hpre
      have hnow := ih ((List.prefix_append pre [e]).trans hpre)
      rw [List.foldl_append, hnow, happly]
      exact (KbdEvent.shift_shiftHeld _ e).mpr (h pre e hpre)

/-- After every event the flag tells whether a shift key is down, exactly when none is
released while the other is down. -/
theorem shift_pressed_iff_held_iff {arg : Word} {s₀ t : DriverState} {held : Key → Bool}
    {es : List KbdEvent} (hstart : kbdState arg s₀ = ⟨false, false⟩)
    (hleft : held leftShift = false) (hright : held rightShift = false)
    (hrun : KbdRun arg s₀ (streamScodes es) t) :
    (∀ pre s, pre <+: es → KbdRun arg s₀ (streamScodes pre) s →
      ((kbdState arg s).shiftPressed = true ↔
        heldAfter held pre leftShift = true ∨ heldAfter held pre rightShift = true)) ↔
    ∀ pre e, pre ++ [e] <+: es → ¬ e.ReleasesOne (heldAfter held pre) := by
  have hup : shiftHeld held = false := by rw [shiftHeld, hleft, hright]; rfl
  rw [← shift_foldl_iff hup]
  refine forall_congr' fun pre => ?_
  constructor
  · intro h hpre
    obtain ⟨more, rfl⟩ := hpre
    have hall : streamScodes (pre ++ more) = streamScodes pre ++ streamScodes more :=
      List.flatMap_append
    rw [hall] at hrun
    obtain ⟨s, hs⟩ := hrun.of_append
    have hiff := h s (List.prefix_append pre more) hs
    rw [hs.shift hstart, ← Bool.or_eq_true] at hiff
    exact Bool.eq_iff_iff.mpr hiff
  · intro h s hpre hs
    rw [hs.shift hstart, h hpre, shiftHeld, Bool.or_eq_true]

def afterScode (s : DriverState) (scode : Byte) : DriverState × List Byte :=
  (kbdIsrHandler [] kbdIntNum 0 0x100000).final keyboardStep (s, [scode])

theorem KbdRun.typed (h : KbdRun 0x100000 s₀ scodes s)
    (hends : ((kbdIsrHandler [] kbdIntNum 0 0x100000).eval keyboardStep (s, [scode])).isSome = true)
    (hread : (afterScode s scode).2 = []) :
    KbdRun 0x100000 s₀ (scodes ++ [scode]) (afterScode s scode).1 := by
  have hrun := runs_final keyboardStep_exec hends
  have hend : (kbdIsrHandler [] kbdIntNum 0 0x100000).final keyboardStep (s, [scode]) =
      ((afterScode s scode).1, []) := Prod.ext rfl hread
  rw [hend] at hrun
  exact .interrupt h ⟨[], 0, hrun⟩

def keysUp : DriverState := ⟨0, zeroVars⟩

def leftDown : DriverState := (afterScode keysUp lShiftScode).1

theorem leftDown_run : KbdRun 0x100000 keysUp [lShiftScode] leftDown :=
  KbdRun.refl.typed (by decide +kernel) (by decide +kernel)

/-- One shift key after the other. -/
def inTurn : List KbdEvent :=
  [.press leftShift, .release leftShift, .press rightShift, .release rightShift]

def leftUp : DriverState := (afterScode (afterScode leftDown releasedScode).1 lShiftScode).1

def rightDown : DriverState := (afterScode leftUp rShiftScode).1

def bothUp : DriverState := (afterScode (afterScode rightDown releasedScode).1 rShiftScode).1

theorem bothUp_run : KbdRun 0x100000 keysUp (streamScodes inTurn) bothUp := by
  have hreleasing : KbdRun 0x100000 keysUp [lShiftScode, releasedScode]
      (afterScode leftDown releasedScode).1 :=
    leftDown_run.typed (by decide +kernel) (by decide +kernel)
  have hleft : KbdRun 0x100000 keysUp [lShiftScode, releasedScode, lShiftScode] leftUp :=
    hreleasing.typed (by decide +kernel) (by decide +kernel)
  have hright : KbdRun 0x100000 keysUp [lShiftScode, releasedScode, lShiftScode, rShiftScode]
      rightDown := hleft.typed (by decide +kernel) (by decide +kernel)
  have hreleasing' : KbdRun 0x100000 keysUp
      [lShiftScode, releasedScode, lShiftScode, rShiftScode, releasedScode]
      (afterScode rightDown releasedScode).1 :=
    hright.typed (by decide +kernel) (by decide +kernel)
  exact hreleasing'.typed (by decide +kernel) (by decide +kernel)

theorem shift_pressed_left :
    KbdRun 0x100000 keysUp (streamScodes inTurn) bothUp ∧
      ∀ pre s, pre <+: inTurn → KbdRun 0x100000 keysUp (streamScodes pre) s →
        ((kbdState 0x100000 s).shiftPressed = true ↔
          heldAfter (fun _ => false) pre leftShift = true ∨
            heldAfter (fun _ => false) pre rightShift = true) := by
  refine ⟨bothUp_run, (shift_pressed_iff_held_iff (by decide) rfl rfl bothUp_run).mpr ?_⟩
  rintro (_ | ⟨_, _ | ⟨_, _ | ⟨_, _ | ⟨_, _⟩⟩⟩⟩) e hpre
  all_goals simp [inTurn, List.cons_prefix_cons] at hpre
  · obtain rfl := hpre
    exact id
  · obtain ⟨rfl, rfl⟩ := hpre
    rintro (⟨-, hheld⟩ | ⟨hkey, -⟩)
    · exact absurd hheld (by decide)
    · exact absurd hkey (by decide)
  · obtain ⟨rfl, rfl, rfl⟩ := hpre
    exact id
  · obtain ⟨rfl, rfl, rfl, rfl⟩ := hpre
    rintro (⟨hkey, -⟩ | ⟨-, hheld⟩)
    · exact absurd hkey (by decide)
    · exact absurd hheld (by decide)

def overlapping : List KbdEvent := [.press leftShift, .press rightShift, .release leftShift]

def bothDown : DriverState := (afterScode leftDown rShiftScode).1

def releasing : DriverState := (afterScode bothDown releasedScode).1

def rightStillDown : DriverState := (afterScode releasing lShiftScode).1

theorem overlapping_shift_lost :
    KbdRun 0x100000 keysUp (streamScodes overlapping) rightStillDown ∧
      Alternating (fun _ => false) overlapping ∧
      (kbdState 0x100000 rightStillDown).shiftPressed = false ∧
      heldAfter (fun _ => false) overlapping rightShift = true := by
  have hboth : KbdRun 0x100000 keysUp [lShiftScode, rShiftScode] bothDown :=
    leftDown_run.typed (by decide +kernel) (by decide +kernel)
  have hreleasing : KbdRun 0x100000 keysUp [lShiftScode, rShiftScode, releasedScode] releasing :=
    hboth.typed (by decide +kernel) (by decide +kernel)
  have hend : KbdRun 0x100000 keysUp (streamScodes overlapping) rightStillDown :=
    hreleasing.typed (by decide +kernel) (by decide +kernel)
  exact ⟨hend, ⟨by decide, by decide, by decide, trivial⟩, by decide +kernel, by decide⟩

end SkipOS
