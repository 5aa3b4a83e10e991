import SkipOS.ShiftState

/-! What the keyboard handler shows of a stream of key events: the calls of `vga.c` that
each event makes. -/

namespace SkipOS

/-- Bytes for the handler and the calls made for them; between them code that leaves `kdb_state`
alone. -/
inductive KbdShown (arg : Word) (behind : List ScodeMapElem) (s₀ : DriverState) :
    List Byte → List VgaCall → DriverState → Prop
  | refl : KbdShown arg behind s₀ [] [] s₀
  | other {scodes : List Byte} {calls : List VgaCall} {s s' : DriverState}
      (h : KbdShown arg behind s₀ scodes calls s) (hstate : kbdState arg s' = kbdState arg s) :
      KbdShown arg behind s₀ scodes calls s'
  | scode {scodes : List Byte} {calls log : List VgaCall} {scode : Byte} {s s' : DriverState}
      (h : KbdShown arg behind s₀ scodes calls s) (hs : KbdShows arg behind scode s log s') :
      KbdShown arg behind s₀ (scodes ++ [scode]) (calls ++ log) s'

/-- An event as it was delivered: what lay behind `sc_map`, and the calls made for its bytes. -/
structure Delivery where
  event : KbdEvent
  behind : List ScodeMapElem
  calls : List VgaCall

inductive KeyRun (arg : Word) (s₀ : DriverState) : List Delivery → DriverState → Prop
  | refl : KeyRun arg s₀ [] s₀
  | other {ds : List Delivery} {s s' : DriverState} (h : KeyRun arg s₀ ds s)
      (hstate : kbdState arg s' = kbdState arg s) : KeyRun arg s₀ ds s'
  | event {ds : List Delivery} {d : Delivery} {s s' : DriverState} (h : KeyRun arg s₀ ds s)
      (hd : KbdShown arg d.behind s d.event.scodes d.calls s') : KeyRun arg s₀ (ds ++ [d]) s'

variable {behind : List ScodeMapElem} {arg : Word} {s s₀ : DriverState} {scodes : List Byte}
  {made : List VgaCall} {ds : List Delivery}

def KbdEvent.key : KbdEvent → Key
  | press key => key
  | release key => key

def KbdEvent.isMake : KbdEvent → Bool
  | press _ => true
  | release _ => false

/-- Whether the last event of a shift key is a make. -/
def lastShiftMade (es : List KbdEvent) : Bool :=
  (es.reverse.find? fun e => IsShift e.key.val).any KbdEvent.isMake

/-- The calls that an event is to make. -/
def KbdEvent.shown (behind : List ScodeMapElem) (shifted : Bool) : KbdEvent → List VgaCall
  | press key =>
    if IsShift key.val then []
    else if key.val = backspaceScode then [.backspace]
    else [.display (charFromScode behind key.val shifted)]
  | release _ => []

theorem lastShiftMade_eq (es : List KbdEvent) :
    lastShiftMade es = es.foldl KbdEvent.shift false := by
  induction es using List.reverseRecOn with
  | nil => rfl
  | append_singleton es e ih =>
    rw [lastShiftMade, List.reverse_append, List.reverse_singleton, List.singleton_append,
      List.find?_cons, List.foldl_append]
    by_cases hs : IsShift e.key.val
    · rw [decide_eq_true hs]
      cases e with
      | press key => exact (if_pos hs).symm
      | release key => exact (if_pos hs).symm
    · rw [decide_eq_false hs]
      refine ih.trans ?_
      cases e with
      | press key => exact (if_neg hs).symm
      | release key => exact (if_neg hs).symm

theorem KbdShown.state (h : KbdShown arg behind s₀ scodes made s) :
    kbdState arg s = scodes.foldl KbdState.recv (kbdState arg s₀) := by
  induction h with
  | refl => rfl
  | other _ hstate ih => rw [hstate, ih]
  | scode _ hs ih => rw [hs.handled.state, ih, List.foldl_append]; rfl

def KbdState.callsAll (behind : List ScodeMapElem) : KbdState → List Byte → List VgaCall
  | _, [] => []
  | k, scode :: scodes => k.calls behind scode ++ (k.recv scode).callsAll behind scodes

theorem KbdState.callsAll_append (k : KbdState) (more : List Byte) :
    k.callsAll behind (scodes ++ more) =
      k.callsAll behind scodes ++ (scodes.foldl KbdState.recv k).callsAll behind more := by
  induction scodes generalizing k with
  | nil => rfl
  | cons scode scodes ih =>
    rw [List.cons_append, callsAll, callsAll, ih, List.append_assoc]
    rfl

theorem KbdShown.calls_eq (h : KbdShown arg behind s₀ scodes made s) :
    made = (kbdState arg s₀).callsAll behind scodes := by
  induction h with
  | refl => rfl
  | other _ _ ih => exact ih
  | scode h hs ih =>
    rw [KbdState.callsAll_append, ← ih, ← h.state]
    exact congrArg _ (hs.handled.calls.trans (List.append_nil _).symm)

theorem KbdState.callsAll_event (shifted : Bool) {e : KbdEvent} (hack : e.key.val ≠ kbdAckRsp) :
    KbdState.callsAll behind ⟨shifted, false⟩ e.scodes = e.shown behind shifted := by
  cases e with
  | press key =>
    have hkey := key.property
    have hack : key.val ≠ kbdAckRsp := hack
    have hone : KbdState.callsAll behind ⟨shifted, false⟩ (KbdEvent.press key).scodes =
        KbdState.calls ⟨shifted, false⟩ behind key.val := List.append_nil _
    rw [hone, KbdEvent.shown]
    by_cases hs : IsShift key.val
    · simp [KbdState.calls, hs]
    · simp [KbdState.calls, hs, hkey, hack]
  | release key =>
    have hns : ¬ IsShift releasedScode := by decide
    simp [KbdEvent.scodes, KbdState.callsAll, KbdState.calls, KbdState.recv, KbdEvent.shown, hns]

theorem KeyRun.state (h : KeyRun arg s₀ ds s) (hstart : kbdState arg s₀ = ⟨false, false⟩) :
    kbdState arg s = ⟨lastShiftMade (ds.map Delivery.event), false⟩ := by
  induction h with
  | refl => exact hstart
  | other _ hstate ih => rw [hstate, ih]
  | event _ hd ih =>
    rw [hd.state, ih, KbdState.recv_event, lastShiftMade_eq, lastShiftMade_eq, List.map_append,
      List.foldl_append]
    rfl

theorem KeyRun.calls_eq (h : KeyRun arg s₀ ds s) (hstart : kbdState arg s₀ = ⟨false, false⟩)
    {pre post : List Delivery} {d : Delivery} (hd : ds = pre ++ d :: post)
    (hack : d.event.key.val ≠ kbdAckRsp) :
    d.calls = d.event.shown d.behind (lastShiftMade (pre.map Delivery.event)) := by
  induction h generalizing post with
  | refl => simp at hd
  | other _ _ ih => exact ih hd
  | @event ds d' s s' h hd' ih =>
    rcases List.eq_nil_or_concat post with rfl | ⟨post, last, rfl⟩
    · obtain ⟨rfl, hlast⟩ := List.append_inj' hd rfl
      obtain rfl : d' = d := List.singleton_inj.mp hlast
      rw [hd'.calls_eq, h.state hstart, KbdState.callsAll_event _ hack]
    · rw [List.concat_eq_append, ← List.cons_append, ← List.append_assoc] at hd
      exact ih (List.append_inj' hd rfl).1

theorem exists_kbdShown (harg : arg ≠ 0) (h : Positioned s₀) (behind : List ScodeMapElem)
    (scodes : List Byte) : ∃ calls s, KbdShown arg behind s₀ scodes calls s ∧ Positioned s := by
  induction scodes using List.reverseRecOn with
  | nil => exact ⟨[], s₀, .refl, h⟩
  | append_singleton scodes scode ih =>
    obtain ⟨calls, s, hshown, hpos⟩ := ih
    obtain ⟨log, s', hs, hpos'⟩ := exists_kbdShows harg hpos behind scode
    exact ⟨calls ++ log, s', hshown.scode hs, hpos'⟩

/-- Where the next character has its place on the screen, one more event can be delivered. -/
theorem KeyRun.next (h : KeyRun arg s₀ ds s) (hstart : kbdState arg s₀ = ⟨false, false⟩)
    (harg : arg ≠ 0) (hpos : Positioned s) {e : KbdEvent} (hack : e.key.val ≠ kbdAckRsp)
    (behind : List ScodeMapElem) : ∃ s', KeyRun arg s₀
      (ds ++ [⟨e, behind, e.shown behind (lastShiftMade (ds.map Delivery.event))⟩]) s' ∧
      Positioned s' := by
  obtain ⟨calls, s', hshown, hpos'⟩ := exists_kbdShown harg hpos behind e.scodes
  have hcalls : calls = e.shown behind (lastShiftMade (ds.map Delivery.event)) := by
    rw [hshown.calls_eq, h.state hstart, KbdState.callsAll_event _ hack]
  rw [← hcalls]
  exact ⟨s', h.event hshown, hpos'⟩

/-- After every event the handler waits for a make, and each made the calls of its key alone. -/
theorem key_events_shown {arg : Word} {s₀ t : DriverState} {ds : List Delivery}
    (hstart : kbdState arg s₀ = ⟨false, false⟩)
    (hack : ∀ d ∈ ds, d.event.key.val ≠ kbdAckRsp) (hrun : KeyRun arg s₀ ds t) :
    (kbdState arg t).prevScodeRelease = false ∧
      (∀ pre d post, ds = pre ++ d :: post →
        d.calls = d.event.shown d.behind (lastShiftMade (pre.map Delivery.event))) ∧
      (arg ≠ 0 → Positioned t → ∀ e behind, e.key.val ≠ kbdAckRsp → ∃ t', KeyRun arg s₀
        (ds ++ [⟨e, behind, e.shown behind (lastShiftMade (ds.map Delivery.event))⟩]) t' ∧
        Positioned t') := by
  refine ⟨?_, ?_, ?_⟩
  · rw [hrun.state hstart]
  · intro pre d post hd
    exact hrun.calls_eq hstart hd (hack d (by simp [hd]))
  · intro harg hpos e behind hack'
    exact hrun.next hstart harg hpos hack' behind

def keyA : Key := ⟨0x1C, by decide⟩

def capitalA : List Delivery :=
  [⟨.press leftShift, [], []⟩, ⟨.press keyA, [], [.display 0x41]⟩, ⟨.release keyA, [], []⟩]

theorem capitalA_run : ∃ t, KeyRun 0x100000 keysUp capitalA t := by
  have hstart : kbdState 0x100000 keysUp = ⟨false, false⟩ := rfl
  have harg : (0x100000 : Word) ≠ 0 := by decide
  have hshift : leftShift.val ≠ kbdAckRsp := by decide
  have hkey : keyA.val ≠ kbdAckRsp := by decide
  obtain ⟨s₁, h₁, hpos₁⟩ :=
    KeyRun.refl.next hstart harg positioned_zero (e := .press leftShift) hshift []
  obtain ⟨s₂, h₂, hpos₂⟩ := h₁.next hstart harg hpos₁ (e := .press keyA) hkey []
  obtain ⟨s₃, h₃, -⟩ := h₂.next hstart harg hpos₂ (e := .release keyA) hkey []
  exact ⟨s₃, h₃⟩

theorem key_events_capitalA : ∃ t, KeyRun 0x100000 keysUp capitalA t ∧
    (kbdState 0x100000 t).prevScodeRelease = false ∧
    ∀ pre d post, capitalA = pre ++ d :: post →
      d.calls = d.event.shown d.behind (lastShiftMade (pre.map Delivery.event)) := by
  obtain ⟨t, hrun⟩ := capitalA_run
  have h := key_events_shown rfl (by decide) hrun
  exact ⟨t, hrun, h.1, h.2.1⟩

end SkipOS
