import SkipOS.Page

/-! The screen as the end of an unbounded sheet of rows. -/

namespace SkipOS

open Prog

/-- Rows of 80 columns without end, and the place written next. Blank cells are 0. -/
structure Sheet where
  char : Nat → Nat → Byte
  row : Nat
  col : Nat

namespace Sheet

def blank : Sheet := ⟨fun _ _ => 0, 0, 0⟩

def newline (sh : Sheet) : Sheet := { sh with row := sh.row + 1, col := 0 }

def down (sh : Sheet) : Sheet := { sh with row := sh.row + 1 }

def setChar (sh : Sheet) (r c : Nat) (x : Byte) : Nat → Nat → Byte :=
  Function.update sh.char r (Function.update (sh.char r) c x)

def write (sh : Sheet) (x : Byte) : Sheet :=
  { sh with char := sh.setChar sh.row sh.col x, col := sh.col + 1 }

def wrap (sh : Sheet) : Sheet := if sh.col = 80 then sh.newline else sh

def display (sh : Sheet) (x : Byte) : Sheet :=
  if x = 0x0A then sh.newline else if x = 0x0D then sh.down else (sh.write x).wrap

def backspace (sh : Sheet) : Sheet :=
  if sh.col = 0 then sh
  else { sh with char := sh.setChar sh.row (sh.col - 1) 0, col := sh.col - 1 }

/-- The first of the last 25 rows used. -/
def top (sh : Sheet) : Nat := sh.row - 24

end Sheet

inductive VgaCall where
  | display (c : Byte)
  | backspace

def VgaCall.prog : VgaCall → Driver Unit
  | .display c => vgaDisplayChar c
  | .backspace => vgaBackspaceChar

def Sheet.step (sh : Sheet) : VgaCall → Sheet
  | .display c => sh.display c
  | .backspace => sh.backspace

variable {δ : Type} {D : Device δ} {s s' : DriverState} {d : δ} {top : Nat} {sh : Sheet} {c : Byte}
  {t u v : DriverState × δ} {calls : List VgaCall} {call : VgaCall}

def cellOf (x : Byte) : BitVec 16 := x.setWidth 16 ||| vgaColorMask

/-- The screen from row `top` of the sheet on, where the position may be below it. -/
structure Placed (top : Nat) (sh : Sheet) (s : DriverState) : Prop where
  col : (s.vars .xPos).toNat = sh.col
  row : top + (s.vars .yPos).toNat = sh.row
  full : top = 0 ∨ 24 ≤ (s.vars .yPos).toNat
  cells : ∀ r c, r < 25 → c < 80 → s.cell (c + 80 * r) = cellOf (sh.char (top + r) c)
  below : ∀ r c, sh.row < r ∨ top + 25 ≤ r → sh.char r c = 0

structure Shows (sh : Sheet) (s : DriverState) : Prop where
  placed : Placed sh.top sh s
  inside : (s.vars .xPos).toNat < 80 ∧ (s.vars .yPos).toNat < 25
  cursor : (s.vars .cursor).toNat = (s.vars .xPos).toNat + 80 * (s.vars .yPos).toNat

/-- The sheet as a page whose cell for a character is `f` of it. -/
def Sheet.page (f : Byte → BitVec 16) (sh : Sheet) : Page :=
  ⟨fun r c => f (sh.char r c), sh.row, sh.col⟩

def Sheet.BlankBelow (sh : Sheet) : Prop := ∀ r c, sh.row < r → sh.char r c = 0

theorem cellOf_zero : cellOf 0 = vgaColorMask := by decide

theorem shows_iff : Shows sh s ↔ Draws (sh.page cellOf) s ∧ sh.BlankBelow := by
  constructor
  · intro h
    refine ⟨⟨⟨h.placed.col, h.placed.row, h.placed.full, h.placed.cells, ?_⟩, h.inside, h.cursor⟩, ?_⟩
    · intro r c hr
      show cellOf (sh.char r c) = vgaColorMask
      rw [h.placed.below r c (Or.inr hr), cellOf_zero]
    · intro r c hr
      exact h.placed.below r c (Or.inl hr)
  · rintro ⟨h, hblank⟩
    refine ⟨⟨h.drawn.col, h.drawn.row, h.drawn.full, h.drawn.cells, ?_⟩, h.inside, h.cursor⟩
    intro r c hr
    apply hblank
    rcases hr with hr | hr
    · exact hr
    · have htop : sh.top = sh.row - 24 := rfl
      omega

theorem charCell_ascii (c : Byte) (hc : c.toNat < 128) : charCell c = cellOf c := by
  revert c
  decide

theorem setChar_apply (sh : Sheet) (r c r' c' : Nat) (x : Byte) :
    sh.setChar r c x r' c' = if r' = r ∧ c' = c then x else sh.char r' c' := by
  by_cases hr : r' = r
  · subst hr
    by_cases hc : c' = c
    · simp [Sheet.setChar, hc]
    · simp [Sheet.setChar, hc]
  · simp [Sheet.setChar, hr]

theorem Sheet.page_setChar (f : Byte → BitVec 16) (sh : Sheet) (r c : Nat) (x : Byte) :
    (fun r' c' => f (sh.setChar r c x r' c')) = (sh.page f).setCell r c (f x) := by
  funext r' c'
  rw [setCell_apply, setChar_apply]
  by_cases he : r' = r ∧ c' = c
  · rw [if_pos he, if_pos he]
  · rw [if_neg he, if_neg he]
    rfl

theorem Sheet.page_wrap (f : Byte → BitVec 16) (sh : Sheet) :
    sh.wrap.page f = (sh.page f).wrap := by
  by_cases hfull : sh.col = 80
  · rw [Sheet.wrap, if_pos hfull, Page.wrap, if_pos (show (sh.page f).col = 80 from hfull)]
    rfl
  · rw [Sheet.wrap, if_neg hfull, Page.wrap, if_neg (show ¬ (sh.page f).col = 80 from hfull)]

theorem Sheet.page_display {f : Byte → BitVec 16} (sh : Sheet) (hf : charCell c = f c) :
    (sh.display c).page f = (sh.page f).display c := by
  have hwrite : (sh.write c).page f = (sh.page f).write c := by
    rw [Page.write, hf]
    show Page.mk (fun r' c' => f (sh.setChar sh.row sh.col c r' c')) _ _ = _
    rw [page_setChar]
    rfl
  by_cases hn : c = 0x0A
  · rw [Sheet.display, if_pos hn, Page.display, if_pos hn]
    rfl
  by_cases hr : c = 0x0D
  · rw [Sheet.display, if_neg hn, if_pos hr, Page.display, if_neg hn, if_pos hr]
    rfl
  · rw [Sheet.display, if_neg hn, if_neg hr, Page.display, if_neg hn, if_neg hr, page_wrap, hwrite]

theorem Sheet.page_backspace {f : Byte → BitVec 16} (sh : Sheet) (hf : f 0 = vgaColorMask) :
    sh.backspace.page f = (sh.page f).backspace := by
  by_cases hz : sh.col = 0
  · rw [Sheet.backspace, if_pos hz, Page.backspace, if_pos (show (sh.page f).col = 0 from hz)]
  · rw [Sheet.backspace, if_neg hz, Page.backspace, if_neg (show ¬ (sh.page f).col = 0 from hz)]
    show Page.mk (fun r' c' => f (sh.setChar sh.row (sh.col - 1) 0 r' c')) _ _ = _
    rw [page_setChar, hf]
    rfl

theorem Sheet.BlankBelow.setChar (h : sh.BlankBelow) (c : Nat) (x : Byte) (r' c' : Nat)
    (hr : sh.row < r') : sh.setChar sh.row c x r' c' = 0 := by
  rw [setChar_apply, if_neg (by omega)]
  exact h r' c' hr

theorem Sheet.BlankBelow.wrap (h : sh.BlankBelow) : sh.wrap.BlankBelow := by
  intro r c hr
  by_cases hfull : sh.col = 80
  · rw [Sheet.wrap, if_pos hfull] at hr ⊢
    exact h r c (Nat.lt_of_succ_lt hr)
  · rw [Sheet.wrap, if_neg hfull] at hr ⊢
    exact h r c hr

theorem Sheet.BlankBelow.step (h : sh.BlankBelow) (call : VgaCall) : (sh.step call).BlankBelow := by
  cases call with
  | display x =>
    by_cases hn : x = 0x0A
    · rw [Sheet.step, Sheet.display, if_pos hn]
      exact fun r c hr => h r c (Nat.lt_of_succ_lt hr)
    by_cases hcr : x = 0x0D
    · rw [Sheet.step, Sheet.display, if_neg hn, if_pos hcr]
      exact fun r c hr => h r c (Nat.lt_of_succ_lt hr)
    · rw [Sheet.step, Sheet.display, if_neg hn, if_neg hcr]
      have hwrite : (sh.write x).BlankBelow := fun r c hr => h.setChar sh.col x r c hr
      exact hwrite.wrap
  | backspace =>
    by_cases hz : sh.col = 0
    · rwa [Sheet.step, Sheet.backspace, if_pos hz]
    · rw [Sheet.step, Sheet.backspace, if_neg hz]
      exact fun r c hr => h.setChar (sh.col - 1) 0 r c hr

/-- Calls one after another. -/
inductive VgaRun (D : Device δ) (t : DriverState × δ) : List VgaCall → DriverState × δ → Prop
  | refl : VgaRun D t [] t
  | call {calls : List VgaCall} {u v : DriverState × δ} {call : VgaCall} (h : VgaRun D t calls u)
      (hc : call.prog.Runs D.Exec u () v) : VgaRun D t (calls ++ [call]) v

/-- Only characters of 0..127 are displayed. -/
def VgaCall.Ascii : VgaCall → Prop
  | .display c => c.toNat < 128
  | .backspace => True

theorem VgaCall.wp (h : Shows sh t.1) (hascii : call.Ascii) :
    call.prog.wp NoHalt D.Exec (fun _ u => Shows (sh.step call) u.1) t := by
  obtain ⟨s, d⟩ := t
  obtain ⟨hdraws, hblank⟩ := shows_iff.mp h
  have hpage : call.prog.wp NoHalt D.Exec (fun _ u => Draws ((sh.step call).page cellOf) u.1) (s, d) := by
    cases call with
    | display c =>
      rw [Sheet.step, sh.page_display (charCell_ascii c hascii)]
      exact vgaDisplayChar_wp hdraws
    | backspace =>
      rw [Sheet.step, sh.page_backspace cellOf_zero]
      exact vgaBackspaceChar_wp hdraws
  exact wp_mono hpage fun _ u hu => shows_iff.mpr ⟨hu, hblank.step call⟩

theorem VgaRun.shows (h : VgaRun D t calls u) (hstart : Shows sh t.1)
    (hascii : ∀ call ∈ calls, call.Ascii) : Shows (calls.foldl Sheet.step sh) u.1 := by
  induction h with
  | refl => exact hstart
  | call _ hc ih =>
    rw [List.foldl_append]
    have hbefore := ih fun call hm => hascii call (List.mem_append_left _ hm)
    exact (VgaCall.wp hbefore (hascii _ (by simp))).runs hc

theorem vgaClear_shows (hclear : vgaClear.Runs D.Exec t () u) (hx : t.1.vars .xPos = 0)
    (hy : t.1.vars .yPos = 0) (hc : t.1.vars .cursor = 0) : Shows Sheet.blank u.1 := by
  obtain ⟨s, d⟩ := t
  have hpos : Positioned s := by
    have hx' : s.vars .xPos = 0 := hx
    have hy' : s.vars .yPos = 0 := hy
    have hc' : s.vars .cursor = 0 := hc
    refine ⟨?_, ?_⟩
    · rw [hx', hy']
      decide
    · rw [hx', hy', hc']
      rfl
  have hpage : (pageOf s).clear = Sheet.blank.page cellOf := by
    simp only [Page.clear, pageOf, Sheet.page, Sheet.blank, cellOf_zero]
    rw [show s.vars .xPos = 0 from hx, show s.vars .yPos = 0 from hy]
    rfl
  have hdraws := (vgaClear_wp (D := D) (d := d) hpos.draws).runs hclear
  rw [hpage] at hdraws
  exact shows_iff.mpr ⟨hdraws, fun _ _ _ => rfl⟩

/-- The screen always is the end of the sheet that the same calls write, and no assertion fails. -/
theorem screen_shows_sheet {δ : Type} {D : Device δ} {t₀ t₁ t : DriverState × δ}
    {calls : List VgaCall} (hx : t₀.1.vars .xPos = 0) (hy : t₀.1.vars .yPos = 0)
    (hc : t₀.1.vars .cursor = 0) (hclear : vgaClear.Runs D.Exec t₀ () t₁)
    (hascii : ∀ call ∈ calls, call.Ascii) (hrun : VgaRun D t₁ calls t) :
    Shows (calls.foldl Sheet.step Sheet.blank) t.1 ∧
      ∀ call : VgaCall, call.Ascii → ∀ o u, call.prog.Performs D.Exec t o u → o ≠ .halt := by
  have hshows := hrun.shows (vgaClear_shows hclear hx hy hc) hascii
  exact ⟨hshows, fun call hcall o u hp => (VgaCall.wp hshows hcall).performs hp⟩

/-- No port is used. -/
def unplugged : Device Unit where
  inb _ _ _ _ := True
  outb _ _ _ _ := True
  step _ _ := False

def unpluggedStep : (o : Action) → DriverState × Unit → Option (o.Res × (DriverState × Unit)) :=
  Action.step (fun _ d => (0, d)) fun _ _ d => d

theorem unpluggedStep_exec (o : Action) (s : DriverState × Unit) (r : o.Res)
    (s' : DriverState × Unit) (h : unpluggedStep o s = some (r, s')) : unplugged.Exec o s r s' :=
  Action.exec_of_step (fun _ _ => trivial) (fun _ _ _ => trivial) o s r s' h

def cleared : DriverState × Unit := vgaClear.final unpluggedStep (⟨0, zeroVars⟩, ())

def oneCharacter : DriverState × Unit := (vgaDisplayChar 0x41).final unpluggedStep cleared

theorem oneCharacter_shown : Shows (Sheet.blank.step (.display 0x41)) oneCharacter.1 ∧
    ∀ call : VgaCall, call.Ascii → ∀ o u,
      call.prog.Performs unplugged.Exec oneCharacter o u → o ≠ .halt := by
  have hclear : vgaClear.Runs unplugged.Exec (⟨0, zeroVars⟩, ()) () cleared :=
    runs_final unpluggedStep_exec (by decide +kernel)
  have hdisplay : (VgaCall.display 0x41).prog.Runs unplugged.Exec cleared () oneCharacter :=
    runs_final unpluggedStep_exec (by decide +kernel)
  have hascii : ∀ call ∈ [VgaCall.display 0x41], call.Ascii := by
    simp [VgaCall.Ascii]
  exact screen_shows_sheet rfl rfl rfl hclear hascii (.call .refl hdisplay)

end SkipOS
