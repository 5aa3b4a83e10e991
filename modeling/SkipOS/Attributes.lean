import SkipOS.Sheet
import Mathlib.Data.List.Induction

/-! The two bytes of each cell of the screen when any characters are displayed. -/

namespace SkipOS

open Prog

inductive ScreenCall where
  | clear
  | display (c : Byte)
  | backspace
  deriving DecidableEq

def ScreenCall.prog : ScreenCall → Driver Unit
  | .clear => vgaClear
  | .display c => vgaDisplayChar c
  | .backspace => vgaBackspaceChar

def Page.step (pg : Page) : ScreenCall → Page
  | .clear => pg.clear
  | .display c => pg.display c
  | .backspace => pg.backspace

def Sheet.screenStep (sh : Sheet) : ScreenCall → Sheet
  | .clear => { sh with char := fun _ _ => 0 }
  | .display c => sh.display c
  | .backspace => sh.backspace

inductive ScreenRun {δ : Type} (D : Device δ) (t : DriverState × δ) :
    List ScreenCall → DriverState × δ → Prop
  | refl : ScreenRun D t [] t
  | call {calls : List ScreenCall} {u v : DriverState × δ} {call : ScreenCall}
      (h : ScreenRun D t calls u) (hc : call.prog.Runs D.Exec u () v) :
      ScreenRun D t (calls ++ [call]) v

def vgaColor : Byte := 0x07

def attributeByte (cell : BitVec 16) : Byte := (cell >>> 8).setWidth 8

def charByte (cell : BitVec 16) : Byte := cell.setWidth 8

def AttributesKept (s : DriverState) : Prop :=
  ∀ i, i < 2000 → attributeByte (s.cell i) = vgaColor

/-- The characters on the screen are those at the end of the sheet. -/
def CharsShown (sh : Sheet) (s : DriverState) : Prop :=
  ∀ r c, r < 25 → c < 80 → charByte (s.cell (c + 80 * r)) = sh.char (sh.top + r) c

def sheetAt (s : DriverState) : Sheet :=
  ⟨fun _ _ => 0, (s.vars .yPos).toNat, (s.vars .xPos).toNat⟩

/-- The sheet that the calls write from the position in `s` on. -/
def sheetAfter (s : DriverState) (calls : List ScreenCall) : Sheet :=
  calls.foldl Sheet.screenStep (sheetAt s)

def pageAfter (s : DriverState) (calls : List ScreenCall) : Page :=
  calls.foldl Page.step (pageOf s)

variable {δ : Type} {D : Device δ} {s : DriverState} {t u v : DriverState × δ} {pg : Page}
  {sh : Sheet} {calls more : List ScreenCall} {call : ScreenCall} {c : Byte}

theorem ScreenCall.wp (h : Draws pg t.1) :
    call.prog.wp NoHalt D.Exec (fun _ u => Draws (pg.step call) u.1) t := by
  obtain ⟨s, d⟩ := t
  cases call with
  | clear => exact vgaClear_wp h
  | display c => exact vgaDisplayChar_wp h
  | backspace => exact vgaBackspaceChar_wp h

theorem ScreenRun.draws (h : ScreenRun D t calls u) (hstart : Positioned t.1) :
    Draws (pageAfter t.1 calls) u.1 := by
  induction h with
  | refl => exact hstart.draws
  | call _ hc ih =>
    rw [pageAfter, List.foldl_append]
    exact (ScreenCall.wp ih).runs hc

theorem ScreenRun.of_append (h : ScreenRun D t (calls ++ more) u) : ∃ v, ScreenRun D t calls v := by
  induction more using List.reverseRecOn generalizing u with
  | nil => exact ⟨u, by simpa using h⟩
  | append_singleton more call ih =>
    generalize hall : calls ++ (more ++ [call]) = all at h
    cases h with
    | refl => simp at hall
    | call h _ =>
      rw [← List.append_assoc] at hall
      obtain ⟨rfl, -⟩ := List.append_inj' hall rfl
      exact ih h

theorem charCell_zero : charCell 0 = vgaColorMask := by decide

theorem charByte_charCell (c : Byte) : charByte (charCell c) = c := by
  revert c
  decide

theorem attributeByte_charCell (c : Byte) :
    attributeByte (charCell c) = vgaColor ↔ c.toNat < 128 := by
  revert c
  decide

/-! The page is the sheet from the first clearing on. -/

theorem Sheet.page_screenStep (sh : Sheet) (call : ScreenCall) :
    (sh.screenStep call).page charCell = (sh.page charCell).step call := by
  cases call with
  | clear =>
    show Page.mk (fun _ _ => charCell 0) sh.row sh.col = _
    rw [charCell_zero]
    rfl
  | display c => exact sh.page_display rfl
  | backspace => exact sh.page_backspace charCell_zero

structure SamePlace (pg pg' : Page) : Prop where
  row : pg.row = pg'.row
  col : pg.col = pg'.col

theorem SamePlace.wrap {pg pg' : Page} (h : SamePlace pg pg') : SamePlace pg.wrap pg'.wrap := by
  by_cases hfull : pg.col = 80
  · rw [Page.wrap, if_pos hfull, Page.wrap, if_pos (h.col.symm.trans hfull)]
    exact ⟨congrArg (· + 1) h.row, rfl⟩
  · rw [Page.wrap, if_neg hfull, Page.wrap, if_neg (h.col ▸ hfull)]
    exact h

theorem SamePlace.step {pg pg' : Page} (h : SamePlace pg pg') (call : ScreenCall) :
    SamePlace (pg.step call) (pg'.step call) := by
  cases call with
  | clear => exact ⟨h.row, h.col⟩
  | display c =>
    rw [Page.step, Page.step, Page.display, Page.display]
    by_cases hn : c = 0x0A
    · rw [if_pos hn, if_pos hn]
      exact ⟨congrArg (· + 1) h.row, rfl⟩
    by_cases hr : c = 0x0D
    · rw [if_neg hn, if_pos hr, if_neg hn, if_pos hr]
      exact ⟨congrArg (· + 1) h.row, h.col⟩
    · rw [if_neg hn, if_neg hr, if_neg hn, if_neg hr]
      have hwrite : SamePlace (pg.write c) (pg'.write c) := ⟨h.row, congrArg (· + 1) h.col⟩
      exact hwrite.wrap
  | backspace =>
    rw [Page.step, Page.step]
    by_cases hz : pg.col = 0
    · rwa [Page.backspace, if_pos hz, Page.backspace, if_pos (h.col.symm.trans hz)]
    · rw [Page.backspace, if_neg hz, Page.backspace, if_neg (h.col ▸ hz)]
      exact ⟨h.row, congrArg (· - 1) h.col⟩

theorem samePlace_after (s : DriverState) (calls : List ScreenCall) :
    SamePlace (pageAfter s calls) ((sheetAfter s calls).page charCell) := by
  induction calls using List.reverseRecOn with
  | nil => exact ⟨rfl, rfl⟩
  | append_singleton calls call ih =>
    rw [pageAfter, sheetAfter, List.foldl_append, List.foldl_append]
    show SamePlace ((pageAfter s calls).step call)
      (((sheetAfter s calls).screenStep call).page charCell)
    rw [Sheet.page_screenStep]
    exact ih.step call

theorem pageAfter_eq (hclear : .clear ∈ calls) :
    pageAfter s calls = (sheetAfter s calls).page charCell := by
  induction calls using List.reverseRecOn with
  | nil => simp at hclear
  | append_singleton calls call ih =>
    have hpage : pageAfter s (calls ++ [call]) = (pageAfter s calls).step call :=
      List.foldl_append ..
    have hsheet : sheetAfter s (calls ++ [call]) = (sheetAfter s calls).screenStep call :=
      List.foldl_append ..
    rw [hpage, hsheet, Sheet.page_screenStep]
    by_cases hlast : call = .clear
    · obtain ⟨hrow, hcol⟩ := samePlace_after s calls
      rw [hlast]
      show Page.mk _ (pageAfter s calls).row (pageAfter s calls).col = _
      rw [hrow, hcol]
      rfl
    · rw [ih (by simpa [Ne.symm hlast] using hclear)]

/-- After a clearing each cell is that of the character the sheet has there. -/
theorem ScreenRun.cell_eq (h : ScreenRun D t calls u) (hstart : Positioned t.1)
    (hclear : .clear ∈ calls) {r c : Nat} (hr : r < 25) (hc : c < 80) :
    u.1.cell (c + 80 * r) =
      charCell ((sheetAfter t.1 calls).char ((sheetAfter t.1 calls).top + r) c) := by
  have hdraws := h.draws hstart
  rw [pageAfter_eq hclear] at hdraws
  exact hdraws.drawn.cells r c hr hc

/-! Which characters there are on the sheet. -/

def Sheet.Ascii (sh : Sheet) : Prop := ∀ r c, (sh.char r c).toNat < 128

theorem Sheet.Ascii.setChar (h : sh.Ascii) (hc : c.toNat < 128) (r k r' k' : Nat) :
    (sh.setChar r k c r' k').toNat < 128 := by
  rw [setChar_apply]
  by_cases he : r' = r ∧ k' = k
  · rwa [if_pos he]
  · rw [if_neg he]
    exact h r' k'

theorem Sheet.Ascii.screenStep (h : sh.Ascii) (hcall : ∀ c, call = .display c → c.toNat < 128) :
    (sh.screenStep call).Ascii := by
  cases call with
  | clear => exact fun _ _ => show (0 : Byte).toNat < 128 by decide
  | display c =>
    have hc := hcall c rfl
    rw [Sheet.screenStep, Sheet.display]
    by_cases hn : c = 0x0A
    · rwa [if_pos hn]
    by_cases hr : c = 0x0D
    · rwa [if_neg hn, if_pos hr]
    · rw [if_neg hn, if_neg hr]
      have hwrite : (sh.write c).Ascii := h.setChar hc _ _
      rw [Sheet.wrap]
      by_cases hfull : (sh.write c).col = 80
      · rwa [if_pos hfull]
      · rwa [if_neg hfull]
  | backspace =>
    rw [Sheet.screenStep, Sheet.backspace]
    by_cases hz : sh.col = 0
    · rwa [if_pos hz]
    · rw [if_neg hz]
      exact h.setChar (by decide) _ _

/-- After a clearing only ASCII characters are displayed. -/
def AsciiOnceCleared (calls : List ScreenCall) : Prop :=
  ∀ pre c, pre ++ [.display c] <+: calls → .clear ∈ pre → c.toNat < 128

theorem sheetAfter_ascii (h : AsciiOnceCleared calls) (hclear : .clear ∈ calls) :
    (sheetAfter s calls).Ascii := by
  induction calls using List.reverseRecOn with
  | nil => simp at hclear
  | append_singleton calls call ih =>
    have hsheet : sheetAfter s (calls ++ [call]) = (sheetAfter s calls).screenStep call :=
      List.foldl_append ..
    rw [hsheet]
    by_cases hlast : call = .clear
    · rw [hlast]
      exact fun _ _ => show (0 : Byte).toNat < 128 by decide
    · have hbefore : .clear ∈ calls := by simpa [Ne.symm hlast] using hclear
      have hpre : AsciiOnceCleared calls :=
        fun pre c hp hm => h pre c (hp.trans (List.prefix_append calls [call])) hm
      refine (ih hpre hbefore).screenStep fun c hc => ?_
      rw [hc] at h
      exact h calls c (List.prefix_refl _) hbefore

/-- A character that is no line end stays on the screen where it was written. -/
theorem Sheet.display_visible (sh : Sheet) (hn : c ≠ 0x0A) (hr : c ≠ 0x0D) :
    ∃ r, r < 25 ∧ (sh.display c).char ((sh.display c).top + r) sh.col = c := by
  have hchar : (sh.display c).char = sh.setChar sh.row sh.col c := by
    rw [Sheet.display, if_neg hn, if_neg hr, Sheet.wrap]
    by_cases hfull : (sh.write c).col = 80
    · rw [if_pos hfull]
      rfl
    · rw [if_neg hfull]
      rfl
  have hrow : sh.row ≤ (sh.display c).row ∧ (sh.display c).row ≤ sh.row + 1 := by
    rw [Sheet.display, if_neg hn, if_neg hr, Sheet.wrap]
    by_cases hfull : (sh.write c).col = 80
    · rw [if_pos hfull]
      exact ⟨Nat.le_succ _, Nat.le_refl _⟩
    · rw [if_neg hfull]
      exact ⟨Nat.le_refl _, Nat.le_succ _⟩
  have htop : (sh.display c).top = (sh.display c).row - 24 := rfl
  refine ⟨sh.row - (sh.display c).top, by omega, ?_⟩
  rw [hchar, setChar_apply, if_pos ⟨by omega, rfl⟩]

/-- Every character is shown with its own 8 bits, and the attributes stay exactly when no
character from 128 on is displayed after a clearing. -/
theorem attributes_kept_iff {δ : Type} {D : Device δ} {t u : DriverState × δ}
    {calls : List ScreenCall} (hstart : Positioned t.1) (hrun : ScreenRun D t calls u) :
    (∀ pre v, pre <+: calls → .clear ∈ pre → ScreenRun D t pre v →
      AttributesKept v.1 ∧ CharsShown (sheetAfter t.1 pre) v.1) ↔ AsciiOnceCleared calls := by
  constructor
  · intro h pre c hpre hclear
    by_contra hc
    obtain ⟨more, rfl⟩ := hpre
    obtain ⟨v, hv⟩ := hrun.of_append
    obtain ⟨w, hw⟩ := hv.of_append
    have hlater : .clear ∈ pre ++ [ScreenCall.display c] := List.mem_append_left _ hclear
    have hkept := (h _ v (List.prefix_append _ more) hlater hv).1
    have hcol : (sheetAfter t.1 pre).col < 80 := by
      have hdraws := hw.draws hstart
      rw [pageAfter_eq hclear] at hdraws
      have hplace : _ = (sheetAfter t.1 pre).col := hdraws.drawn.col
      have hin := hdraws.inside
      omega
    have hsheet : sheetAfter t.1 (pre ++ [.display c]) = (sheetAfter t.1 pre).display c :=
      List.foldl_append ..
    have hn : c ≠ 0x0A := by
      rintro rfl
      exact hc (by decide)
    have hr : c ≠ 0x0D := by
      rintro rfl
      exact hc (by decide)
    obtain ⟨r, hr25, hchar⟩ := (sheetAfter t.1 pre).display_visible hn hr
    have hcell := hv.cell_eq hstart hlater hr25 hcol
    rw [hsheet, hchar] at hcell
    have hattr := hkept _ (show (sheetAfter t.1 pre).col + 80 * r < 2000 by omega)
    rw [hcell] at hattr
    exact hc ((attributeByte_charCell c).mp hattr)
  · intro h pre v hpre hclear hv
    have hascii : (sheetAfter t.1 pre).Ascii :=
      sheetAfter_ascii (fun before c hb hm => h before c (hb.trans hpre) hm) hclear
    constructor
    · intro i hi
      have hidx : i = i % 80 + 80 * (i / 80) := (Nat.mod_add_div i 80).symm
      rw [hidx, hv.cell_eq hstart hclear (by omega) (Nat.mod_lt i (by decide))]
      exact (attributeByte_charCell _).mpr (hascii _ _)
    · intro r c hr hc
      rw [hv.cell_eq hstart hclear hr hc, charByte_charCell]

def accented : DriverState × Unit := (vgaDisplayChar 0xE9).final unpluggedStep cleared

def lettered : DriverState × Unit := (vgaDisplayChar 0x41).final unpluggedStep cleared

def nextLine : DriverState × Unit := (vgaDisplayChar 0x0A).final unpluggedStep lettered

theorem cleared_run : ScreenRun unplugged (⟨0, zeroVars⟩, ()) [.clear] cleared := by
  have hclear : ScreenCall.clear.prog.Runs unplugged.Exec (⟨0, zeroVars⟩, ()) () cleared :=
    runs_final unpluggedStep_exec (by decide +kernel)
  exact .call .refl hclear

/-- A letter, a new line and the last of the ASCII characters. -/
def asciiCalls : List ScreenCall := [.clear, .display 0x41, .display 0x0A, .display 0x7F]

def lastShown : DriverState × Unit := (vgaDisplayChar 0x7F).final unpluggedStep nextLine

theorem asciiCalls_run : ScreenRun unplugged (⟨0, zeroVars⟩, ()) asciiCalls lastShown := by
  have hletter : (ScreenCall.display 0x41).prog.Runs unplugged.Exec cleared () lettered :=
    runs_final unpluggedStep_exec (by decide +kernel)
  have hline : (ScreenCall.display 0x0A).prog.Runs unplugged.Exec lettered () nextLine :=
    runs_final unpluggedStep_exec (by decide +kernel)
  have hlast : (ScreenCall.display 0x7F).prog.Runs unplugged.Exec nextLine () lastShown :=
    runs_final unpluggedStep_exec (by decide +kernel)
  exact .call (.call (.call cleared_run hletter) hline) hlast

theorem attributes_kept_cleared :
    ScreenRun unplugged (⟨0, zeroVars⟩, ()) asciiCalls lastShown ∧
      ∀ pre v, pre <+: asciiCalls → .clear ∈ pre →
        ScreenRun unplugged (⟨0, zeroVars⟩, ()) pre v →
        AttributesKept v.1 ∧ CharsShown (sheetAfter ⟨0, zeroVars⟩ pre) v.1 := by
  have hascii : AsciiOnceCleared asciiCalls := by
    intro pre c hpre _
    have hmem : .display c ∈ asciiCalls := hpre.subset (by simp)
    simp only [asciiCalls, List.mem_cons, reduceCtorEq, ScreenCall.display.injEq,
      List.not_mem_nil, or_false, false_or] at hmem
    rcases hmem with rfl | rfl | rfl <;> decide
  exact ⟨asciiCalls_run, (attributes_kept_iff ⟨by decide, by decide⟩ asciiCalls_run).mpr hascii⟩

theorem accented_attribute :
    ScreenRun unplugged (⟨0, zeroVars⟩, ()) [.clear, .display 0xE9] accented ∧
      attributeByte (accented.1.cell 0) = 0xFF := by
  have hdisplay : (ScreenCall.display 0xE9).prog.Runs unplugged.Exec cleared () accented :=
    runs_final unpluggedStep_exec (by decide +kernel)
  exact ⟨.call cleared_run hdisplay, by decide +kernel⟩

end SkipOS
