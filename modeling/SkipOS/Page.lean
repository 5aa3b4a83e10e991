import SkipOS.Screen

/-! The screen as the end of an unbounded page of rows of cells. -/

namespace SkipOS

open Prog

/-- Rows of 80 cells without end, and the place written next. -/
structure Page where
  cell : Nat → Nat → BitVec 16
  row : Nat
  col : Nat

/-- What `write_char` stores for a character. -/
def charCell (c : Byte) : BitVec 16 := c.signExtend 16 ||| vgaColorMask

namespace Page

def newline (pg : Page) : Page := { pg with row := pg.row + 1, col := 0 }

def down (pg : Page) : Page := { pg with row := pg.row + 1 }

def setCell (pg : Page) (r c : Nat) (x : BitVec 16) : Nat → Nat → BitVec 16 :=
  Function.update pg.cell r (Function.update (pg.cell r) c x)

def write (pg : Page) (c : Byte) : Page :=
  { pg with cell := pg.setCell pg.row pg.col (charCell c), col := pg.col + 1 }

def wrap (pg : Page) : Page := if pg.col = 80 then pg.newline else pg

def display (pg : Page) (c : Byte) : Page :=
  if c = 0x0A then pg.newline else if c = 0x0D then pg.down else (pg.write c).wrap

def backspace (pg : Page) : Page :=
  if pg.col = 0 then pg
  else { pg with cell := pg.setCell pg.row (pg.col - 1) vgaColorMask, col := pg.col - 1 }

def clear (pg : Page) : Page := { pg with cell := fun _ _ => vgaColorMask }

/-- The first of the last 25 rows used. -/
def top (pg : Page) : Nat := pg.row - 24

end Page

variable {δ : Type} {D : Device δ} {s s' : DriverState} {d : δ} {top i : Nat} {pg : Page}
  {c : Byte}

/-- The screen from row `top` of the page on, where the position may be below it. -/
structure Drawn (top : Nat) (pg : Page) (s : DriverState) : Prop where
  col : (s.vars .xPos).toNat = pg.col
  row : top + (s.vars .yPos).toNat = pg.row
  full : top = 0 ∨ 24 ≤ (s.vars .yPos).toNat
  cells : ∀ r c, r < 25 → c < 80 → s.cell (c + 80 * r) = pg.cell (top + r) c
  below : ∀ r c, top + 25 ≤ r → pg.cell r c = vgaColorMask

structure Draws (pg : Page) (s : DriverState) : Prop where
  drawn : Drawn pg.top pg s
  inside : (s.vars .xPos).toNat < 80 ∧ (s.vars .yPos).toNat < 25
  cursor : (s.vars .cursor).toNat = (s.vars .xPos).toNat + 80 * (s.vars .yPos).toNat

theorem Drawn.move (h : Drawn top pg s) {pg' : Page} (hcell' : pg'.cell = pg.cell)
    (hx : (s'.vars .xPos).toNat = pg'.col)
    (hy : (s'.vars .yPos).toNat + pg.row = (s.vars .yPos).toNat + pg'.row) (hle : pg.row ≤ pg'.row)
    (hcell : ∀ i, s'.cell i = s.cell i) : Drawn top pg' s' := by
  have hrow := h.row
  have hfull := h.full
  refine ⟨hx, by omega, by omega, ?_, ?_⟩
  · intro r c hr hc
    rw [hcell, hcell']
    exact h.cells r c hr hc
  · intro r c hr
    rw [hcell']
    exact h.below r c hr

theorem setCell_apply (pg : Page) (r c r' c' : Nat) (x : BitVec 16) :
    pg.setCell r c x r' c' = if r' = r ∧ c' = c then x else pg.cell r' c' := by
  by_cases hr : r' = r
  · subst hr
    by_cases hc : c' = c
    · simp [Page.setCell, hc]
    · simp [Page.setCell, hc]
  · simp [Page.setCell, hr]

theorem Drawn.setCell (h : Drawn top pg s) {offset : BitVec 16} {x : Nat} {b : BitVec 16}
    (hx : x < 80) (hy : (s.vars .yPos).toNat < 25)
    (hoff : offset.toNat = x + 80 * (s.vars .yPos).toNat) :
    Drawn top { pg with cell := pg.setCell pg.row x b } (s.set (.vgaBuff offset) b) := by
  refine ⟨?_, ?_, ?_, ?_, ?_⟩
  · simpa using h.col
  · simpa using h.row
  · simpa using h.full
  · intro r c hr hc
    have hrow := h.row
    show _ = pg.setCell pg.row x b (top + r) c
    rw [cell_set _ (by omega), setCell_apply, hoff]
    by_cases he : r = (s.vars .yPos).toNat ∧ c = x
    · rw [if_pos (by omega), if_pos (by omega)]
    · rw [if_neg (by omega), if_neg (by omega)]
      exact h.cells r c hr hc
  · intro r c hr
    show pg.setCell pg.row x b r c = vgaColorMask
    have hrow := h.row
    rw [setCell_apply, if_neg (by omega)]
    exact h.below r c hr

theorem positionInside_wp {Q : Bool → DriverState × δ → Prop} (hx : (s.vars .xPos).toNat < 80)
    (hy : (s.vars .yPos).toNat < 25) (hc : (s.vars .cursor).toNat < 2000) (hQ : Q true (s, d)) :
    positionInside.wp NoHalt D.Exec Q (s, d) := by
  have hx' : s.vars .xPos < vgaWidth := hx
  have hy' : s.vars .yPos < vgaHeight := hy
  have hc' : s.vars .cursor < vgaCellCount := hc
  rw [positionInside]
  refine wp_load_bind.mpr ⟨by simp, ?_⟩
  rw [if_pos hx']
  refine wp_load_bind.mpr ⟨by simp, ?_⟩
  rw [if_pos hy']
  refine wp_load_bind.mpr ⟨by simp, ?_⟩
  rwa [decide_eq_true hc']

theorem positionReached_wp {Q : Bool → DriverState × δ → Prop} (hx : (s.vars .xPos).toNat ≤ 80)
    (hy : (s.vars .yPos).toNat ≤ 25) (hQ : Q true (s, d)) :
    positionReached.wp NoHalt D.Exec Q (s, d) := by
  have hx' : s.vars .xPos ≤ vgaWidth := hx
  have hy' : s.vars .yPos ≤ vgaHeight := hy
  rw [positionReached]
  refine wp_load_bind.mpr ⟨by simp, ?_⟩
  rw [if_pos hx']
  refine wp_load_bind.mpr ⟨by simp, ?_⟩
  rwa [decide_eq_true hy']

theorem toNat_getOffsetFromCoord {x y : BitVec 16} (hx : x.toNat < 80) (hy : y.toNat < 25) :
    (getOffsetFromCoord x y).toNat = x.toNat + 80 * y.toNat := by
  have hw : vgaWidth.toNat = 80 := by decide
  rw [getOffsetFromCoord, BitVec.toNat_add, BitVec.toNat_mul, hw]
  omega

theorem setCursor_wp {Q : Unit → DriverState × δ → Prop} (hc : (s.vars .cursor).toNat < 2000)
    (hQ : Q () (s.set .cursor (getOffsetFromCoord (s.vars .xPos) (s.vars .yPos)), d)) :
    setCursor.wp NoHalt D.Exec Q (s, d) := by
  have hc' : s.vars .cursor < vgaCellCount := hc
  rw [setCursor]
  refine wp_load_bind.mpr ⟨by simp, ?_⟩
  rw [decide_eq_true hc', driverAssert, if_pos rfl, pure_eq, ret_bind]
  refine wp_load_bind.mpr ⟨by simp, wp_load_bind.mpr ⟨by simp, wp_store.mpr ⟨by simp, hQ⟩⟩⟩

theorem toNat_succ {x : BitVec 16} {n : Nat} (h : x.toNat < n) (hn : n < 2 ^ 16) :
    (x + 1).toNat = x.toNat + 1 := by
  rw [BitVec.toNat_add]
  exact Nat.mod_eq_of_lt (show x.toNat + 1 < 2 ^ 16 by omega)

theorem toNat_pred {x : BitVec 16} (h : 0 < x.toNat) : (x - 1).toNat = x.toNat - 1 := by
  bv_omega

theorem Drawn.newline (h : Drawn top pg s) (hy : (s.vars .yPos).toNat < 25) :
    Drawn top pg.newline ((s.set .yPos (s.vars .yPos + 1)).set .xPos 0) := by
  have hy' := toNat_succ hy (by decide)
  refine h.move rfl ?_ ?_ ?_ ?_
  · simp [Page.newline]
  · rw [DriverState.set_of_ne _ (by simp), DriverState.set_self, hy']
    show _ + pg.row = _ + (pg.row + 1)
    omega
  · simp [Page.newline]
  · simp

theorem Drawn.down (h : Drawn top pg s) (hy : (s.vars .yPos).toNat < 25) :
    Drawn top pg.down (s.set .yPos (s.vars .yPos + 1)) := by
  have hy' := toNat_succ hy (by decide)
  refine h.move rfl ?_ ?_ ?_ ?_
  · simpa [Page.down] using h.col
  · rw [DriverState.set_self, hy']
    show _ + pg.row = _ + (pg.row + 1)
    omega
  · simp [Page.down]
  · simp

theorem Drawn.scrolled (h : Drawn top pg s) (hy : (s.vars .yPos).toNat = 25)
    (hmoved : ∀ i, i < 1920 → s'.cell i = s.cell (i + 80))
    (hblank : ∀ i, 1920 ≤ i → i < 2000 → s'.cell i = vgaColorMask)
    (hothers : ∀ v : Var, (∀ o, v ≠ .vgaBuff o) → s'.vars v = s.vars v) :
    Drawn (top + 1) pg (s'.set .yPos (s'.vars .yPos - 1)) := by
  have hy' : (s'.vars .yPos - 1).toNat = 24 := by
    rw [hothers .yPos (by simp), toNat_pred (by omega), hy]
  have hrow := h.row
  refine ⟨?_, ?_, ?_, ?_, ?_⟩
  · rw [DriverState.set_of_ne _ (by simp), hothers .xPos (by simp)]
    exact h.col
  · rw [DriverState.set_self, hy']
    omega
  · rw [DriverState.set_self, hy']
    exact Or.inr (Nat.le_refl _)
  · intro r c hr hc
    rw [cell_set_other (by simp)]
    by_cases hlast : r = 24
    · rw [hlast, hblank _ (by omega) (by omega), h.below _ _ (by omega)]
    · rw [hmoved _ (by omega)]
      have hidx : c + 80 * r + 80 = c + 80 * (r + 1) := by omega
      have hup : top + 1 + r = top + (r + 1) := by omega
      rw [hidx, hup]
      exact h.cells (r + 1) c (by omega) hc
  · intro r c hr
    exact h.below r c (by omega)

theorem wrap_wp {Q : Unit → DriverState × δ → Prop} (h : Drawn top pg s)
    (hx : (s.vars .xPos).toNat ≤ 80)
    (hy : (s.vars .yPos).toNat < 25 ∨ (s.vars .yPos).toNat = 25 ∧ (s.vars .xPos).toNat < 80)
    (hQ : ∀ s', Drawn top pg.wrap s' → (s'.vars .xPos).toNat < 80 → (s'.vars .yPos).toNat ≤ 25 →
      s'.vars .cursor = s.vars .cursor → Q () (s', d)) :
    (Prog.when (s.vars .xPos = vgaWidth) do
      store .yPos ((← load .yPos) + 1)
      store .xPos 0).wp NoHalt D.Exec Q (s, d) := by
  have hw : vgaWidth.toNat = 80 := by decide
  have hcol := h.col
  apply wp_when
  · intro hfull
    have hx80 : (s.vars .xPos).toNat = 80 := by rw [hfull, hw]
    have hy' : (s.vars .yPos).toNat < 25 := by omega
    refine wp_load_bind.mpr ⟨by simp, wp_store_bind.mpr ⟨by simp, wp_store.mpr ⟨by simp, ?_⟩⟩⟩
    apply hQ
    · rw [Page.wrap, if_pos (hcol.symm.trans hx80)]
      exact h.newline hy'
    · simp
    · rw [DriverState.set_of_ne _ (by simp), DriverState.set_self, toNat_succ hy' (by decide)]
      omega
    · simp
  · intro hroom
    have hne : (s.vars .xPos).toNat ≠ 80 := fun he => hroom (BitVec.eq_of_toNat_eq (he.trans hw.symm))
    apply hQ
    · rwa [Page.wrap, if_neg (by omega)]
    · omega
    · omega
    · rfl

theorem scrollStep_wp {Q : Unit → DriverState × δ → Prop} (h : Drawn top pg s)
    (hx : (s.vars .xPos).toNat < 80) (hy : (s.vars .yPos).toNat ≤ 25)
    (hQ : ∀ top s', Drawn top pg s' → (s'.vars .xPos).toNat < 80 → (s'.vars .yPos).toNat < 25 →
      s'.vars .cursor = s.vars .cursor → Q () (s', d)) :
    (Prog.when (s.vars .yPos = vgaHeight) do
      scroll
      store .yPos ((← load .yPos) - 1)).wp NoHalt D.Exec Q (s, d) := by
  have hh : vgaHeight.toNat = 25 := by decide
  apply wp_when
  · intro hfull
    have hy25 : (s.vars .yPos).toNat = 25 := by rw [hfull, hh]
    apply wp_bind
    apply scroll_wp
    intro s' hmoved hblank hothers
    refine wp_load_bind.mpr ⟨by simp, wp_store.mpr ⟨by simp, ?_⟩⟩
    apply hQ _ _ (h.scrolled hy25 hmoved hblank hothers)
    · rw [DriverState.set_of_ne _ (by simp), hothers .xPos (by simp)]
      exact hx
    · rw [DriverState.set_self, hothers .yPos (by simp), toNat_pred (by omega), hy25]
      decide
    · rw [DriverState.set_of_ne _ (by simp), hothers .cursor (by simp)]
  · intro hroom
    have hne : (s.vars .yPos).toNat ≠ 25 := fun he => hroom (BitVec.eq_of_toNat_eq (he.trans hh.symm))
    exact hQ top s h hx (by omega) rfl

theorem Drawn.draws (h : Drawn top pg s) (hx : (s.vars .xPos).toNat < 80)
    (hy : (s.vars .yPos).toNat < 25) :
    Draws pg (s.set .cursor (getOffsetFromCoord (s.vars .xPos) (s.vars .yPos))) := by
  have htop : top = pg.top := by
    have hrow := h.row
    have hfull := h.full
    rw [Page.top]
    omega
  refine ⟨?_, ?_, ?_⟩
  · rw [← htop]
    refine h.move rfl ?_ ?_ (Nat.le_refl _) ?_
    · simpa using h.col
    · simp
    · simp
  · simpa using ⟨hx, hy⟩
  · simpa using toNat_getOffsetFromCoord hx hy

theorem Draws.cursor_lt (h : Draws pg s) : (s.vars .cursor).toNat < 2000 := by
  have hc := h.cursor
  have hin := h.inside
  omega

theorem settle_wp {Q : Unit → DriverState × δ → Prop} (h : Drawn top pg s)
    (hx : (s.vars .xPos).toNat ≤ 80)
    (hy : (s.vars .yPos).toNat < 25 ∨ (s.vars .yPos).toNat = 25 ∧ (s.vars .xPos).toNat < 80)
    (hcursor : (s.vars .cursor).toNat < 2000) (hQ : ∀ s', Draws pg.wrap s' → Q () (s', d)) :
    (do
      driverAssert (← positionReached)
      Prog.when ((← load .xPos) = vgaWidth) do
        store .yPos ((← load .yPos) + 1)
        store .xPos 0
      Prog.when ((← load .yPos) = vgaHeight) do
        scroll
        store .yPos ((← load .yPos) - 1)
      setCursor
      driverAssert (← positionInside) : Driver Unit).wp NoHalt D.Exec Q (s, d) := by
  apply wp_bind
  apply positionReached_wp hx (by omega)
  refine wp_load_bind.mpr ⟨by simp, wp_bind (wrap_wp h hx hy ?_)⟩
  intro s₁ h₁ hx₁ hy₁ hc₁
  refine wp_load_bind.mpr ⟨by simp, wp_bind (scrollStep_wp h₁ hx₁ hy₁ ?_)⟩
  intro top' s₂ h₂ hx₂ hy₂ hc₂
  have hdraws := h₂.draws hx₂ hy₂
  apply wp_bind
  apply setCursor_wp
  · rw [hc₂, hc₁]
    exact hcursor
  apply wp_bind
  apply positionInside_wp hdraws.inside.1 hdraws.inside.2 hdraws.cursor_lt
  exact hQ _ hdraws

theorem Drawn.write (h : Drawn top pg s) (hx : (s.vars .xPos).toNat < 80)
    (hy : (s.vars .yPos).toNat < 25)
    (hcursor : (s.vars .cursor).toNat = (s.vars .xPos).toNat + 80 * (s.vars .yPos).toNat) :
    Drawn top (pg.write c)
      ((s.set (.vgaBuff (s.vars .cursor)) (charCell c)).set .xPos (s.vars .xPos + 1)) := by
  have hcell := h.setCell (b := charCell c) hx hy hcursor
  rw [h.col] at hcell
  refine hcell.move rfl ?_ ?_ (Nat.le_refl _) ?_
  · rw [DriverState.set_self, toNat_succ hx (by decide), h.col]
    rfl
  · simp [Page.write]
  · simp

theorem vgaDisplayChar_wp (h : Draws pg s) :
    (vgaDisplayChar c).wp NoHalt D.Exec (fun _ t => Draws (pg.display c) t.1) (s, d) := by
  obtain ⟨hdrawn, ⟨hx, hy⟩, hcursor⟩ := h
  have hlt := Draws.cursor_lt ⟨hdrawn, ⟨hx, hy⟩, hcursor⟩
  have hcol := hdrawn.col
  have hx' := toNat_succ hx (by decide)
  have hy' := toNat_succ hy (by decide)
  rw [vgaDisplayChar, nestedSafe_eq, wp_pushfq]
  refine ⟨by simp, wp_bind (wp_bind ?_)⟩
  apply positionInside_wp hx hy hlt
  rw [driverAssert, if_pos rfl, pure_eq, ret_bind]
  apply wp_bind
  by_cases hn : c = 0x0A
  · have hdisplay : pg.display c = pg.newline.wrap := by
      rw [Page.display, if_pos hn, Page.wrap, if_neg (by simp [Page.newline])]
    rw [if_pos hn, hdisplay]
    refine wp_load_bind.mpr ⟨by simp, wp_store_bind.mpr ⟨by simp, wp_store.mpr ⟨by simp, ?_⟩⟩⟩
    apply settle_wp (hdrawn.newline hy)
    · simp
    · rw [DriverState.set_of_ne _ (by simp), DriverState.set_self, hy', DriverState.set_self]
      simp
      omega
    · simpa using hlt
    · exact fun s' h => h
  by_cases hr : c = 0x0D
  · have hdisplay : pg.display c = pg.down.wrap := by
      have hne : pg.down.col ≠ 80 := by
        show pg.col ≠ 80
        omega
      rw [Page.display, if_neg hn, if_pos hr, Page.wrap, if_neg hne]
    rw [if_neg hn, if_pos hr, hdisplay]
    refine wp_load_bind.mpr ⟨by simp, wp_store.mpr ⟨by simp, ?_⟩⟩
    apply settle_wp (hdrawn.down hy)
    · simp
      omega
    · rw [DriverState.set_self, hy', DriverState.set_of_ne _ (by simp)]
      omega
    · simpa using hlt
    · exact fun s' h => h
  · have hdisplay : pg.display c = (pg.write c).wrap := by
      rw [Page.display, if_neg hn, if_neg hr]
    have hkeep : (s.set (.vgaBuff (s.vars .cursor)) (charCell c)).vars .xPos = s.vars .xPos := by simp
    rw [if_neg hn, if_neg hr, hdisplay]
    apply wp_bind
    rw [writeChar, ← charCell]
    refine wp_load_bind.mpr ⟨by simp, wp_store.mpr ⟨by simp, ?_⟩⟩
    refine wp_load_bind.mpr ⟨by simp, wp_store.mpr ⟨by simp, ?_⟩⟩
    rw [hkeep]
    apply settle_wp (hdrawn.write hx hy hcursor)
    · rw [DriverState.set_self, hx']
      omega
    · left
      simpa using hy
    · simpa using hlt
    · exact fun s' h => h

theorem vgaBackspaceChar_wp (h : Draws pg s) :
    vgaBackspaceChar.wp NoHalt D.Exec (fun _ t => Draws pg.backspace t.1) (s, d) := by
  have hcol := h.drawn.col
  rw [vgaBackspaceChar]
  refine wp_load_bind.mpr ⟨by simp, wp_when (fun hne => ?_) fun heq => ?_⟩
  · have hpos : 0 < (s.vars .xPos).toNat := by
      rw [Nat.pos_iff_ne_zero]
      exact fun hz => hne (BitVec.eq_of_toNat_eq hz)
    have hx' := toNat_pred hpos
    have hin := h.inside
    have hleft : Drawn pg.top { pg with col := pg.col - 1 } (s.set .xPos (s.vars .xPos - 1)) := by
      refine h.drawn.move rfl ?_ (by simp) (Nat.le_refl _) (by simp)
      rw [DriverState.set_self, hx', hcol]
    have hdraws := hleft.draws (by rw [DriverState.set_self]; omega) (by simpa using hin.2)
    refine wp_load_bind.mpr ⟨by simp, wp_store_bind.mpr ⟨by simp, wp_bind (setCursor_wp ?_ ?_)⟩⟩
    · simpa using h.cursor_lt
    refine wp_load_bind.mpr ⟨by simp, wp_store.mpr ⟨by simp, ?_⟩⟩
    have hblank := hdraws.drawn.setCell (b := vgaColorMask) hdraws.inside.1 hdraws.inside.2 hdraws.cursor
    rw [hdraws.drawn.col] at hblank
    rw [Page.backspace, if_neg (by omega)]
    refine ⟨hblank, ?_, ?_⟩
    · simpa using hdraws.inside
    · simpa using hdraws.cursor
  · rw [not_not] at heq
    have hz : pg.col = 0 := by
      rw [← hcol, heq]
      rfl
    rw [Page.backspace, if_pos hz]
    exact h

/-- Where the next character goes is on the screen. -/
structure Positioned (s : DriverState) : Prop where
  inside : (s.vars .xPos).toNat < 80 ∧ (s.vars .yPos).toNat < 25
  cursor : (s.vars .cursor).toNat = (s.vars .xPos).toNat + 80 * (s.vars .yPos).toNat

/-- Whatever the cells are, they are a page. -/
def pageOf (s : DriverState) : Page where
  cell r c := if r < 25 then s.cell (c + 80 * r) else vgaColorMask
  row := (s.vars .yPos).toNat
  col := (s.vars .xPos).toNat

theorem Positioned.draws (h : Positioned s) : Draws (pageOf s) s := by
  have hin := h.inside
  have htop : (pageOf s).top = 0 := by
    show (s.vars .yPos).toNat - 24 = 0
    omega
  refine ⟨?_, hin, h.cursor⟩
  rw [htop]
  refine ⟨rfl, Nat.zero_add _, Or.inl rfl, ?_, ?_⟩
  · intro r c hr _
    rw [Nat.zero_add]
    exact (if_pos hr).symm
  · intro r c hr
    exact if_neg (by omega)

theorem vgaClear_wp (h : Draws pg s) :
    vgaClear.wp NoHalt D.Exec (fun _ t => Draws pg.clear t.1) (s, d) := by
  have hcount : vgaCellCount.toNat = 2000 := by simp [vgaCellCount]
  rw [vgaClear, hcount]
  apply clearLoop_wp
  · simp
  intro s' hfilled
  have hx : s'.vars .xPos = s.vars .xPos := hfilled.others .xPos (by simp)
  have hy : s'.vars .yPos = s.vars .yPos := hfilled.others .yPos (by simp)
  have hc : s'.vars .cursor = s.vars .cursor := hfilled.others .cursor (by simp)
  refine ⟨⟨?_, ?_, ?_, ?_, fun _ _ _ => rfl⟩, ?_, ?_⟩
  · rw [hx]
    exact h.drawn.col
  · rw [hy]
    exact h.drawn.row
  · rw [hy]
    exact h.drawn.full
  · intro r c hr hc'
    exact hfilled.inside _ (by simp) (by simp; omega)
  · rw [hx, hy]
    exact h.inside
  · rw [hx, hy, hc]
    exact h.cursor

end SkipOS
