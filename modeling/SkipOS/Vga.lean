import SkipOS.Driver

/-! The text screen of `vga.c`. -/

namespace SkipOS

open Prog

def vgaWidth : BitVec 16 := 80

def vgaHeight : BitVec 16 := 25

def vgaCellCount : BitVec 16 := 2000

def vgaColorMask : BitVec 16 := 0x7 <<< 8

def getOffsetFromCoord (x y : BitVec 16) : BitVec 16 := x + y * vgaWidth

/-- `x_pos < VGA_WIDTH && y_pos < VGA_HEIGHT && cursor < VGA_CELL_COUNT` -/
def positionInside : Driver Bool := do
  if (← load .xPos) < vgaWidth then
    if (← load .yPos) < vgaHeight then return (← load .cursor) < vgaCellCount
    else return false
  else return false

/-- `x_pos <= VGA_WIDTH && y_pos <= VGA_HEIGHT` -/
def positionReached : Driver Bool := do
  if (← load .xPos) ≤ vgaWidth then return (← load .yPos) ≤ vgaHeight
  else return false

/-- `char` is signed. -/
def writeChar (c : Byte) : Driver Unit := do
  store (.vgaBuff (← load .cursor)) (c.signExtend 16 ||| vgaColorMask)

def setCursor : Driver Unit := do
  driverAssert ((← load .cursor) < vgaCellCount)
  store .cursor (getOffsetFromCoord (← load .xPos) (← load .yPos))

def clearAtOffset (offset : BitVec 16) : Driver Unit := do
  driverAssert (offset < vgaCellCount)
  store (.vgaBuff offset) vgaColorMask

/-- `n` offsets from `offset` on -/
def clearLoop : Nat → BitVec 16 → Driver Unit
  | 0, _ => return ()
  | n + 1, offset => do
    clearAtOffset offset
    clearLoop n (offset + 1)

def vgaClear : Driver Unit := clearLoop vgaCellCount.toNat 0

def clearBottomRow : Driver Unit :=
  clearLoop vgaWidth.toNat (getOffsetFromCoord 0 (vgaHeight - 1))

/-- `memcpy` out of the screen, a cell at a time -/
def readCells : Nat → BitVec 16 → Driver (List (BitVec 16))
  | 0, _ => return []
  | n + 1, offset => do
    let cell ← load (.vgaBuff offset)
    let cells ← readCells n (offset + 1)
    return cell :: cells

/-- `memcpy` into the screen, a cell at a time -/
def writeCells : List (BitVec 16) → BitVec 16 → Driver Unit
  | [], _ => return ()
  | cell :: cells, offset => do
    store (.vgaBuff offset) cell
    writeCells cells (offset + 1)

def scroll : Driver Unit := do
  let tempVgaBuff ← readCells vgaCellCount.toNat 0
  writeCells ((tempVgaBuff.drop vgaWidth.toNat).take (vgaCellCount - vgaWidth).toNat) 0
  clearBottomRow

def vgaDisplayChar (c : Byte) : Driver Unit := nestedSafe do
  driverAssert (← positionInside)
  (if c = 0x0A then do
    store .yPos ((← load .yPos) + 1)
    store .xPos 0
  else if c = 0x0D then do
    store .yPos ((← load .yPos) + 1)
  else do
    writeChar c
    store .xPos ((← load .xPos) + 1))
  driverAssert (← positionReached)
  Prog.when ((← load .xPos) = vgaWidth) do
    store .yPos ((← load .yPos) + 1)
    store .xPos 0
  Prog.when ((← load .yPos) = vgaHeight) do
    scroll
    store .yPos ((← load .yPos) - 1)
  setCursor
  driverAssert (← positionInside)

def vgaBackspaceChar : Driver Unit := do
  Prog.when ((← load .xPos) ≠ 0) do
    store .xPos ((← load .xPos) - 1)
    setCursor
    store (.vgaBuff (← load .cursor)) vgaColorMask

def Var.OnScreen : Var → Prop
  | .xPos => True
  | .yPos => True
  | .cursor => True
  | .vgaBuff _ => True
  | _ => False

/-- What the functions here do: of the data they change the screen and its position only. -/
def Action.OnScreen : Action → Prop
  | .pushfq => True
  | .halt => True
  | .load _ => True
  | .store v _ => v.OnScreen
  | _ => False

/-! No function stores anywhere else. -/

theorem screen_load (v : Var) : (load v).Only Action.OnScreen := only_perform trivial

theorem screen_store {v : Var} (hv : v.OnScreen) (x : v.Ty) : (store v x).Only Action.OnScreen :=
  only_perform hv

theorem screen_driverAssert (c : Bool) : (driverAssert c).Only Action.OnScreen :=
  Only.ite (only_ret _) ⟨trivial, fun r => r.elim⟩

theorem screen_nestedSafe {body : Driver Unit} (h : body.Only Action.OnScreen) :
    (nestedSafe body).Only Action.OnScreen := by
  rw [nestedSafe_eq]
  exact ⟨trivial, fun _ => h.bind fun _ => only_ret _⟩

theorem screen_positionInside : positionInside.Only Action.OnScreen := by
  refine (screen_load _).bind fun x => Only.ite ?_ (only_ret _)
  refine (screen_load _).bind fun y => Only.ite ?_ (only_ret _)
  exact (screen_load _).bind fun _ => only_ret _

theorem screen_positionReached : positionReached.Only Action.OnScreen := by
  refine (screen_load _).bind fun x => Only.ite ?_ (only_ret _)
  exact (screen_load _).bind fun _ => only_ret _

theorem screen_setCursor : setCursor.Only Action.OnScreen := by
  refine (screen_load _).bind fun _ => (screen_driverAssert _).bind fun _ => ?_
  refine (screen_load _).bind fun _ => (screen_load _).bind fun _ => ?_
  exact screen_store (by trivial) _

theorem screen_clearLoop (n : Nat) (offset : BitVec 16) :
    (clearLoop n offset).Only Action.OnScreen := by
  induction n generalizing offset with
  | zero => exact only_ret _
  | succ n ih =>
    refine Only.bind ?_ fun _ => ih _
    exact (screen_driverAssert _).bind fun _ => screen_store (by trivial) _

theorem screen_readCells (n : Nat) (offset : BitVec 16) :
    (readCells n offset).Only Action.OnScreen := by
  induction n generalizing offset with
  | zero => exact only_ret _
  | succ n ih => exact (screen_load _).bind fun _ => (ih _).bind fun _ => only_ret _

theorem screen_writeCells (cells : List (BitVec 16)) (offset : BitVec 16) :
    (writeCells cells offset).Only Action.OnScreen := by
  induction cells generalizing offset with
  | nil => exact only_ret _
  | cons cell cells ih => exact (screen_store (by trivial) _).bind fun _ => ih _

theorem screen_scroll : scroll.Only Action.OnScreen :=
  (screen_readCells _ _).bind fun _ => (screen_writeCells _ _).bind fun _ => screen_clearLoop _ _

theorem screen_vgaDisplayChar (c : Byte) : (vgaDisplayChar c).Only Action.OnScreen := by
  have hdown : (do store .yPos ((← load .yPos) + 1) : Driver Unit).Only Action.OnScreen :=
    (screen_load _).bind fun _ => screen_store (by trivial) _
  have hnewline : (do
      store .yPos ((← load .yPos) + 1)
      store .xPos 0 : Driver Unit).Only Action.OnScreen :=
    (screen_load _).bind fun _ => (screen_store (by trivial) _).bind fun _ =>
      screen_store (by trivial) _
  have hwrite : (writeChar c).Only Action.OnScreen :=
    (screen_load _).bind fun _ => screen_store (by trivial) _
  refine screen_nestedSafe (screen_positionInside.bind fun _ => (screen_driverAssert _).bind
    fun _ => Only.bind ?_ fun _ => ?_)
  · refine Only.ite hnewline (Only.ite hdown ?_)
    exact hwrite.bind fun _ => (screen_load _).bind fun _ => screen_store (by trivial) _
  · refine screen_positionReached.bind fun _ => (screen_driverAssert _).bind fun _ =>
      (screen_load _).bind fun _ => (Only.when hnewline).bind fun _ => (screen_load _).bind fun _ =>
        (Only.when ?_).bind fun _ => screen_setCursor.bind fun _ => screen_positionInside.bind
          fun _ => screen_driverAssert _
    exact screen_scroll.bind fun _ => (screen_load _).bind fun _ => screen_store (by trivial) _

theorem screen_vgaBackspaceChar : vgaBackspaceChar.Only Action.OnScreen := by
  refine (screen_load _).bind fun _ => Only.when ((screen_load _).bind fun _ => ?_)
  refine (screen_store (by trivial) _).bind fun _ => screen_setCursor.bind fun _ => ?_
  exact (screen_load _).bind fun _ => screen_store (by trivial) _

end SkipOS
