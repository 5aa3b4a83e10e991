import SkipOS.Driver

/-! The mask registers of the two interrupt controllers, as `interrupt.c` sets their lines. -/

namespace SkipOS

def pic1DataPort : BitVec 16 := 0x21

def pic2DataPort : BitVec 16 := 0xA1

def externalIntBase : Byte := 0x20

def externalIntMax : Byte := 0x2F

def linesPerPic : Byte := 8

def assertExternal (irqIndex : Byte) : Driver Unit :=
  driverAssert (externalIntBase ≤ irqIndex ∧ irqIndex ≤ externalIntMax)

def getIrqMask (irqIndex : Byte) : Driver Byte := do
  assertExternal irqIndex
  if irqIndex - externalIntBase < linesPerPic then inb pic1DataPort else inb pic2DataPort

def getPicLineIndex (irqIndex : Byte) : Driver Byte := do
  assertExternal irqIndex
  if irqIndex - externalIntBase < linesPerPic then
    driverAssert (irqIndex - externalIntBase != 2)
    return irqIndex - externalIntBase
  else return irqIndex - externalIntBase - linesPerPic

/-- The assertion on the line number is made before the number is set. -/
def setIrqLineState (irqIndex : Byte) (enable : Bool) : Driver Unit := do
  assertExternal irqIndex
  Prog.when (irqIndex - externalIntBase < linesPerPic) (driverAssert ((0 : Byte) != 2))
  let currMask ← getIrqMask irqIndex
  let picLineIndex ← getPicLineIndex irqIndex
  let currMask := currMask &&& ~~~((1 : Byte) <<< picLineIndex.toNat)
  let currMask := if enable then currMask else currMask ||| ((1 : Byte) <<< picLineIndex.toNat)
  if irqIndex - externalIntBase < linesPerPic then outb pic1DataPort currMask
  else outb pic2DataPort currMask

def irqEnableIndex (irqIndex : Byte) : Driver Unit := setIrqLineState irqIndex true

def irqDisableIndex (irqIndex : Byte) : Driver Unit := setIrqLineState irqIndex false

def irqIsEnabled (irqIndex : Byte) : Driver Bool := do
  let currMask ← getIrqMask irqIndex
  let picLineIndex ← getPicLineIndex irqIndex
  return currMask &&& ((1 : Byte) <<< picLineIndex.toNat) == 0

def pic1CascadeLine : Nat := 2

def enableCascade : Driver Unit := do
  let currMask ← inb pic1DataPort
  outb pic1DataPort (currMask &&& ~~~((1 : Byte) <<< pic1CascadeLine))

end SkipOS
