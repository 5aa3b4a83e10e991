import SkipOS.Pic

/-! The serial driver of `serial.c`. There is one `ser_state`; pointers to it are never NULL,
and `serBuff` is the address of its buffer. -/

namespace SkipOS

def com1Iop : BitVec 16 := 0x3F8

def com1IrqNum : Byte := 0x24

def lcrOffset : Byte := 3

def lsrOffset : Byte := 5

def tranOffset : Byte := 0

def intEnRegOffset : Byte := 1

def lsbyDivOffset : Byte := 0

def msbyDivOffset : Byte := 1

def iirOffset : Byte := 2

def fifoCntrRegOffset : Byte := 2

def baudDivisor : BitVec 32 := 115200 / 9600

def buffSize : Word := 1024

def writeSerReg (offset val : Byte) : Driver Unit := outb (com1Iop + offset.setWidth 16) val

def readSerReg (offset : Byte) : Driver Byte := inb (com1Iop + offset.setWidth 16)

/-- The table of handlers, which `IRQ_set_handler` enters the driver into, is left out. -/
def serInit (serBuff : Word) : Driver Unit := do
  writeSerReg lcrOffset 0b01000000
  writeSerReg lsbyDivOffset ((baudDivisor &&& 0xFF).setWidth 8)
  writeSerReg msbyDivOffset ((baudDivisor >>> 8).setWidth 8)
  writeSerReg lcrOffset 0b00000011
  writeSerReg intEnRegOffset 0b00000010
  writeSerReg fifoCntrRegOffset 0
  store .serC serBuff
  store .serP serBuff
  store .serBusy false
  irqEnableIndex com1IrqNum

/-- `assert_noprint(!IRQ_are_interrupts_enabled())` -/
def assertInterruptsOff : Driver Unit := do
  let enabled ← irqAreInterruptsEnabled
  driverAssert (!enabled)

def isBuffEmpty : Driver Bool := do
  assertInterruptsOff
  return (← load .serC) == (← load .serP)

def isBuffFull : Driver Bool := do
  assertInterruptsOff
  if (← load .serP) = (← load .serC) - 1 then return true
  else return (← load .serP) == (← load .serC) + buffSize - 1

/-- `consume`, with the byte in place of `true`. -/
def consume (serBuff : Word) : Driver (Option Byte) := do
  assertInterruptsOff
  if ← isBuffEmpty then return none
  else
    let c ← load .serC
    let val ← load (.byte c)
    store .serC ((← load .serC) + 1)
    Prog.when ((← load .serC) = serBuff + buffSize) (store .serC serBuff)
    return some val

def produce (serBuff : Word) (pVal : Byte) : Driver Bool := do
  assertInterruptsOff
  if ← isBuffFull then return false
  else
    let p ← load .serP
    store (.byte p) pVal
    store .serP ((← load .serP) + 1)
    Prog.when ((← load .serP) = serBuff + buffSize) (store .serP serBuff)
    return true

def initHwWrite (serBuff : Word) : Driver Unit := do
  Prog.when (← load .serBusy) do
    let lsr ← readSerReg lsrOffset
    -- the transmitter is empty
    Prog.when (lsr &&& 0x20 ≠ 0) (store .serBusy false)
  if ← load .serBusy then return ()
  else
    match ← consume serBuff with
    | none => return ()
    | some outVal =>
      store .serBusy true
      writeSerReg tranOffset outVal

/-- The `while` loop of `SER_write`. -/
def writeLoop (serBuff : Word) : List Byte → Driver Unit
  | [] => return ()
  | b :: bs => do
    if ← produce serBuff b then writeLoop serBuff bs
    else return ()

def serWrite (serBuff : Word) (buff : List Byte) : Driver Unit := nestedSafe do
  writeLoop serBuff buff
  initHwWrite serBuff

/-- The `while` loop of `SER_flush`, with at most `fuel` rounds. -/
def flushLoop (serBuff : Word) : Nat → Driver Unit
  | 0 => .op .fuel Empty.elim
  | fuel + 1 => do
    match ← consume serBuff with
    | none => return ()
    | some outVal =>
      writeSerReg tranOffset outVal
      flushLoop serBuff fuel

def serFlush (serBuff : Word) (fuel : Nat) : Driver Unit := nestedSafe do
  flushLoop serBuff fuel
  store .serBusy false

/-- The handler gets `&ser_state` as its argument. -/
def serIrqHandler (serBuff : Word) (irqIndex : Byte) : Driver Unit := do
  driverAssert (irqIndex == com1IrqNum)
  let iirVal ← readSerReg iirOffset
  let intState := (iirVal >>> 1) &&& 0xFF
  if intState = 0b11 then
    let _ ← readSerReg lsrOffset
    return ()
  else if intState = 0b01 then
    store .serBusy false
    initHwWrite serBuff
  else return ()

end SkipOS
