import SkipOS.Dispatch
import SkipOS.Vga

/-! The keyboard driver of `keyboard.c` and the characters of `scan_code.c`. Loops that wait
for the controller take a bound on their iterations. -/

namespace SkipOS

structure ScodeMapElem where
  c : Byte
  shiftC : Byte
  s : Byte

def scodeMapElem (c shiftC : Char) (s : Byte) : ScodeMapElem :=
  ⟨BitVec.ofNat 8 c.toNat, BitVec.ofNat 8 shiftC.toNat, s⟩

def scMap : List ScodeMapElem :=
  [scodeMapElem 'a' 'A' 0x1C, scodeMapElem 'b' 'B' 0x32, scodeMapElem 'c' 'C' 0x21,
    scodeMapElem 'd' 'D' 0x23, scodeMapElem 'e' 'E' 0x24, scodeMapElem 'f' 'F' 0x2B,
    scodeMapElem 'g' 'G' 0x34, scodeMapElem 'h' 'H' 0x33, scodeMapElem 'i' 'I' 0x43,
    scodeMapElem 'j' 'J' 0x3B, scodeMapElem 'k' 'K' 0x42, scodeMapElem 'l' 'L' 0x4B,
    scodeMapElem 'm' 'M' 0x3A, scodeMapElem 'n' 'N' 0x31, scodeMapElem 'o' 'O' 0x44,
    scodeMapElem 'p' 'P' 0x4D, scodeMapElem 'q' 'Q' 0x15, scodeMapElem 'r' 'R' 0x2D,
    scodeMapElem 's' 'S' 0x1B, scodeMapElem 't' 'T' 0x2C, scodeMapElem 'u' 'U' 0x3C,
    scodeMapElem 'v' 'V' 0x2A, scodeMapElem 'w' 'W' 0x1D, scodeMapElem 'x' 'X' 0x22,
    scodeMapElem 'y' 'Y' 0x35, scodeMapElem 'z' 'Z' 0x1A, scodeMapElem '1' '!' 0x16,
    scodeMapElem '2' '@' 0x1E, scodeMapElem '3' '#' 0x26, scodeMapElem '4' '$' 0x25,
    scodeMapElem '5' '%' 0x2E, scodeMapElem '6' '^' 0x36, scodeMapElem '7' '&' 0x3D,
    scodeMapElem '8' '*' 0x3E, scodeMapElem '9' '(' 0x46, scodeMapElem '0' ')' 0x45,
    scodeMapElem '\n' '\n' 0x5A, scodeMapElem '\t' '\t' 0x0D, scodeMapElem ',' '<' 0x41,
    scodeMapElem '.' '>' 0x49, scodeMapElem '/' '?' 0x4A, scodeMapElem ' ' ' ' 0x29]

/-- `sizeof(sc_map)`, which the loop takes for the number of elements. -/
def mapSize : Nat := 3 * scMap.length

/-- `behind` is what lies behind the array, where the loop goes on. -/
def charFromScode (behind : List ScodeMapElem) (scode : Byte) (shiftPressed : Bool) : Byte :=
  match ((scMap ++ behind).take mapSize).find? fun elem => elem.s == scode with
  | some elem => if shiftPressed then elem.shiftC else elem.c
  | none => 0x20

def maxKbdResend : Byte := 3

def ioP1 : BitVec 16 := 0x60

def ioP2 : BitVec 16 := 0x64

def disableP1Cmd : Byte := 0xAD

def disableP2Cmd : Byte := 0xA7

def enableP1Cmd : Byte := 0xAE

def readCfgCmd : Byte := 0x20

def writeCfgCmd : Byte := 0x60

def outputBuffStatusMsk : Byte := 0x1

def inputBuffStatusMsk : Byte := 0x1 <<< 1

def p1IntCfgMsk : Byte := 0x1

def p2IntCfgMsk : Byte := 0x1 <<< 1

def p1ClkCfgMsk : Byte := 0x1 <<< 4

def p2ClkCfgMsk : Byte := 0x1 <<< 5

def p1TranslationCfgMsk : Byte := 0x1 <<< 6

def kbdAckRsp : Byte := 0xFA

def kbdSelfTestPass : Byte := 0xAA

def kbdRstCmd : Byte := 0xFF

def kbdSetScanCodeCmd : Byte := 0xF0

def kbdSetScanCode2Data : Byte := 2

def lShiftScode : Byte := 0x12

def rShiftScode : Byte := 0x59

def releasedScode : Byte := 0xF0

def backspaceScode : Byte := 0x66

def kbdIntNum : Byte := 0x21

def readStatusByte : Driver Byte := inb ioP2

def writeCommandByte (commandByte : Byte) : Driver Unit := outb ioP2 commandByte

def disableP1 : Driver Unit := writeCommandByte disableP1Cmd

def disableP2 : Driver Unit := writeCommandByte disableP2Cmd

def enableP1 : Driver Unit := writeCommandByte enableP1Cmd

def flushBuff : Nat → Driver Unit
  | 0 => .op .fuel Empty.elim
  | fuel + 1 => do
    if (← readStatusByte) &&& 0x1 ≠ 0 then do
      let _ ← inb ioP1
      flushBuff fuel
    else return ()

def waitReadData : Nat → Driver Unit
  | 0 => .op .fuel Empty.elim
  | fuel + 1 => do
    if (← readStatusByte) &&& outputBuffStatusMsk = 0 then waitReadData fuel else return ()

def waitWriteData : Nat → Driver Unit
  | 0 => .op .fuel Empty.elim
  | fuel + 1 => do
    if (← readStatusByte) &&& inputBuffStatusMsk ≠ 0 then waitWriteData fuel else return ()

def readDataByte (fuel : Nat) : Driver Byte := do
  waitReadData fuel
  inb ioP1

def writeDataByte (fuel : Nat) (dataByte : Byte) : Driver Unit := do
  waitWriteData fuel
  outb ioP1 dataByte

def writeTwoCommandBytes (fuel : Nat) (fstCmdByte secCmdByte : Byte) : Driver Unit := do
  writeCommandByte fstCmdByte
  writeDataByte fuel secCmdByte

def readConfigByte (fuel : Nat) : Driver Byte := do
  writeCommandByte readCfgCmd
  readDataByte fuel

def writeConfigByte (fuel : Nat) (configByte : Byte) : Driver Unit :=
  writeTwoCommandBytes fuel writeCfgCmd configByte

def getGoodConfigByte (currConfigByte : Byte) : Byte :=
  let currConfigByte := currConfigByte ||| p1IntCfgMsk
  let currConfigByte := currConfigByte &&& ~~~p2IntCfgMsk
  let currConfigByte := currConfigByte &&& ~~~p1ClkCfgMsk
  let currConfigByte := currConfigByte ||| p2ClkCfgMsk
  currConfigByte &&& ~~~p1TranslationCfgMsk

def writeGoodConfigByte (fuel : Nat) : Driver Unit := do
  writeConfigByte fuel (getGoodConfigByte (← readConfigByte fuel))

/-- Does not wait for the output buffer. -/
def recvKbdByte : Driver Byte := inb ioP1

/-- The loop of `verify_kbd_ack` with at most `n` iterations; the resends made. -/
def resendLoop (fuel : Nat) (kbdSentByte : Byte) : Nat → Byte → Driver Byte
  | 0, _ => .op .fuel Empty.elim
  | n + 1, numResend => do
    if (← recvKbdByte) ≠ kbdAckRsp ∧ numResend < maxKbdResend then do
      writeDataByte fuel kbdSentByte
      resendLoop fuel kbdSentByte n (numResend + 1)
    else return numResend

def verifyKbdAck (fuel : Nat) (kbdSentByte : Byte) : Driver Unit := do
  let numResend ← resendLoop fuel kbdSentByte (maxKbdResend.toNat + 1) 0
  driverAssert (numResend ≠ maxKbdResend)

def sendKbdByte (fuel : Nat) (kbdByte : Byte) : Driver Unit := do
  writeDataByte fuel kbdByte
  verifyKbdAck fuel kbdByte

def resetKbd (fuel : Nat) : Driver Unit := do
  sendKbdByte fuel kbdRstCmd
  driverAssert ((← recvKbdByte) = kbdSelfTestPass)

def setKbdScanCode2 (fuel : Nat) : Driver Unit := do
  sendKbdByte fuel kbdSetScanCodeCmd
  sendKbdByte fuel kbdSetScanCode2Data

/-- `arg` points to the `kbd_state_t`: `shift_pressed`, then `prev_scode_release`. -/
def kbdIsrHandler (behind : List ScodeMapElem) : IrqHandler := fun irqNum _error arg => do
  driverAssert (arg ≠ 0)
  driverAssert (irqNum = kbdIntNum)
  let s ← recvKbdByte
  if (← load (.byte (arg + 1))) ≠ 0 then do
    store (.byte (arg + 1)) 0
    Prog.when (s = lShiftScode ∨ s = rShiftScode) (store (.byte arg) 0)
  else if s = lShiftScode ∨ s = rShiftScode then store (.byte arg) 1
  else if s = releasedScode then store (.byte (arg + 1)) 1
  else if s = backspaceScode then vgaBackspaceChar
  else Prog.when (s ≠ kbdAckRsp) do
    vgaDisplayChar (charFromScode behind s ((← load (.byte arg)) ≠ 0))

def registerKbdIsr (behind : List ScodeMapElem) (kdbState : Word) (irqTable : IrqTable) : IrqTable :=
  irqSetHandler irqTable 0x21 (kbdIsrHandler behind) kdbState

/-- `kdbState` is the address of `kdb_state`; the result is the table with the handler set. -/
def kbdInit (fuel : Nat) (behind : List ScodeMapElem) (kdbState : Word) (irqTable : IrqTable) :
    Driver IrqTable := do
  disableP1
  disableP2
  flushBuff fuel
  writeGoodConfigByte fuel
  enableP1
  resetKbd fuel
  setKbdScanCode2 fuel
  let irqTable := registerKbdIsr behind kdbState irqTable
  irqEnableIndex kbdIntNum
  return irqTable

end SkipOS
