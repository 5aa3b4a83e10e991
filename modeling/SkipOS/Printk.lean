import SkipOS.Lib.Memory
import SkipOS.Lib.Exec

/-! `printk.c`, with the calls it makes of `vga.c` and `serial.c` listed in order. -/

namespace SkipOS

open Exec

def ch (c : Char) : Byte := BitVec.ofNat 8 c.toNat

/-- A string in memory, without the NUL that ends it. -/
structure CString where
  bytes : List Byte
  noNul : 0 ∉ bytes

/-- `s[index]`, up to the NUL. -/
def CString.at (s : CString) (index : Nat) : Byte := s.bytes.getD index 0

theorem CString.at_eq_getElem {s : CString} {i : Nat} (hi : i < s.bytes.length) :
    s.at i = s.bytes[i] := by
  rw [CString.at, List.getD_eq_getElem?_getD, List.getElem?_eq_getElem hi, Option.getD_some]

theorem CString.at_eq_zero_iff {s : CString} {i : Nat} : s.at i = 0 ↔ s.bytes.length ≤ i := by
  constructor
  · intro hz
    by_contra hlt
    rw [at_eq_getElem (Nat.lt_of_not_le hlt)] at hz
    exact s.noNul (hz ▸ List.getElem_mem _)
  · intro hle
    rw [CString.at, List.getD_eq_getElem?_getD, List.getElem?_eq_none hle, Option.getD_none]

/-- An argument after promotion; `none` is the null pointer. -/
inductive Arg where
  | int (v : BitVec 32)
  | long (v : Word)
  | ptr (p : Word)
  | str (s : Option CString)

inductive PrintCall where
  | vgaDisplayChar (c : Byte)
  | serWrite (buff : List Byte)
  deriving DecidableEq

/-- The arguments not yet taken, and the calls made. -/
structure PrintkState where
  args : List Arg
  calls : List PrintCall

abbrev Printk := Exec PrintkState

def vaArg : Printk Arg := do
  let s ← get
  match s.args with
  | [] => throw .undefined
  | arg :: args => do
    set { s with args }
    return arg

/-- `va_arg(args, int)` and `va_arg(args, unsigned int)` -/
def vaInt : Printk (BitVec 32) := do
  match ← vaArg with
  | .int v => return v
  | _ => throw .undefined

/-- `va_arg` of the four types of 64 bits. -/
def vaLong : Printk Word := do
  match ← vaArg with
  | .long v => return v
  | _ => throw .undefined

def vaPtr : Printk Word := do
  match ← vaArg with
  | .ptr p => return p
  | _ => throw .undefined

def vaStr : Printk (Option CString) := do
  match ← vaArg with
  | .str s => return s
  | _ => throw .undefined

def call (c : PrintCall) : Printk Unit := modify fun s => { s with calls := s.calls ++ [c] }

/-- Stops the processor without a word. -/
def assertNoprint (c : Prop) [Decidable c] : Printk Unit :=
  if c then return () else throw .halt

/-- The loop of `VGA_display_str`. After `n` more rounds the index is back at 0 and the loop never
ends. -/
def vgaDisplayStrLoop (s : CString) : Nat → BitVec 16 → Printk Unit
  | 0, _ => throw .fuel
  | n + 1, index =>
    if s.at index.toNat = 0 then return ()
    else do
      call (.vgaDisplayChar (s.at index.toNat))
      vgaDisplayStrLoop s n (index + 1)

def vgaDisplayStr (s : CString) : Printk Unit := vgaDisplayStrLoop s (2 ^ 16) 0

def displayChar (c : Byte) : Printk Unit := do
  call (.vgaDisplayChar c)
  call (.serWrite [c])

/-- What the failing assertion prints is left out. -/
def displayStr (s : Option CString) : Printk Unit :=
  match s with
  | none => throw .assert
  | some s => do
    vgaDisplayStr s
    -- `strlen(s) + 1` bytes
    call (.serWrite (s.bytes ++ [0]))

inductive Case where
  | uppercase
  | lowercase
  deriving DecidableEq

def intToChar (val : Byte) (cs : Case) : Byte :=
  if val < 10 then ch '0' + val
  else
    let hexBase := if cs = .uppercase then ch 'A' else ch 'a'
    hexBase + (val - 0xA)

def outbuffsize : Nat := 64

/-- The first loop of `print_unsigned_long_long_varbase`, with the room left in `tmp_buff` and what
stands in it, the newest character first. -/
def fillBuff (base : Byte) (cs : Case) : Nat → Word → List Byte → Printk (List Byte)
  | 0, val, tmpBuff => if val = 0 then return tmpBuff else throw .undefined
  | room + 1, val, tmpBuff =>
    if val = 0 then return tmpBuff
    else
      fillBuff base cs room (val / base.setWidth 64)
        (intToChar ((val % base.setWidth 64).setWidth 8) cs :: tmpBuff)

/-- The second loop, from the newest character down. -/
def displayBuff : List Byte → Printk Unit
  | [] => return ()
  | c :: tmpBuff => do
    displayChar c
    displayBuff tmpBuff

def printUnsignedLongLongVarbase (val : Word) (base : Byte) (cs : Case) : Printk Unit :=
  if val = 0 then displayChar (ch '0')
  else do
    let tmpBuff ← fillBuff base cs outbuffsize val []
    displayBuff tmpBuff

def printHexLongLong (val : Word) (cs : Case) : Printk Unit :=
  printUnsignedLongLongVarbase val 16 cs

def printUnsignedLongLong (val : Word) : Printk Unit :=
  printUnsignedLongLongVarbase val 10 .lowercase

def printLongLong (val : Word) : Printk Unit :=
  if val.slt 0 then do
    displayChar (ch '-')
    printUnsignedLongLong (val * -1)
  else printUnsignedLongLong val

def printHexLong (val : Word) : Printk Unit := printHexLongLong val .lowercase

def printUnsignedLong (val : Word) : Printk Unit := printUnsignedLongLong val

def printLong (val : Word) : Printk Unit := printLongLong val

def printHexInt (val : BitVec 32) : Printk Unit := printHexLongLong (val.setWidth 64) .lowercase

def printUnsignedInt (val : BitVec 32) : Printk Unit := printUnsignedLongLong (val.setWidth 64)

def printInt (val : BitVec 32) : Printk Unit := printLongLong (val.signExtend 64)

def printHexShort (val : BitVec 16) : Printk Unit := printHexLongLong (val.setWidth 64) .lowercase

def printUnsignedShort (val : BitVec 16) : Printk Unit := printUnsignedLongLong (val.setWidth 64)

def printShort (val : BitVec 16) : Printk Unit := printLongLong (val.signExtend 64)

/-- The literal `"0x"`. -/
def hexPrefix : CString := ⟨[ch '0', ch 'x'], by decide⟩

def printPtr (p : Word) : Printk Unit := do
  displayStr (some hexPrefix)
  printHexLongLong p .uppercase

def printStr (s : Option CString) : Printk Unit := displayStr s

def printChar (c : Byte) : Printk Unit := displayChar c

/-- The `switch` on the character after `%h`. -/
def shortDirective (c : Byte) : Printk Unit :=
  if c = ch 'd' then do printShort ((← vaInt).setWidth 16)
  else if c = ch 'u' then do printUnsignedShort ((← vaInt).setWidth 16)
  else if c = ch 'x' then do printHexShort ((← vaInt).setWidth 16)
  else assertNoprint False

/-- The `switch` on the character after `%l`. -/
def longDirective (c : Byte) : Printk Unit :=
  if c = ch 'd' then do printLong (← vaLong)
  else if c = ch 'u' then do printUnsignedLong (← vaLong)
  else if c = ch 'x' then do printHexLong (← vaLong)
  else assertNoprint False

/-- The `switch` on the character after `%q`. -/
def longLongDirective (c : Byte) : Printk Unit :=
  if c = ch 'd' then do printLongLong (← vaLong)
  else if c = ch 'u' then do printUnsignedLongLong (← vaLong)
  else if c = ch 'x' then do printHexLongLong (← vaLong) .lowercase
  else assertNoprint False

/-- The other cases of the `switch` on the character after `%`. -/
def directive (c : Byte) : Printk Unit :=
  if c = ch '%' then displayChar (ch '%')
  else if c = ch 'c' then do printChar ((← vaInt).setWidth 8)
  else if c = ch 's' then do printStr (← vaStr)
  else if c = ch 'p' then do printPtr (← vaPtr)
  else if c = ch 'd' then do printInt (← vaInt)
  else if c = ch 'u' then do printUnsignedInt (← vaInt)
  else if c = ch 'x' then do printHexInt (← vaInt)
  else assertNoprint False

/-- The `while` loop of `printk`. The text that is left ends where the NUL stands. -/
def printkLoop : List Byte → Printk Unit
  | [] => return ()
  | c :: fmt =>
    if c ≠ ch '%' then do
      displayChar c
      printkLoop fmt
    else
      match fmt with
      | [] => assertNoprint False
      | d :: fmt =>
        if d = ch 'h' ∨ d = ch 'l' ∨ d = ch 'q' then
          match fmt with
          | [] => assertNoprint False
          | e :: fmt => do
            (if d = ch 'h' then shortDirective e
              else if d = ch 'l' then longDirective e
              else longLongDirective e)
            printkLoop fmt
        else do
          directive d
          printkLoop fmt

def printk (fmt : Option CString) (args : List Arg) : Exec (List PrintCall) (BitVec 32) :=
  fun calls =>
    match fmt with
    | none => .error .halt calls
    | some fmt =>
      match printkLoop fmt.bytes ⟨args, calls⟩ with
      | .ok _ s => .ok 0 s.calls
      | .error e s => .error e s.calls

end SkipOS
