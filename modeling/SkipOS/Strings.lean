import SkipOS.Printk
import SkipOS.Lib.Bytes

/-! `string.c` on memory. `char` is signed, and an `int` that overflows is undefined behaviour. -/

namespace SkipOS

open Mem Exec

/-- A string in memory, with the NUL that ends it. -/
structure MemString (m : Mem) where
  addr : Word
  str : CString
  notNull : addr ≠ 0
  noWrap : addr.toNat + str.bytes.length < 2 ^ 64
  held : m.Holds addr (str.bytes ++ [0])

namespace StringC

def loadChar (a : Word) : Exec Mem Byte := do return (← get) a

def storeChar (a : Word) (b : Byte) : Exec Mem Unit := modify fun m => m.storeByte a b

/-- `&s[index]` for an `int`. -/
def charPtr (s : Word) (index : BitVec 32) : Word := s + index.signExtend 64

def incInt (index : BitVec 32) : Exec Mem (BitVec 32) :=
  if index = BitVec.intMax 32 then throw .undefined else return index + 1

def memsetLoop (s : Word) (c : BitVec 32) (n : Word) : Nat → Word → Exec Mem Unit
  | 0, _ => throw .fuel
  | fuel + 1, i =>
    if i < n then do
      storeChar (s + i) (c.setWidth 8)
      memsetLoop s c n fuel (i + 1)
    else return ()

def memset (fuel : Nat) (s : Word) (c : BitVec 32) (n : Word) : Exec Mem Word := do
  assert (c.sle 0xFF)
  memsetLoop s c n fuel 0
  return s

def memcpyLoop (dest src n : Word) : Nat → Word → Exec Mem Unit
  | 0, _ => throw .fuel
  | fuel + 1, i =>
    if i < n then do
      storeChar (dest + i) (← loadChar (src + i))
      memcpyLoop dest src n fuel (i + 1)
    else return ()

def memcpy (fuel : Nat) (dest src n : Word) : Exec Mem Word := do
  memcpyLoop dest src n fuel 0
  return dest

def strlenLoop (s : Word) : Nat → Word → Exec Mem Word
  | 0, _ => throw .fuel
  | fuel + 1, len => do
    if (← loadChar (s + len)) ≠ 0 then strlenLoop s fuel (len + 1) else return len

def strlen (fuel : Nat) (s : Word) : Exec Mem Word := strlenLoop s fuel 0

def strcpy (fuel : Nat) (dest src : Word) : Exec Mem Word := do
  let srcLen := (← strlen fuel src) + 1
  let _ ← memcpy fuel dest src srcLen
  return dest

def strchrLoop (s : Word) (c : BitVec 32) : Nat → BitVec 32 → Exec Mem Word
  | 0, _ => throw .fuel
  | fuel + 1, index => do
    let b ← loadChar (charPtr s index)
    if b ≠ 0 then
      if b.signExtend 32 = c then return charPtr s index
      else strchrLoop s c fuel (← incInt index)
    else if c = 0 then return charPtr s (← incInt index)
    else return 0

def strchr (fuel : Nat) (s : Word) (c : BitVec 32) : Exec Mem Word := strchrLoop s c fuel 0

def strvalLoop (s : Word) : Nat → BitVec 32 → Word → Exec Mem Word
  | 0, _, _ => throw .fuel
  | fuel + 1, index, sum => do
    let b ← loadChar (charPtr s index)
    if b ≠ 0 then
      let sum := sum + b.setWidth 64
      strvalLoop s fuel (← incInt index) sum
    else return sum

def strval (fuel : Nat) (s : Word) : Exec Mem Word := do
  assert (s ≠ 0)
  strvalLoop s fuel 0 0

def strcmp (fuel : Nat) (s1 s2 : Word) : Exec Mem (BitVec 32) := do
  return ((← strval fuel s1) - (← strval fuel s2)).setWidth 32

variable {m : Mem} {s : Word} {str : CString} {c index : BitVec 32} {n : Word} {i fuel : Nat}

@[simp] theorem loadChar_apply (a : Word) (m : Mem) : loadChar a m = .ok (m a) m := rfl

@[simp] theorem storeChar_apply (a : Word) (b : Byte) (m : Mem) :
    storeChar a b m = .ok () (m.storeByte a b) := rfl

theorem charPtr_ofNat (s : Word) (hi : i < 2 ^ 31) :
    charPtr s (BitVec.ofNat 32 i) = s + BitVec.ofNat 64 i := by
  have hsign : (BitVec.ofNat 32 i).signExtend 64 = BitVec.ofNat 64 i := by
    have hmsb : (BitVec.ofNat 32 i).msb = false := by
      rw [BitVec.msb_eq_false_iff_two_mul_lt, toNat_ofNat_of_lt (by omega)]
      omega
    rw [BitVec.signExtend_eq_setWidth_of_msb_false hmsb]
    apply BitVec.eq_of_toNat_eq
    rw [BitVec.toNat_setWidth, toNat_ofNat_of_lt (by omega), BitVec.toNat_ofNat]
  rw [charPtr, hsign]

theorem incInt_of_lt (hi : i + 1 < 2 ^ 31) (m : Mem) :
    incInt (BitVec.ofNat 32 i) m = .ok (BitVec.ofNat 32 (i + 1)) m := by
  have hne : BitVec.ofNat 32 i ≠ BitVec.intMax 32 := by
    intro he
    have hn := congrArg BitVec.toNat he
    rw [toNat_ofNat_of_lt (by omega), BitVec.toNat_intMax] at hn
    omega
  rw [incInt, if_neg hne, ofNat_add_one]
  rfl

theorem incInt_max (m : Mem) : incInt (BitVec.ofNat 32 (2 ^ 31 - 1)) m = .error .undefined m := rfl

theorem char_at (h : m.Holds s (str.bytes ++ [0])) (hi : i ≤ str.bytes.length) :
    m (s + BitVec.ofNat 64 i) = str.at i := by
  apply h
  rcases Nat.lt_or_eq_of_le hi with hlt | rfl
  · rw [List.getElem?_append_left hlt, List.getElem?_eq_getElem hlt, CString.at_eq_getElem hlt]
  · rw [List.getElem?_concat_length, CString.at_eq_zero_iff.mpr (Nat.le_refl _)]

theorem char_ne_zero (hi : i < str.bytes.length) : str.at i ≠ 0 :=
  fun hz => Nat.not_le_of_lt hi (CString.at_eq_zero_iff.mp hz)

/-- A longer string would come round to its own end. -/
theorem length_lt (h : m.Holds s (str.bytes ++ [0])) : str.bytes.length < 2 ^ 64 := by
  by_contra hle
  have hwrap : BitVec.ofNat 64 (str.bytes.length - 2 ^ 64) = BitVec.ofNat 64 str.bytes.length := by
    apply BitVec.eq_of_toNat_eq
    rw [BitVec.toNat_ofNat, BitVec.toNat_ofNat]
    omega
  have hend := char_at h (Nat.le_refl _)
  rw [← hwrap, char_at h (by omega), CString.at_eq_zero_iff.mpr (Nat.le_refl _)] at hend
  exact char_ne_zero (by omega) hend

theorem strlenLoop_run (h : m.Holds s (str.bytes ++ [0])) (hi : i ≤ str.bytes.length)
    (hfuel : str.bytes.length - i < fuel) :
    strlenLoop s fuel (BitVec.ofNat 64 i) m = .ok (BitVec.ofNat 64 str.bytes.length) m := by
  induction fuel generalizing i with
  | zero => exact absurd hfuel (Nat.not_lt_zero _)
  | succ fuel ih =>
    rw [strlenLoop, bind_of_ok (loadChar_apply _ _), char_at h hi]
    rcases Nat.lt_or_eq_of_le hi with hlt | rfl
    · rw [if_pos (char_ne_zero hlt), ofNat_add_one]
      exact ih hlt (by omega)
    · rw [if_neg (not_not.mpr (CString.at_eq_zero_iff.mpr (Nat.le_refl _)))]
      rfl

theorem strlen_returns (h : m.Holds s (str.bytes ++ [0])) :
    Returns (fun fuel => strlen fuel s) m (BitVec.ofNat 64 str.bytes.length) m :=
  ⟨str.bytes.length + 1, fun _ hle => strlenLoop_run h (Nat.zero_le _) (by omega)⟩

theorem memsetLoop_run (h : i ≤ n.toNat) (hfuel : n.toNat - i < fuel) :
    memsetLoop s c n fuel (BitVec.ofNat 64 i) (m.fill s i (c.setWidth 8)) =
      .ok () (m.fill s n.toNat (c.setWidth 8)) := by
  have hn := n.isLt
  induction fuel generalizing i with
  | zero => exact absurd hfuel (Nat.not_lt_zero _)
  | succ fuel ih =>
    have hlt : BitVec.ofNat 64 i < n ↔ i < n.toNat := by
      rw [BitVec.lt_def, toNat_ofNat_of_lt (by omega)]
    rcases Nat.lt_or_eq_of_le h with hi | rfl
    · rw [memsetLoop, if_pos (hlt.mpr hi), bind_of_ok (storeChar_apply _ _ _),
        storeByte_fill _ _ _ (by omega), ofNat_add_one]
      exact ih hi (by omega)
    · rw [memsetLoop, if_neg fun hw => Nat.lt_irrefl _ (hlt.mp hw)]
      rfl

/-- The bytes are set, also to a negative `c`, or the assertion on `c` stops the machine. -/
theorem memset_exact (s : Word) (c : BitVec 32) (n : Word) (m : Mem) :
    c.sle 0xFF = true ∧
        Returns (fun fuel => memset fuel s c n) m s (m.fill s n.toNat (c.setWidth 8)) ∨
      c.sle 0xFF = false ∧ ∀ fuel, memset fuel s c n m = .error .assert m := by
  by_cases hc : c.sle 0xFF = true
  · have hzero : m.fill s 0 (c.setWidth 8) = m :=
      funext fun b => if_neg (Nat.not_lt_zero (b - s).toNat)
    refine Or.inl ⟨hc, n.toNat + 1, fun fuel hfuel => ?_⟩
    have hloop := memsetLoop_run (s := s) (c := c) (m := m) (Nat.zero_le n.toNat)
      (by omega : _ < fuel)
    rw [hzero] at hloop
    exact (bind_assert_of hc _ m).trans (bind_of_ok hloop _)
  · exact Or.inr ⟨Bool.eq_false_iff.mpr hc, fun fuel => bind_assert_not hc _ m⟩

end StringC

end SkipOS
