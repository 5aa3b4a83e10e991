import SkipOS.Lib.Memory

/-! Sequences of bytes held in memory, and numbers as sequences of bytes. -/

namespace Mem

/-- The bytes from `a` on are `bytes`. -/
def Holds (m : Mem) (a : Word) (bytes : List Byte) : Prop :=
  ∀ i v, bytes[i]? = some v → m (a + BitVec.ofNat 64 i) = v

/-- The `n` low digits of `v`, lowest first. -/
def leBytes (n v : Nat) : List Byte := (List.range n).map fun i => BitVec.ofNat 8 (v / 256 ^ i)

/-- Memory that holds `bytes` at `a`, with zeros everywhere else. -/
def ofBytes (a : Word) (bytes : List Byte) : Mem := fun b => bytes.getD (b - a).toNat 0

variable {m : Mem} {a : Word} {xs ys : List Byte}

theorem holds_append :
    m.Holds a (xs ++ ys) ↔ m.Holds a xs ∧ m.Holds (a + BitVec.ofNat 64 xs.length) ys := by
  have hshift (i : Nat) : a + BitVec.ofNat 64 xs.length + BitVec.ofNat 64 i =
      a + BitVec.ofNat 64 (xs.length + i) := by
    rw [BitVec.ofNat_add, BitVec.add_assoc]
  constructor
  · intro h
    refine ⟨fun i v hv => h i v ?_, fun i v hv => ?_⟩
    · rw [List.getElem?_append_left (List.getElem?_eq_some_iff.mp hv).1, hv]
    · rw [hshift]
      refine h _ v ?_
      rw [List.getElem?_append_right (Nat.le_add_right _ _), Nat.add_sub_cancel_left, hv]
  · rintro ⟨hx, hy⟩ i v hv
    by_cases hi : i < xs.length
    · rw [List.getElem?_append_left hi] at hv
      exact hx i v hv
    · rw [List.getElem?_append_right (Nat.le_of_not_lt hi)] at hv
      have h := hy _ v hv
      rwa [hshift, Nat.add_sub_cancel' (Nat.le_of_not_lt hi)] at h

theorem length_leBytes (n v : Nat) : (leBytes n v).length = n := by
  rw [leBytes, List.length_map, List.length_range]

theorem Holds.loadLE {n v : Nat} (h : m.Holds a (leBytes n v)) :
    m.loadLE a n = v % 256 ^ n := by
  apply loadLE_of_digits
  intro i hi
  apply h
  rw [leBytes, List.getElem?_map, List.getElem?_range hi, Option.map_some]

theorem Holds.load32 {v : BitVec 32} (h : m.Holds a (leBytes 4 v.toNat)) : m.load32 a = v := by
  have hv := v.isLt
  rw [Mem.load32, h.loadLE]
  apply BitVec.eq_of_toNat_eq
  rw [BitVec.toNat_ofNat]
  omega

theorem holds_ofBytes (a : Word) {bytes : List Byte} (hlen : bytes.length ≤ 2 ^ 64) :
    (ofBytes a bytes).Holds a bytes := by
  intro i v hv
  have hi := (List.getElem?_eq_some_iff.mp hv).1
  have hoff : (a + BitVec.ofNat 64 i - a).toNat = i := by
    have he : a + BitVec.ofNat 64 i - a = BitVec.ofNat 64 i := by bv_omega
    rw [he, toNat_ofNat_of_lt (by omega)]
  rw [ofBytes, hoff, List.getD_eq_getElem?_getD, hv]
  rfl

end Mem
