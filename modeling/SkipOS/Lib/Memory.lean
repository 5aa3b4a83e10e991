import Mathlib.Order.CompletePartialOrder
import Mathlib.Data.Set.BooleanAlgebra
import Mathlib.Data.Set.Function
import Mathlib.Data.Nat.ModEq

/-! Flat byte-addressed memory with little-endian loads and stores. Addresses
wrap at `2 ^ 64`; two accesses are independent when their spans are disjoint. -/

abbrev Byte := BitVec 8

abbrev Word := BitVec 64

abbrev Mem := Word → Byte

theorem ofNat_add_one {w : Nat} (n : Nat) : BitVec.ofNat w n + 1 = BitVec.ofNat w (n + 1) :=
  (BitVec.ofNat_add n 1).symm

theorem toNat_ofNat_of_lt {w n : Nat} (h : n < 2 ^ w) : (BitVec.ofNat w n).toNat = n := by
  rw [BitVec.toNat_ofNat, Nat.mod_eq_of_lt h]

namespace Mem

/-- The `n` byte addresses from `a` on, wrapping at the top of memory. -/
def span (a : Word) (n : Nat) : Set Word := {b | (b - a).toNat < n}

instance (a : Word) (n : Nat) (b : Word) : Decidable (b ∈ span a n) :=
  inferInstanceAs (Decidable ((b - a).toNat < n))

def storeByte (m : Mem) (a : Word) (v : Byte) : Mem := fun b => if b = a then v else m b

def loadLE (m : Mem) (a : Word) : Nat → Nat
  | 0 => 0
  | n + 1 => (m a).toNat + 256 * loadLE m (a + 1) n

def storeLE (m : Mem) (a : Word) (n v : Nat) : Mem :=
  fun b => if b ∈ span a n then BitVec.ofNat 8 (v / 256 ^ (b - a).toNat) else m b

def load32 (m : Mem) (a : Word) : BitVec 32 := BitVec.ofNat 32 (m.loadLE a 4)

def load64 (m : Mem) (a : Word) : Word := BitVec.ofNat 64 (m.loadLE a 8)

def store64 (m : Mem) (a v : Word) : Mem := m.storeLE a 8 v.toNat

/-- The 64-bit member at offset `off` of a structure at `p`. -/
def field (m : Mem) (p off : Word) : Word := m.load64 (p + off)

def setField (m : Mem) (p off v : Word) : Mem := m.store64 (p + off) v

/-- `n` bytes from `a` on set to `v`. -/
def fill (m : Mem) (a : Word) (n : Nat) (v : Byte) : Mem :=
  fun b => if b ∈ span a n then v else m b

theorem mem_span {a b : Word} {n : Nat} : b ∈ span a n ↔ (b - a).toNat < n := Iff.rfl

theorem mem_span_self {a : Word} {n : Nat} (hn : 0 < n) : a ∈ span a n := by
  simpa [mem_span] using hn

theorem span_mono {a : Word} {n k : Nat} (h : n ≤ k) : span a n ⊆ span a k :=
  fun _ hb => Nat.lt_of_lt_of_le hb h

theorem span_succ {a : Word} {n : Nat} (hn : n < 2 ^ 64) :
    span a (n + 1) = insert a (span (a + 1) n) := by
  ext b
  simp only [Set.mem_insert_iff, mem_span]
  constructor
  · intro h
    by_cases hb : b = a
    · exact Or.inl hb
    · right
      bv_omega
  · rintro (rfl | h)
    · simp
    · bv_omega

theorem add_mem_span {a : Word} {n i : Nat} (hi : i < n) (hn : n ≤ 2 ^ 64) :
    a + BitVec.ofNat 64 i ∈ span a n := by
  have he : a + BitVec.ofNat 64 i - a = BitVec.ofNat 64 i := by bv_omega
  rw [mem_span, he, toNat_ofNat_of_lt (by omega)]
  exact hi

theorem span_offset_subset {a d : Word} {n k : Nat} (h : d.toNat + n ≤ k) :
    span (a + d) n ⊆ span a k := by
  intro b hb
  rw [mem_span] at hb ⊢
  bv_omega

/-- Spans that stay below `2 ^ 64` are disjoint when one ends before the other starts. -/
theorem span_disjoint {a b : Word} {n k : Nat} (h : a.toNat + n ≤ b.toNat)
    (hb : b.toNat + k ≤ 2 ^ 64) : Disjoint (span a n) (span b k) := by
  rw [Set.disjoint_left]
  intro c hc hc'
  rw [mem_span] at hc hc'
  bv_omega

theorem loadLE_congr {m m' : Mem} {a : Word} {n : Nat} (hn : n ≤ 2 ^ 64)
    (h : Set.EqOn m m' (span a n)) : m.loadLE a n = m'.loadLE a n := by
  induction n generalizing a with
  | zero => rfl
  | succ n ih =>
    rw [span_succ (by omega)] at h
    have ha : m a = m' a := h (Set.mem_insert _ _)
    have hr := ih (a := a + 1) (by omega) (h.mono (Set.subset_insert _ _))
    simp only [loadLE, ha, hr]

/-- Equal bytes at two places read alike. -/
theorem loadLE_shift {m m' : Mem} {a b : Word} {n : Nat}
    (h : ∀ i < n, m (a + BitVec.ofNat 64 i) = m' (b + BitVec.ofNat 64 i)) :
    m.loadLE a n = m'.loadLE b n := by
  induction n generalizing a b with
  | zero => rfl
  | succ n ih =>
    have hfirst : m a = m' b := by simpa using h 0 (by omega)
    have hnext : ∀ (c : Word) (i : Nat), c + 1 + BitVec.ofNat 64 i = c + BitVec.ofNat 64 (i + 1) := by
      intro c i
      rw [BitVec.ofNat_add, BitVec.add_assoc, BitVec.add_comm (BitVec.ofNat 64 i)]
      rfl
    have hrest := ih (a := a + 1) (b := b + 1) fun i hi => by
      rw [hnext, hnext]
      exact h (i + 1) (by omega)
    rw [loadLE, loadLE, hfirst, hrest]

theorem loadLE_lt (m : Mem) (a : Word) (n : Nat) : m.loadLE a n < 256 ^ n := by
  induction n generalizing a with
  | zero => simp [loadLE]
  | succ n ih =>
    have hr := ih (a + 1)
    have hb := (m a).isLt
    simp only [loadLE, Nat.pow_succ]
    omega

/-- Bytes `v / 256 ^ k` for consecutive `k` read back as the digits of `v`. -/
theorem loadLE_of_digits {m : Mem} {a : Word} {n v : Nat}
    (h : ∀ i < n, m (a + BitVec.ofNat 64 i) = BitVec.ofNat 8 (v / 256 ^ i)) :
    m.loadLE a n = v % 256 ^ n := by
  induction n generalizing a v with
  | zero => simp [loadLE, Nat.mod_one]
  | succ n ih =>
    have h0 : m a = BitVec.ofNat 8 v := by simpa using h 0 (by omega)
    have hr : m.loadLE (a + 1) n = v / 256 % 256 ^ n := by
      apply ih
      intro i hi
      have hh := h (i + 1) (by omega)
      have he : a + 1 + BitVec.ofNat 64 i = a + BitVec.ofNat 64 (i + 1) := by
        rw [BitVec.ofNat_add, BitVec.add_assoc, BitVec.add_comm (BitVec.ofNat 64 i)]
        rfl
      rw [he, hh, Nat.pow_succ', Nat.div_div_eq_div_mul]
    have hs : v % 256 ^ (n + 1) = v % 256 + 256 * (v / 256 % 256 ^ n) := by
      rw [Nat.pow_succ', Nat.mod_mul]
    simp only [loadLE, h0, hr, hs, BitVec.toNat_ofNat]

theorem storeLE_apply_of_not_mem {m : Mem} {a b : Word} {n v : Nat} (h : b ∉ span a n) :
    m.storeLE a n v b = m b := by
  simp [storeLE, h]

theorem loadLE_storeLE_self (m : Mem) (a : Word) {n : Nat} (v : Nat) (hn : n ≤ 2 ^ 64) :
    (m.storeLE a n v).loadLE a n = v % 256 ^ n := by
  apply loadLE_of_digits
  intro i hi
  have he : a + BitVec.ofNat 64 i - a = BitVec.ofNat 64 i := by bv_omega
  simp only [storeLE, add_mem_span hi hn, if_true, he, BitVec.toNat_ofNat,
    Nat.mod_eq_of_lt (Nat.lt_of_lt_of_le hi hn)]

theorem store64_eqOn_compl (m : Mem) (a v : Word) :
    Set.EqOn (m.store64 a v) m (span a 8)ᶜ :=
  fun _ hb => storeLE_apply_of_not_mem hb

@[simp] theorem load64_store64_self (m : Mem) (a v : Word) : (m.store64 a v).load64 a = v := by
  have h := loadLE_storeLE_self m a (n := 8) v.toNat (by omega)
  rw [load64, store64, h]
  apply BitVec.eq_of_toNat_eq
  rw [BitVec.toNat_ofNat]
  have := v.isLt
  omega

theorem load64_congr {m m' : Mem} {a : Word} (h : Set.EqOn m m' (span a 8)) :
    m.load64 a = m'.load64 a := by
  simp only [load64, loadLE_congr (by omega) h]

theorem load64_store64_of_disjoint {m : Mem} {a b v : Word}
    (h : Disjoint (span a 8) (span b 8)) : (m.store64 a v).load64 b = m.load64 b :=
  load64_congr ((store64_eqOn_compl m a v).mono
    (Set.subset_compl_iff_disjoint_left.mpr h))

@[simp] theorem field_setField_self (m : Mem) (p off v : Word) :
    (m.setField p off v).field p off = v :=
  load64_store64_self m (p + off) v

theorem setField_eqOn_compl (m : Mem) (p off v : Word) :
    Set.EqOn (m.setField p off v) m (span (p + off) 8)ᶜ :=
  store64_eqOn_compl m (p + off) v

theorem fill_eqOn_compl (m : Mem) (a : Word) (n : Nat) (v : Byte) :
    Set.EqOn (m.fill a n v) m (span a n)ᶜ := by
  intro b hb
  have hb' : b ∉ span a n := hb
  simp [fill, hb']

theorem storeByte_fill (m : Mem) (a : Word) (v : Byte) {n : Nat} (hn : n < 2 ^ 64) :
    (m.fill a n v).storeByte (a + BitVec.ofNat 64 n) v = m.fill a (n + 1) v := by
  funext b
  by_cases hb : b = a + BitVec.ofNat 64 n
  · rw [storeByte, if_pos hb, hb, fill, if_pos (add_mem_span (Nat.lt_succ_self n) (by omega))]
  · have hiff : b ∈ span a n ↔ b ∈ span a (n + 1) := by
      rw [mem_span, mem_span]
      bv_omega
    rw [storeByte, if_neg hb, fill, fill, if_congr hiff rfl rfl]

theorem load64_fill_zero {m : Mem} {a b : Word} {n : Nat} (h : span b 8 ⊆ span a n) :
    (m.fill a n 0).load64 b = 0 := by
  have hz : (m.fill a n 0).loadLE b 8 = 0 % 256 ^ 8 := by
    apply loadLE_of_digits
    intro i hi
    have hm := h (add_mem_span (a := b) hi (by omega))
    simp [fill, hm]
  rw [load64, hz]
  rfl

end Mem
