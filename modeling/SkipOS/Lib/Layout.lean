import SkipOS.Lib.Memory

/-! Packed structures: members at offsets from a base, and members that are parts
of a byte or of a word. -/

namespace Slice

variable {w : Nat}

theorem extractLsb'_extractLsb' (x : BitVec w) {i n j k : Nat} (h : j + k ≤ n) :
    (x.extractLsb' i n).extractLsb' j k = x.extractLsb' (i + j) k := by
  ext b hb
  simp only [BitVec.getElem_extractLsb', BitVec.getLsbD_extractLsb', Nat.add_assoc]
  rw [decide_eq_true (by omega), Bool.true_and]

/-- A part cut out with a shift and a mask. -/
theorem setWidth_ushiftRight_and (x mask : BitVec w) {i k : Nat}
    (h : mask.setWidth k = BitVec.allOnes k) :
    ((x >>> i) &&& mask).setWidth k = x.extractLsb' i k := by
  rw [BitVec.setWidth_and, h, BitVec.and_allOnes]
  ext b hb
  simp only [BitVec.getElem_extractLsb', BitVec.getElem_setWidth, BitVec.getLsbD_ushiftRight]

theorem extractLsb'_shiftLeft (x : BitVec w) {i k : Nat} (h : i + k ≤ w) :
    (x <<< i).extractLsb' i k = x.extractLsb' 0 k := by
  ext b hb
  rw [BitVec.getElem_extractLsb', BitVec.getElem_extractLsb', BitVec.getLsbD_shiftLeft,
    decide_eq_true (by omega), Nat.add_sub_cancel_left, Nat.zero_add]
  simp

/-- The bits of `v` under its mask, whatever the other operand holds. -/
theorem extractLsb'_masked (b v mask mask' : BitVec w) {i k : Nat}
    (h : mask.extractLsb' i k = 0#k) (h' : mask'.extractLsb' i k = BitVec.allOnes k) :
    ((b &&& mask) ||| (v &&& mask')).extractLsb' i k = v.extractLsb' i k := by
  rw [BitVec.extractLsb'_or, BitVec.extractLsb'_and, BitVec.extractLsb'_and, h, h',
    BitVec.and_zero, BitVec.and_allOnes, BitVec.zero_or]

end Slice

namespace Mem

theorem loadLE_add (m : Mem) (a : Word) (n k : Nat) :
    m.loadLE a (n + k) = m.loadLE a n + 256 ^ n * m.loadLE (a + BitVec.ofNat 64 n) k := by
  induction n generalizing a with
  | zero => simp [loadLE]
  | succ n ih =>
    have hnext : a + 1 + BitVec.ofNat 64 n = a + BitVec.ofNat 64 (n + 1) := by
      rw [BitVec.add_assoc, BitVec.add_comm 1, ofNat_add_one]
    rw [Nat.add_right_comm, loadLE, loadLE, ih, hnext, Nat.pow_succ', Nat.mul_add, Nat.mul_assoc,
      Nat.add_assoc]

/-- Bytes in the middle of a number. -/
theorem loadLE_div_mod (m : Mem) (a : Word) {n i k : Nat} (h : i + k ≤ n) :
    m.loadLE a n / 256 ^ i % 256 ^ k = m.loadLE (a + BitVec.ofNat 64 i) k := by
  obtain ⟨r, rfl⟩ := Nat.exists_eq_add_of_le h
  rw [Nat.add_assoc, loadLE_add, Nat.add_mul_div_left _ _ (Nat.pow_pos (by decide)),
    Nat.div_eq_of_lt (loadLE_lt m a i), Nat.zero_add, loadLE_add, Nat.add_mul_mod_self_left,
    Nat.mod_eq_of_lt (loadLE_lt m _ k)]

theorem span_offset_disjoint {p d d' : Word} {n n' : Nat} (h : d.toNat + n ≤ d'.toNat)
    (h' : d'.toNat + n' ≤ 2 ^ 64) : Disjoint (span (p + d) n) (span (p + d') n') := by
  rw [Set.disjoint_left]
  intro b hb hb'
  rw [mem_span] at hb hb'
  bv_omega

theorem loadLE_storeLE_of_disjoint {m : Mem} {a b : Word} {n k v : Nat} (hn : n ≤ 2 ^ 64)
    (h : Disjoint (span b n) (span a k)) : (m.storeLE a k v).loadLE b n = m.loadLE b n :=
  loadLE_congr hn fun _ hc => storeLE_apply_of_not_mem (Set.disjoint_left.mp h hc)

/-- A store to another member of the structure at `p`. -/
theorem loadLE_storeLE_offset (m : Mem) (p : Word) {d d' : Word} {n k : Nat} (v : Nat)
    (h : d.toNat + k ≤ d'.toNat ∧ d'.toNat + n ≤ 2 ^ 64 ∨
      d'.toNat + n ≤ d.toNat ∧ d.toNat + k ≤ 2 ^ 64) :
    (m.storeLE (p + d) k v).loadLE (p + d') n = m.loadLE (p + d') n := by
  apply loadLE_storeLE_of_disjoint (by omega)
  rcases h with ⟨h, h'⟩ | ⟨h, h'⟩
  · exact (span_offset_disjoint h h').symm
  · exact span_offset_disjoint h h'

theorem ofNat_loadLE_storeLE_self (m : Mem) (a : Word) {w n : Nat} (v : BitVec w) (hw : w = 8 * n)
    (hn : n ≤ 2 ^ 64) : BitVec.ofNat w ((m.storeLE a n v.toNat).loadLE a n) = v := by
  subst hw
  have hv : v.toNat < 256 ^ n := by simpa only [Nat.pow_mul] using v.isLt
  rw [loadLE_storeLE_self m a v.toNat hn, Nat.mod_eq_of_lt hv, BitVec.ofNat_toNat,
    BitVec.setWidth_eq]

theorem storeLE_one_apply (m : Mem) (a : Word) (v : Byte) : m.storeLE a 1 v.toNat a = v := by
  rw [storeLE, if_pos (mem_span_self (by decide))]
  simp

theorem storeLE_offset_apply (m : Mem) (p : Word) {d d' : Word} {k : Nat} (v : Nat)
    (h : d.toNat + k ≤ d'.toNat ∨ d'.toNat < d.toNat ∧ d.toNat + k ≤ 2 ^ 64) :
    m.storeLE (p + d) k v (p + d') = m (p + d') := by
  apply storeLE_apply_of_not_mem
  rw [mem_span]
  bv_omega

/-- A member that starts and ends between bytes. -/
theorem extractLsb'_loadLE (m : Mem) (p : Word) {w n i k : Nat} (hw : w = 8 * n) (hi : 8 ∣ i)
    (hk : 8 ∣ k) (h : i + k ≤ w) : (BitVec.ofNat w (m.loadLE p n)).extractLsb' i k =
      BitVec.ofNat k (m.loadLE (p + BitVec.ofNat 64 (i / 8)) (k / 8)) := by
  obtain ⟨i, rfl⟩ := hi
  obtain ⟨k, rfl⟩ := hk
  subst hw
  have hpow (j : Nat) : 2 ^ (8 * j) = 256 ^ j := by rw [Nat.pow_mul]
  have hlt : m.loadLE p n < 2 ^ (8 * n) := hpow n ▸ loadLE_lt m p n
  rw [Nat.mul_div_cancel_left i (by decide), Nat.mul_div_cancel_left k (by decide),
    ← loadLE_div_mod m p (n := n) (by omega)]
  apply BitVec.eq_of_toNat_eq
  rw [BitVec.extractLsb'_toNat, toNat_ofNat_of_lt hlt, Nat.shiftRight_eq_div_pow,
    BitVec.toNat_ofNat, hpow, hpow, Nat.mod_mod]

end Mem
