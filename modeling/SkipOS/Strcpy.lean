import SkipOS.Strings

/-! `strcpy` between ranges that may overlap: the copy goes upwards, so a destination below the
source takes no byte that is still to be read. -/

namespace SkipOS

open Mem Exec

namespace StringC

/-- What stands at `dest` after `i` of the `n` bytes at `src`. -/
structure CopyInv (m : Mem) (dest src : Word) (n i : Nat) (m' : Mem) : Prop where
  copied : ∀ k < i, m' (dest + BitVec.ofNat 64 k) = m (src + BitVec.ofNat 64 k)
  ahead : ∀ k, i ≤ k → k < n → m' (src + BitVec.ofNat 64 k) = m (src + BitVec.ofNat 64 k)
  frame : Set.EqOn m' m (span dest n)ᶜ

/-- No byte is written before it is read. -/
def Upwards (dest src : Word) (n : Nat) : Prop :=
  ∀ i k, i < k → k < n → dest + BitVec.ofNat 64 i ≠ src + BitVec.ofNat 64 k

variable {m m' : Mem} {dest src : Word} {n i fuel : Nat} {str : CString}

theorem CopyInv.refl : CopyInv m dest src n 0 m :=
  ⟨fun _ hk => absurd hk (Nat.not_lt_zero _), fun _ _ _ => rfl, fun _ _ => rfl⟩

theorem CopyInv.step (h : CopyInv m dest src n i m') (hup : Upwards dest src n) (hi : i < n)
    (hn : n < 2 ^ 64) : CopyInv m dest src n (i + 1)
      (m'.storeByte (dest + BitVec.ofNat 64 i) (m' (src + BitVec.ofNat 64 i))) := by
  refine ⟨fun k hk => ?_, fun k hik hk => ?_, fun a ha => ?_⟩
  · rcases Nat.lt_or_eq_of_le (Nat.le_of_lt_succ hk) with hlt | rfl
    · have hne : dest + BitVec.ofNat 64 k ≠ dest + BitVec.ofNat 64 i := by bv_omega
      rw [storeByte, if_neg hne, h.copied k hlt]
    · rw [storeByte, if_pos rfl, h.ahead k (Nat.le_refl _) hi]
  · rw [storeByte, if_neg (hup i k hik hk).symm, h.ahead k (by omega) hk]
  · have hne : a ≠ dest + BitVec.ofNat 64 i := by
      rintro rfl
      exact ha (add_mem_span hi (by omega))
    rw [storeByte, if_neg hne, h.frame ha]

theorem memcpyLoop_succ (hi : i < 2 ^ 64) (hn : n < 2 ^ 64) :
    memcpyLoop dest src (BitVec.ofNat 64 n) (fuel + 1) (BitVec.ofNat 64 i) m' =
      if i < n then memcpyLoop dest src (BitVec.ofNat 64 n) fuel (BitVec.ofNat 64 (i + 1))
        (m'.storeByte (dest + BitVec.ofNat 64 i) (m' (src + BitVec.ofNat 64 i)))
      else .ok () m' := by
  have hlt : BitVec.ofNat 64 i < BitVec.ofNat 64 n ↔ i < n := by
    rw [BitVec.lt_def, toNat_ofNat_of_lt hi, toNat_ofNat_of_lt hn]
  by_cases h : i < n
  · rw [memcpyLoop, if_pos (hlt.mpr h), if_pos h, ← ofNat_add_one]
    rfl
  · rw [memcpyLoop, if_neg fun hw => h (hlt.mp hw), if_neg h]
    rfl

theorem memcpyLoop_run (h : CopyInv m dest src n i m') (hup : Upwards dest src n) (hi : i ≤ n)
    (hn : n < 2 ^ 64) : ∃ m'', CopyInv m dest src n n m'' ∧ ∀ fuel, n - i < fuel →
      memcpyLoop dest src (BitVec.ofNat 64 n) fuel (BitVec.ofNat 64 i) m' = .ok () m'' := by
  induction hleft : n - i generalizing i m' with
  | zero =>
    obtain rfl : i = n := by omega
    refine ⟨m', h, fun fuel hfuel => ?_⟩
    obtain ⟨fuel, rfl⟩ := Nat.exists_eq_succ_of_ne_zero (Nat.ne_of_gt hfuel)
    rw [memcpyLoop_succ hn hn, if_neg (Nat.lt_irrefl _)]
  | succ left ih =>
    obtain ⟨m'', hm'', hrun⟩ := ih (h.step hup (by omega) hn) (by omega) (by omega)
    refine ⟨m'', hm'', fun fuel hfuel => ?_⟩
    obtain ⟨fuel, rfl⟩ := Nat.exists_eq_succ_of_ne_zero (Nat.ne_zero_of_lt hfuel)
    rw [memcpyLoop_succ (by omega) hn, if_pos (by omega)]
    exact hrun fuel (by omega)

theorem memcpy_returns (hup : Upwards dest src n) (hn : n < 2 ^ 64) :
    ∃ m', CopyInv m dest src n n m' ∧
      Returns (fun fuel => memcpy fuel dest src (BitVec.ofNat 64 n)) m dest m' := by
  obtain ⟨m', hm', hrun⟩ := memcpyLoop_run .refl hup (Nat.zero_le n) hn
  have hloop : Returns (fun fuel => memcpyLoop dest src (BitVec.ofNat 64 n) fuel 0) m () m' :=
    ⟨n + 1, fun fuel hle => hrun fuel (by omega)⟩
  exact ⟨m', hm', hloop.bind (returns_pure dest m')⟩

theorem upwards_of_disjoint (h : Disjoint (span dest n) (span src n)) (hn : n ≤ 2 ^ 64) :
    Upwards dest src n := by
  intro i k hik hk he
  exact Set.disjoint_left.mp h (add_mem_span (by omega) hn) (he ▸ add_mem_span hk hn)

theorem upwards_of_below (h : ∀ a ∈ span src n, dest < a) (hn : n ≤ 2 ^ 64) :
    Upwards dest src n := by
  intro i k hik hk he
  have hsrc : src + BitVec.ofNat 64 (k - i) = dest := by bv_omega
  have hlt := h _ (add_mem_span (show k - i < n by omega) hn)
  rw [hsrc] at hlt
  exact BitVec.lt_irrefl dest hlt

/-- Two ranges of `2 ^ 64` bytes are the same. -/
theorem length_lt_of_placed (h : m.Holds src (str.bytes ++ [0]))
    (hplace : Disjoint (span dest (str.bytes.length + 1)) (span src (str.bytes.length + 1)) ∨
      ∀ a ∈ span src (str.bytes.length + 1), dest < a) : str.bytes.length + 1 < 2 ^ 64 := by
  have hlt := length_lt h
  by_contra hge
  have hall (a b : Word) : b ∈ span a (str.bytes.length + 1) := by
    have hb := (b - a).isLt
    rw [mem_span]
    omega
  rcases hplace with hdis | hbelow
  · exact Set.disjoint_left.mp hdis (hall dest dest) (hall src dest)
  · exact BitVec.lt_irrefl dest (hbelow dest (hall src dest))

/-- The destination gets the string with its NUL, and no other byte changes. -/
theorem strcpy_copies {m : Mem} {dest src : Word} {str : CString}
    (h : m.Holds src (str.bytes ++ [0]))
    (hplace : Disjoint (span dest (str.bytes.length + 1)) (span src (str.bytes.length + 1)) ∨
      ∀ a ∈ span src (str.bytes.length + 1), dest < a) :
    ∃ m', Returns (fun fuel => strcpy fuel dest src) m dest m' ∧
      m'.Holds dest (str.bytes ++ [0]) ∧
      (∃ len, Returns (fun fuel => strlen fuel src) m len m ∧
        Returns (fun fuel => strlen fuel dest) m' len m') ∧
      Set.EqOn m' m (span dest (str.bytes.length + 1))ᶜ := by
  have hn := length_lt_of_placed h hplace
  have hup : Upwards dest src (str.bytes.length + 1) := by
    rcases hplace with hdis | hbelow
    · exact upwards_of_disjoint hdis (by omega)
    · exact upwards_of_below hbelow (by omega)
  obtain ⟨m', hm', hcpy⟩ := memcpy_returns (m := m) hup hn
  have hheld : m'.Holds dest (str.bytes ++ [0]) := by
    intro i v hv
    have hi := (List.getElem?_eq_some_iff.mp hv).1
    rw [List.length_append, List.length_singleton] at hi
    rw [hm'.copied i hi]
    exact h i v hv
  refine ⟨m', ?_, hheld, ⟨_, strlen_returns h, strlen_returns hheld⟩, hm'.frame⟩
  refine (strlen_returns h).bind ?_
  rw [ofNat_add_one]
  exact hcpy.bind (returns_pure dest m')

/-- `"ok"` at `0x1001`, and a byte behind it. -/
def okMem : Mem := ofBytes 0x1001 [ch 'o', ch 'k', 0, ch 'z']

theorem strcpy_copies_down : ∃ m',
    Returns (fun fuel => strcpy fuel 0x1000 0x1001) okMem 0x1000 m' ∧
    m'.Holds 0x1000 [ch 'o', ch 'k', 0] ∧
    (∃ len, Returns (fun fuel => strlen fuel 0x1001) okMem len okMem ∧
      Returns (fun fuel => strlen fuel 0x1000) m' len m') ∧
    Set.EqOn m' okMem (span 0x1000 3)ᶜ := by
  have hall : okMem.Holds 0x1001 ([ch 'o', ch 'k', 0] ++ [ch 'z']) :=
    holds_ofBytes 0x1001 (by decide)
  have hstr := (holds_append.mp hall).1
  refine @strcpy_copies okMem 0x1000 0x1001 ⟨[ch 'o', ch 'k'], by decide⟩ hstr (Or.inr ?_)
  intro a ha
  rw [mem_span] at ha
  simp only [List.length_cons, List.length_nil] at ha
  bv_omega

end StringC

end SkipOS
