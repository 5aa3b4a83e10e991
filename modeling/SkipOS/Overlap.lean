import SkipOS.Strcpy

/-! `memcpy` between ranges in any position, and what that makes of a string that `strcpy` copies
onto a part of itself. -/

namespace SkipOS

open Mem Exec

namespace StringC

/-- Memory after `n` bytes. From the distance of the two ranges on, what is read was written
by the same call. -/
def copied (m : Mem) (dest src : Word) (n : Nat) : Mem := fun a =>
  if (a - dest).toNat < n then m (src + BitVec.ofNat 64 ((a - dest).toNat % (dest - src).toNat))
  else m a

variable {m : Mem} {dest src : Word} {n i fuel : Nat} {str : CString}

theorem copied_at (hi : i < n) (hn : n ≤ 2 ^ 64) :
    copied m dest src n (dest + BitVec.ofNat 64 i) =
      m (src + BitVec.ofNat 64 (i % (dest - src).toNat)) := by
  have hsub : (dest + BitVec.ofNat 64 i - dest).toNat = i := by
    rw [BitVec.add_comm, BitVec.add_sub_cancel, toNat_ofNat_of_lt (by omega)]
  rw [copied, hsub, if_pos hi]

/-- The byte that is read next. -/
theorem copied_source (hi : i < 2 ^ 64) : copied m dest src i (src + BitVec.ofNat 64 i) =
    m (src + BitVec.ofNat 64 (i % (dest - src).toNat)) := by
  have hd := (dest - src).isLt
  by_cases hback : 0 < (dest - src).toNat ∧ (dest - src).toNat ≤ i
  · have hsub : (src + BitVec.ofNat 64 i - dest).toNat = i - (dest - src).toNat := by bv_omega
    rw [copied, hsub, if_pos (by omega), ← Nat.mod_eq_sub_mod hback.2]
  · have hout : ¬ (src + BitVec.ofNat 64 i - dest).toNat < i := by bv_omega
    have hmod : i % (dest - src).toNat = i := by
      rcases Nat.eq_zero_or_pos (dest - src).toNat with hzero | hpos
      · rw [hzero, Nat.mod_zero]
      · exact Nat.mod_eq_of_lt (by omega)
    rw [copied, if_neg hout, hmod]

theorem copied_succ (hi : i < 2 ^ 64) : (copied m dest src i).storeByte (dest + BitVec.ofNat 64 i)
    (copied m dest src i (src + BitVec.ofNat 64 i)) = copied m dest src (i + 1) := by
  rw [copied_source hi]
  funext a
  by_cases ha : a = dest + BitVec.ofNat 64 i
  · rw [storeByte, if_pos ha, ha, copied_at (Nat.lt_succ_self i) (by omega)]
  · have hne : (a - dest).toNat ≠ i := by
      intro he
      apply ha
      bv_omega
    have hiff : (a - dest).toNat < i ↔ (a - dest).toNat < i + 1 := by omega
    rw [storeByte, if_neg ha, copied, copied, if_congr hiff rfl rfl]

theorem memcpyLoop_copied (hi : i ≤ n) (hn : n < 2 ^ 64) (hfuel : n - i < fuel) :
    memcpyLoop dest src (BitVec.ofNat 64 n) fuel (BitVec.ofNat 64 i) (copied m dest src i) =
      .ok () (copied m dest src n) := by
  induction fuel generalizing i with
  | zero => exact absurd hfuel (Nat.not_lt_zero _)
  | succ fuel ih =>
    rw [memcpyLoop_succ (by omega) hn]
    rcases Nat.lt_or_eq_of_le hi with hlt | rfl
    · rw [if_pos hlt, copied_succ (by omega)]
      exact ih hlt (by omega)
    · rw [if_neg (Nat.lt_irrefl _)]

theorem memcpy_copied (hn : n < 2 ^ 64) :
    Returns (fun fuel => memcpy fuel dest src (BitVec.ofNat 64 n)) m dest
      (copied m dest src n) := by
  have hzero : copied m dest src 0 = m := funext fun a => if_neg (Nat.not_lt_zero _)
  have hloop : Returns (fun fuel => memcpyLoop dest src (BitVec.ofNat 64 n) fuel 0) m ()
      (copied m dest src n) := by
    refine ⟨n + 1, fun fuel hle => ?_⟩
    have hrun : memcpyLoop dest src (BitVec.ofNat 64 n) fuel (BitVec.ofNat 64 0)
        (copied m dest src 0) = .ok () (copied m dest src n) :=
      memcpyLoop_copied (Nat.zero_le n) hn (by omega)
    rwa [hzero] at hrun
  exact hloop.bind (returns_pure dest _)

/-- A copy that begins inside the string repeats the bytes before, none of which is NUL. -/
theorem copied_ne_zero (h : m.Holds src (str.bytes ++ [0])) (hlen : str.bytes.length + 1 < 2 ^ 64)
    (hne : dest ≠ src) (hin : (dest - src).toNat ≤ str.bytes.length)
    (hi : i ≤ str.bytes.length) :
    copied m dest src (str.bytes.length + 1) (dest + BitVec.ofNat 64 i) ≠ 0 := by
  have hpos : 0 < (dest - src).toNat := by bv_omega
  have hmod := Nat.mod_lt i hpos
  rw [copied_at (by omega) (by omega), char_at h (by omega)]
  exact char_ne_zero (by omega)

theorem copied_holds (h : m.Holds src (str.bytes ++ [0])) (hlen : str.bytes.length + 1 < 2 ^ 64)
    (hout : dest = src ∨ str.bytes.length < (dest - src).toNat) :
    (copied m dest src (str.bytes.length + 1)).Holds dest (str.bytes ++ [0]) := by
  intro i v hv
  have hi := (List.getElem?_eq_some_iff.mp hv).1
  rw [List.length_append, List.length_singleton] at hi
  have hmod : i % (dest - src).toNat = i := by
    rcases hout with rfl | hout
    · rw [BitVec.sub_self]
      exact Nat.mod_zero i
    · exact Nat.mod_eq_of_lt (by omega)
  rw [copied_at hi (by omega), hmod]
  exact h i v hv

/-- Wherever the ranges lie `strcpy` returns, and the string is copied exactly if the destination is
the source or does not begin inside of it; else there is no NUL in the copy. -/
theorem strcpy_exact (h : m.Holds src (str.bytes ++ [0]))
    (hlen : str.bytes.length + 1 < 2 ^ 64) :
    ∃ m', Returns (fun fuel => strcpy fuel dest src) m dest m' ∧
      (m'.Holds dest (str.bytes ++ [0]) ↔ dest = src ∨ str.bytes.length < (dest - src).toNat) ∧
      (¬ (dest = src ∨ str.bytes.length < (dest - src).toNat) →
        ∀ i ≤ str.bytes.length, m' (dest + BitVec.ofNat 64 i) ≠ 0) ∧
      Set.EqOn m' m (span dest (str.bytes.length + 1))ᶜ := by
  have hno : ¬ (dest = src ∨ str.bytes.length < (dest - src).toNat) → ∀ i ≤ str.bytes.length,
      copied m dest src (str.bytes.length + 1) (dest + BitVec.ofNat 64 i) ≠ 0 := by
    intro hin i hi
    obtain ⟨hne, hle⟩ := not_or.mp hin
    exact copied_ne_zero h hlen hne (Nat.not_lt.mp hle) hi
  refine ⟨copied m dest src (str.bytes.length + 1), ?_,
    ⟨fun hheld => ?_, copied_holds h hlen⟩, hno, fun a ha => if_neg ha⟩
  · refine (strlen_returns h).bind ?_
    rw [ofNat_add_one]
    exact (memcpy_copied hlen).bind (returns_pure dest _)
  · by_contra hin
    -- the NUL of the string would have to be there
    have hend := char_at hheld (Nat.le_refl _)
    rw [CString.at_eq_zero_iff.mpr (Nat.le_refl _)] at hend
    exact hno hin _ (Nat.le_refl _) hend

/-- One byte upwards the first byte of the string fills the copy. -/
theorem strcpy_exact_up : ∃ m', Returns (fun fuel => strcpy fuel 0x1002 0x1001) okMem 0x1002 m' ∧
    ¬ m'.Holds 0x1002 [ch 'o', ch 'k', 0] := by
  have hall : okMem.Holds 0x1001 ([ch 'o', ch 'k', 0] ++ [ch 'z']) :=
    holds_ofBytes 0x1001 (by decide)
  have hstr := (holds_append.mp hall).1
  obtain ⟨m', hrun, hheld, -⟩ :=
    @strcpy_exact okMem 0x1002 0x1001 ⟨[ch 'o', ch 'k'], by decide⟩ hstr (by decide)
  exact ⟨m', hrun, fun hm => absurd (hheld.mp hm) (by decide)⟩

end StringC

end SkipOS
