import SkipOS.Strings

/-! `strchr` against the first occurrence of a byte. The bytes of the string are compared as
signed characters, and for NUL the address behind it is returned. -/

namespace SkipOS

open Mem Exec

namespace StringC

/-- `p` points to the first `c` of the string with its NUL, or is NULL where there is none. -/
structure FindsChr {m : Mem} (s : MemString m) (c : Byte) (p : Word) : Prop where
  first : ∀ i, (s.str.bytes ++ [0]).idxOf? c = some i → p = s.addr + BitVec.ofNat 64 i
  null : p = 0 ↔ c ∉ s.str.bytes ++ [0]

/-- What `strchr` returns where no byte before `i` matches. -/
def chrFrom (s : Word) (str : CString) (c : BitVec 32) (i : Nat) : Word :=
  match (str.bytes.drop i).findIdx? fun b => b.signExtend 32 == c with
  | some k => s + BitVec.ofNat 64 (i + k)
  | none => if c = 0 then s + BitVec.ofNat 64 (str.bytes.length + 1) else 0

variable {m : Mem} {a : Word} {str : CString} {c : BitVec 32} {b d : Byte} {s : MemString m}
  {i fuel : Nat}

theorem chrFrom_of_lt (hi : i < str.bytes.length) : chrFrom a str c i =
    if (str.at i).signExtend 32 = c then a + BitVec.ofNat 64 i else chrFrom a str c (i + 1) := by
  rw [chrFrom, List.drop_eq_getElem_cons hi, List.findIdx?_cons, CString.at_eq_getElem hi]
  by_cases hc : str.bytes[i].signExtend 32 = c
  · rw [beq_iff_eq.mpr hc, if_pos rfl, if_pos hc]
    rfl
  · rw [beq_eq_false_iff_ne.mpr hc, if_neg hc, if_neg Bool.false_ne_true, chrFrom]
    cases (str.bytes.drop (i + 1)).findIdx? fun b => b.signExtend 32 == c with
    | none => rfl
    | some k =>
      have hk : i + (k + 1) = i + 1 + k := by omega
      exact congrArg (fun j => a + BitVec.ofNat 64 j) hk

theorem chrFrom_length (a : Word) (str : CString) (c : BitVec 32) :
    chrFrom a str c str.bytes.length =
      if c = 0 then a + BitVec.ofNat 64 (str.bytes.length + 1) else 0 := by
  rw [chrFrom, List.drop_length]
  rfl

theorem strchrLoop_run (h : m.Holds a (str.bytes ++ [0])) (hlen : str.bytes.length < 2 ^ 31 - 1)
    (hi : i ≤ str.bytes.length) (hfuel : str.bytes.length - i < fuel) :
    strchrLoop a c fuel (BitVec.ofNat 32 i) m = .ok (chrFrom a str c i) m := by
  induction fuel generalizing i with
  | zero => exact absurd hfuel (Nat.not_lt_zero _)
  | succ fuel ih =>
    rw [strchrLoop, charPtr_ofNat a (by omega), bind_of_ok (loadChar_apply _ _), char_at h hi]
    rcases Nat.lt_or_eq_of_le hi with hlt | rfl
    · rw [if_pos (char_ne_zero hlt), chrFrom_of_lt hlt]
      by_cases hc : (str.at i).signExtend 32 = c
      · rw [if_pos hc, if_pos hc]
        rfl
      · rw [if_neg hc, if_neg hc, bind_of_ok (incInt_of_lt (by omega) m)]
        exact ih hlt (by omega)
    · rw [if_neg (not_not.mpr (CString.at_eq_zero_iff.mpr (Nat.le_refl _))), chrFrom_length]
      by_cases hc : c = 0
      · rw [if_pos hc, if_pos hc, bind_of_ok (incInt_of_lt (by omega) m),
          charPtr_ofNat a (by omega)]
        rfl
      · rw [if_neg hc, if_neg hc]
        rfl

theorem strchr_returns (h : m.Holds a (str.bytes ++ [0])) (hlen : str.bytes.length < 2 ^ 31 - 1) :
    Returns (fun fuel => strchr fuel a c) m (chrFrom a str c 0) m :=
  ⟨str.bytes.length + 1, fun _ hle => strchrLoop_run h hlen (Nat.zero_le _) (by omega)⟩

/-- A byte above `0x7F` is a negative `char` and equals no value of a byte. -/
theorem signExtend_eq_iff : b.signExtend 32 = d.setWidth 32 ↔ b = d ∧ d.toNat < 128 := by
  have hb := b.isLt
  have hd := d.isLt
  have hs : (b.signExtend 32).toInt = b.toInt := BitVec.toInt_signExtend_of_le (by decide)
  have hz : (d.setWidth 32).toInt = d.toNat := by
    rw [BitVec.toInt_eq_toNat_of_lt, BitVec.toNat_setWidth_of_le (by decide)]
    rw [BitVec.toNat_setWidth_of_le (by decide)]
    omega
  rw [← BitVec.toInt_inj, hs, hz, BitVec.toInt_eq_toNat_cond, ← BitVec.toNat_inj]
  split <;> omega

theorem setWidth_eq_zero_iff : d.setWidth 32 = 0 ↔ d = 0 := by
  rw [← BitVec.toNat_inj, ← BitVec.toNat_inj, BitVec.toNat_setWidth_of_le (by decide)]
  rfl

theorem charAddr_ne_zero (s : MemString m) (hi : i ≤ s.str.bytes.length) :
    s.addr + BitVec.ofNat 64 i ≠ 0 := by
  have hwrap := s.noWrap
  have hnull := s.notNull
  bv_omega

theorem chrFrom_low (hd : d ≠ 0) (hlow : d.toNat < 128) : chrFrom a str (d.setWidth 32) 0 =
    match str.bytes.idxOf? d with
    | some k => a + BitVec.ofNat 64 k
    | none => 0 := by
  have hp : (fun b : Byte => b.signExtend 32 == d.setWidth 32) = fun b => b == d := by
    funext b
    rw [Bool.eq_iff_iff, beq_iff_eq, beq_iff_eq, signExtend_eq_iff, and_iff_left hlow]
  rw [chrFrom, hp, List.drop_zero, if_neg fun h => hd (setWidth_eq_zero_iff.mp h), List.idxOf?]
  cases str.bytes.findIdx? fun b => b == d with
  | none => rfl
  | some k => exact congrArg (fun j => a + BitVec.ofNat 64 j) (Nat.zero_add k)

theorem chrFrom_unmatched (h : ∀ b ∈ str.bytes, ¬ (b = d ∧ d.toNat < 128)) :
    chrFrom a str (d.setWidth 32) 0 =
      if d = 0 then a + BitVec.ofNat 64 (str.bytes.length + 1) else 0 := by
  have hnone : (str.bytes.drop 0).findIdx? (fun b => b.signExtend 32 == d.setWidth 32) = none := by
    rw [List.findIdx?_eq_none_iff]
    intro b hb
    rw [beq_eq_false_iff_ne, Ne, signExtend_eq_iff]
    exact h b hb
  rw [chrFrom, hnone]
  exact if_congr setWidth_eq_zero_iff rfl rfl

theorem mem_concat_nul (hd : d ≠ 0) : d ∈ str.bytes ++ [0] ↔ d ∈ str.bytes := by
  rw [List.mem_append, List.mem_singleton, or_iff_left hd]

theorem findsChr_low (hd : d ≠ 0) (hlow : d.toNat < 128) :
    FindsChr s d (chrFrom s.addr s.str (d.setWidth 32) 0) := by
  have hidx : (s.str.bytes ++ [0]).idxOf? d = s.str.bytes.idxOf? d := by
    have hnul : [(0 : Byte)].findIdx? (fun b => b == d) = none := by
      rw [List.findIdx?_singleton, if_neg (by simpa using hd.symm)]
    rw [List.idxOf?, List.findIdx?_append, hnul]
    exact Option.or_none
  rw [chrFrom_low hd hlow]
  constructor
  · intro i hi
    rw [← hidx, hi]
  · rw [mem_concat_nul hd, ← List.idxOf?_eq_none_iff]
    cases h : s.str.bytes.idxOf? d with
    | none => exact iff_of_true rfl rfl
    | some k =>
      have hk : k < s.str.bytes.length := (List.findIdx?_eq_some_iff_getElem.mp h).1
      exact iff_of_false (charAddr_ne_zero s (Nat.le_of_lt hk)) (by simp)

theorem findsChr_absent (hd : d ≠ 0) (h : d ∉ s.str.bytes) :
    FindsChr s d (chrFrom s.addr s.str (d.setWidth 32) 0) := by
  have hmem : d ∉ s.str.bytes ++ [0] := fun hm => h ((mem_concat_nul hd).mp hm)
  rw [chrFrom_unmatched (by rintro b hb ⟨rfl, -⟩; exact h hb), if_neg hd]
  refine ⟨fun i hi => ?_, iff_of_true rfl hmem⟩
  rw [List.idxOf?_eq_none_iff.mpr hmem] at hi
  simp at hi

theorem not_findsChr_nul (s : MemString m) :
    ¬ FindsChr s 0 (chrFrom s.addr s.str ((0 : Byte).setWidth 32) 0) := by
  intro h
  have hfirst : (s.str.bytes ++ [0]).idxOf? 0 = some s.str.bytes.length := by
    have hnone : s.str.bytes.findIdx? (fun b => b == 0) = none :=
      List.idxOf?_eq_none_iff.mpr s.str.noNul
    rw [List.idxOf?, List.findIdx?_append, hnone]
    exact congrArg some (Nat.zero_add _)
  have hp := h.first _ hfirst
  rw [chrFrom_unmatched (by rintro b hb ⟨rfl, -⟩; exact s.str.noNul hb), if_pos rfl] at hp
  bv_omega

theorem not_findsChr_high (hhigh : 128 ≤ d.toNat) (h : d ∈ s.str.bytes) :
    ¬ FindsChr s d (chrFrom s.addr s.str (d.setWidth 32) 0) := by
  intro hf
  have hd : d ≠ 0 := by
    rintro rfl
    exact absurd hhigh (by decide)
  rw [chrFrom_unmatched (fun b _ hb => Nat.not_lt_of_le hhigh hb.2), if_neg hd] at hf
  exact hf.null.mp rfl (List.mem_append_left _ h)

/-- `strchr` finds a byte just when it is not NUL and, where the string has it, no negative
`char`. -/
theorem strchr_finds_iff {m : Mem} (s : MemString m) (d : Byte)
    (hlen : s.str.bytes.length < 2 ^ 31 - 1) :
    (∃ p, Returns (fun fuel => strchr fuel s.addr (d.setWidth 32)) m p m ∧ FindsChr s d p) ↔
      d ≠ 0 ∧ (d.toNat < 128 ∨ d ∉ s.str.bytes) := by
  have hret := strchr_returns (c := d.setWidth 32) s.held hlen
  have hiff : (∃ p, Returns (fun fuel => strchr fuel s.addr (d.setWidth 32)) m p m ∧
      FindsChr s d p) ↔ FindsChr s d (chrFrom s.addr s.str (d.setWidth 32) 0) := by
    constructor
    · rintro ⟨p, hp, hfinds⟩
      rwa [(hret.unique hp).1]
    · exact fun hfinds => ⟨_, hret, hfinds⟩
  rw [hiff]
  constructor
  · intro hfinds
    refine ⟨?_, ?_⟩
    · rintro rfl
      exact not_findsChr_nul s hfinds
    · by_contra hcond
      obtain ⟨hhigh, hmem⟩ : ¬ d.toNat < 128 ∧ d ∈ s.str.bytes := by simpa using hcond
      exact not_findsChr_high (Nat.le_of_not_lt hhigh) hmem hfinds
  · rintro ⟨hd, hlow | habsent⟩
    · exact findsChr_low hd hlow
    · exact findsChr_absent hd habsent

def testText : CString := ⟨['t', 'e', 's', 't'].map ch, by decide⟩

def testString : MemString (ofBytes 0x1000 (testText.bytes ++ [0])) :=
  ⟨0x1000, testText, by decide, by decide, holds_ofBytes _ (by decide)⟩

theorem strchr_finds_t :
    ∃ p, Returns (fun fuel => strchr fuel 0x1000 0x74) (ofBytes 0x1000 (testText.bytes ++ [0])) p
      (ofBytes 0x1000 (testText.bytes ++ [0])) ∧ FindsChr testString (ch 't') p :=
  (strchr_finds_iff testString (ch 't') (by decide)).mpr (by decide)

/-- `strchr("test", '\0')` is behind the string. -/
theorem strchr_passes_nul : testString.str.bytes.length < 2 ^ 31 - 1 ∧
    Returns (fun fuel => strchr fuel 0x1000 0) (ofBytes 0x1000 (testText.bytes ++ [0])) 0x1005
      (ofBytes 0x1000 (testText.bytes ++ [0])) ∧ ¬ FindsChr testString 0 0x1005 := by
  have hret := strchr_returns (c := (0 : Byte).setWidth 32) testString.held (by decide)
  exact ⟨by decide, hret, not_findsChr_nul testString⟩

end StringC

end SkipOS
