import SkipOS.Lib.Frame
import SkipOS.Lib.Walk
import SkipOS.VpAlloc

/-! The page tables as a tree: what a present entry points to, which paths of indices
lead to frames, and `get_lowest_present_page` as a walk along such a path. -/

namespace SkipOS

open Mem Exec Walk

/-- The table or frame that entry `i` of table `t` points to, if it is present. -/
def child (m : Mem) (t i : Word) : Option Word :=
  let entry := m.load64 (entryPtr t i)
  if isNextPagePresent entry then some (entry &&& ~~~0xFFF) else none

/-- The four table indices of an address, L4 first. -/
def pathOf (va : Word) : List Word :=
  [(va >>> 39) &&& 0x1FF, (va >>> 30) &&& 0x1FF, (va >>> 21) &&& 0x1FF, (va >>> 12) &&& 0x1FF]

/-- The path to the L1 table of an address. -/
def tablePath (va : Word) : List Word :=
  [(va >>> 39) &&& 0x1FF, (va >>> 30) &&& 0x1FF, (va >>> 21) &&& 0x1FF]

def l1Index (va : Word) : Word := (va >>> 12) &&& 0x1FF

/-- Paths that end at a table or at the frame of a 4 KiB page. Entry 0 of the L4 table
leads to the identity table, which has neither below it. -/
def Paths : Set (List Word) :=
  {p | p.length ≤ 4 ∧ (∀ i ∈ p, i < 512) ∧ (p.head? = some 0 → p.length ≤ 1)}

/-- The bits of an entry that this allocator uses. -/
def flags (entry : Word) : Word := entry &&& 0x203

/-- The entry where the walk stops, the number of indices from it on, and the entry before. -/
def descend (m : Mem) : Word → List Word → Option Word → Word × Nat × Option Word
  | t, [], prev => (t, 0, prev)
  | t, i :: p, prev =>
    match child m t i with
    | none => (entryPtr t i, p.length + 1, prev)
    | some n => descend m n p (some (entryPtr t i))

def levelOf : Nat → PtLevel
  | 0 => .physical
  | 1 => .l1
  | 2 => .l2
  | 3 => .l3
  | _ => .l4

variable {m m' : Mem} {t f i j va vb e : Word} {p q rest : List Word} {s : Machine}
  {prev : Option Word} {pt : PageTable}

theorem prefixClosed_paths : PrefixClosed Paths := by
  rintro p q ⟨hlen, hlt, hhead⟩
  rw [List.length_append] at hlen
  refine ⟨by omega, fun i hi => hlt i (List.mem_append_left _ hi), fun h => ?_⟩
  have hh : (p ++ q).head? = some 0 := by simp [h]
  have := hhead hh
  rw [List.length_append] at this
  omega

theorem nil_mem_paths : [] ∈ Paths := by simp [Paths]

theorem zero_mem_paths : [0] ∈ Paths := ⟨by simp, by simp, by simp⟩

theorem index_lt_of_mem_paths (h : p ++ [i] ∈ Paths) : i < 512 := h.2.1 i (by simp)

theorem index_toNat (v : Word) (k : Nat) :
    ((v >>> k) &&& 0x1FF).toNat = v.toNat / 2 ^ k % 512 := by
  have hm : (0x1FF : Word).toNat = 2 ^ 9 - 1 := rfl
  rw [BitVec.toNat_and, hm, Nat.and_two_pow_sub_one_eq_mod, BitVec.toNat_ushiftRight,
    Nat.shiftRight_eq_div_pow]

theorem index_lt (v : Word) (k : Nat) : (v >>> k) &&& 0x1FF < 512 := by
  rw [BitVec.lt_def, index_toNat]
  exact Nat.mod_lt _ (by decide)

theorem l1Index_lt (va : Word) : l1Index va < 512 := index_lt va 12

theorem index_eq_zero_iff (v : Word) (k : Nat) :
    (v >>> k) &&& 0x1FF = 0 ↔ v.toNat / 2 ^ k % 512 = 0 := by
  rw [← index_toNat]
  constructor
  · intro h
    rw [h]
    rfl
  · exact fun h => BitVec.eq_of_toNat_eq h

theorem l4Index_eq_zero : (va >>> 39) &&& 0x1FF = 0 ↔ va.toNat / 2 ^ 39 % 512 = 0 :=
  index_eq_zero_iff va 39

theorem pathOf_mem_paths (h : (va >>> 39) &&& 0x1FF ≠ 0) : pathOf va ∈ Paths := by
  refine ⟨by simp [pathOf], ?_, ?_⟩
  · intro i hi
    simp only [pathOf, List.mem_cons, List.not_mem_nil, or_false] at hi
    rcases hi with rfl | rfl | rfl | rfl <;> exact index_lt _ _
  · intro hh
    exact absurd (by simpa [pathOf] using hh) h

theorem pathOf_injOn (ha : va.toNat % 4096 = 0) (hb : vb.toNat % 4096 = 0)
    (hla : va.toNat < 2 ^ 48) (hlb : vb.toNat < 2 ^ 48) (h : pathOf va = pathOf vb) : va = vb := by
  simp only [pathOf, List.cons.injEq, and_true] at h
  obtain ⟨h4, h3, h2, h1⟩ := h
  have e4 := congrArg BitVec.toNat h4
  have e3 := congrArg BitVec.toNat h3
  have e2 := congrArg BitVec.toNat h2
  have e1 := congrArg BitVec.toNat h1
  simp only [index_toNat] at e4 e3 e2 e1
  apply BitVec.eq_of_toNat_eq
  omega

/-! Entries. -/

theorem isSlot_entry (hi : i < 512) : IsSlot (8 * i) := by
  rw [IsSlot]
  bv_omega

theorem entry_slot_ne (hi : i < 512) (hj : j < 512) (h : i ≠ j) : 8 * i ≠ 8 * j := by
  bv_omega

theorem entryPtr_disjoint (ht : Aligned t) (hi : i < 512) (hj : j < 512) (h : i ≠ j) :
    Disjoint (span (entryPtr t i) 8) (span (entryPtr t j) 8) :=
  disjoint_slot ht ht (isSlot_entry hi) (isSlot_entry hj) (Or.inr (entry_slot_ne hi hj h))

theorem mask_eq_zero_of_aligned (h : Aligned f) : f &&& 0xFFF = 0 := by
  apply BitVec.eq_of_toNat_eq
  have hm : (0xFFF : Word).toNat = 2 ^ 12 - 1 := rfl
  rw [BitVec.toNat_and, hm, Nat.and_two_pow_sub_one_eq_mod]
  exact h

theorem frame_of_aligned (h : Aligned f) : f &&& ~~~0xFFF = f := by
  have hz := mask_eq_zero_of_aligned h
  have hs : f &&& 0xFFF ||| f &&& ~~~0xFFF = f := by
    rw [← BitVec.and_or_distrib_left, BitVec.or_not_self]
    exact BitVec.and_allOnes
  rw [hz] at hs
  exact BitVec.zero_or.symm.trans hs

theorem flags_of_aligned (h : Aligned f) : flags f = 0 := by
  have hz := mask_eq_zero_of_aligned h
  have hm : (0x203 : Word) = 0xFFF &&& 0x203 := by decide
  rw [flags, hm, ← BitVec.and_assoc, hz]
  exact BitVec.zero_and

theorem present_iff_flags : isNextPagePresent e = true ↔ flags e &&& 1 ≠ 0 := by
  simp [isNextPagePresent, presentMask, flags, BitVec.and_assoc]

theorem demand_eq_flags : e &&& demandMask = flags e &&& 0x200 := by
  have hm : (0x203 : Word) &&& 0x200 = demandMask := by decide
  rw [flags, BitVec.and_assoc, hm]

theorem present_writeable_eq_flags : e &&& (presentMask ||| writeableMask) = flags e &&& 3 := by
  have hm : (0x203 : Word) &&& 3 = presentMask ||| writeableMask := by decide
  rw [flags, BitVec.and_assoc, hm]

theorem flags_or (e v : Word) : flags (e ||| v) = flags e ||| flags v := BitVec.and_or_distrib_right

theorem flags_and (e v : Word) : flags (e &&& v) = flags e &&& v := by
  simp only [flags, BitVec.and_assoc, BitVec.and_comm v]

theorem flags_linked (h : Aligned f) : flags (f ||| (writeableMask ||| presentMask)) = 3 := by
  rw [flags_or, flags_of_aligned h]
  decide

theorem frame_linked (h : Aligned f) :
    (f ||| (writeableMask ||| presentMask)) &&& ~~~0xFFF = f := by
  have hm : (writeableMask ||| presentMask) &&& ~~~0xFFF = 0 := by decide
  rw [BitVec.and_or_distrib_right, frame_of_aligned h, hm]
  exact BitVec.or_zero

theorem child_of_present (h : isNextPagePresent (m.load64 (entryPtr t i)) = true) :
    child m t i = some (m.load64 (entryPtr t i) &&& ~~~0xFFF) := by
  simp [child, h]

theorem child_eq_none_iff : child m t i = none ↔
    isNextPagePresent (m.load64 (entryPtr t i)) = false := by
  simp [child]

theorem child_eq_some_iff {n : Word} : child m t i = some n ↔
    isNextPagePresent (m.load64 (entryPtr t i)) = true ∧
      m.load64 (entryPtr t i) &&& ~~~0xFFF = n := by
  simp [child]

theorem child_congr (h : m'.load64 (entryPtr t i) = m.load64 (entryPtr t i)) :
    child m' t i = child m t i := by
  rw [child, h, child]

theorem child_linked (hf : Aligned f)
    (h : m.load64 (entryPtr t i) = f ||| (writeableMask ||| presentMask)) :
    child m t i = some f := by
  have hp : isNextPagePresent (m.load64 (entryPtr t i)) = true := by
    rw [present_iff_flags, h, flags_linked hf]
    decide
  rw [child_of_present hp, h, frame_linked hf]

/-! The software walk. -/

theorem descend_of_walk {n k : Word} (h : walk (child m) t (q ++ [i]) = some n)
    (hk : walk (child m) t q = some k) :
    descend m t (q ++ [i]) prev = (n, 0, some (entryPtr k i)) := by
  induction q generalizing t prev with
  | nil =>
    obtain rfl : t = k := Option.some.inj hk
    rw [walk_snoc_of_some hk] at h
    simp [descend, h]
  | cons j q ih =>
    obtain ⟨c, hc, hw⟩ := Option.bind_eq_some_iff.mp h
    have hk' : walk (child m) c q = some k := by simpa [walk, hc] using hk
    simp only [List.cons_append, descend, hc]
    exact ih hw hk'

theorem descend_of_missing {k : Word} (hk : walk (child m) t q = some k) (hi : child m k i = none) :
    ∃ prev', descend m t (q ++ i :: rest) prev = (entryPtr k i, rest.length + 1, prev') := by
  induction q generalizing t prev with
  | nil =>
    obtain rfl : t = k := Option.some.inj hk
    exact ⟨prev, by simp [descend, hi]⟩
  | cons j q ih =>
    obtain ⟨c, hc, hw⟩ := Option.bind_eq_some_iff.mp hk
    simp only [List.cons_append, descend, hc]
    exact ih hw

theorem getLowestPresentPage_eq (ha : va % pageSize = 0) (h0 : (va >>> 39) &&& 0x1FF ≠ 0) :
    getLowestPresentPage pt va prev s =
      .ok ((descend s.mem pt.l4Table (pathOf va) prev).1,
        levelOf (descend s.mem pt.l4Table (pathOf va) prev).2.1,
        (descend s.mem pt.l4Table (pathOf va) prev).2.2) s := by
  simp only [getLowestPresentPage, bind_assert_of ha, if_neg h0, bind_get, pathOf, descend, child]
  generalize (va >>> 39) &&& 0x1FF = i4
  generalize (va >>> 30) &&& 0x1FF = i3
  generalize (va >>> 21) &&& 0x1FF = i2
  generalize (va >>> 12) &&& 0x1FF = i1
  by_cases h4 : isNextPagePresent (s.mem.load64 (entryPtr pt.l4Table i4)) = true
  · simp only [h4, if_true, not_true_eq_false, if_false]
    generalize s.mem.load64 (entryPtr pt.l4Table i4) &&& ~~~0xFFF = t3
    by_cases h3 : isNextPagePresent (s.mem.load64 (entryPtr t3 i3)) = true
    · simp only [h3, if_true, not_true_eq_false, if_false]
      generalize s.mem.load64 (entryPtr t3 i3) &&& ~~~0xFFF = t2
      by_cases h2 : isNextPagePresent (s.mem.load64 (entryPtr t2 i2)) = true
      · simp only [h2, if_true, not_true_eq_false, if_false]
        generalize s.mem.load64 (entryPtr t2 i2) &&& ~~~0xFFF = t1
        by_cases h1 : isNextPagePresent (s.mem.load64 (entryPtr t1 i1)) = true
        · simp [h1, levelOf]
        · simp [h1, levelOf]
      · simp [h2, levelOf]
    · simp [h3, levelOf]
  · simp [h4, levelOf]

theorem pathOf_eq (va : Word) : pathOf va = tablePath va ++ [l1Index va] := rfl

/-- On a mapped page the walk ends at its frame and remembers the L1 entry. -/
theorem getLowestPresentPage_of_mapped (ha : va % pageSize = 0) (h0 : (va >>> 39) &&& 0x1FF ≠ 0)
    (ht : walk (child s.mem) pt.l4Table (tablePath va) = some t)
    (hf : child s.mem t (l1Index va) = some f) :
    getLowestPresentPage pt va prev s =
      .ok (f, .physical, some (entryPtr t (l1Index va))) s := by
  have hw : walk (child s.mem) pt.l4Table (tablePath va ++ [l1Index va]) = some f := by
    rw [walk_snoc_of_some ht, hf]
  rw [getLowestPresentPage_eq ha h0, pathOf_eq, descend_of_walk hw ht]
  rfl

/-- Otherwise the walk ends at the first entry that is not present. -/
theorem getLowestPresentPage_of_missing (ha : va % pageSize = 0) (h0 : (va >>> 39) &&& 0x1FF ≠ 0)
    (hp : pathOf va = q ++ i :: rest) (hq : walk (child s.mem) pt.l4Table q = some t)
    (hi : child s.mem t i = none) :
    ∃ prev', getLowestPresentPage pt va prev s =
      .ok (entryPtr t i, levelOf (rest.length + 1), prev') s := by
  obtain ⟨prev', hd⟩ := descend_of_missing hq hi
  exact ⟨prev', by rw [getLowestPresentPage_eq ha h0, hp, hd]⟩

theorem getLowestPresentPage_of_identity (ha : va % pageSize = 0) (h0 : (va >>> 39) &&& 0x1FF = 0) :
    getLowestPresentPage pt va prev s = .ok (va, .physical, prev) s := by
  rw [getLowestPresentPage, bind_assert_of ha]
  simp only [if_pos h0, pure_apply]

theorem eq_nil_of_levelOf (h : levelOf (rest.length + 1) = .l1) : rest = [] := by
  cases rest with
  | nil => rfl
  | cons j rest =>
    rcases hn : rest.length with _ | _ | n <;> simp [levelOf, hn] at h

end SkipOS
