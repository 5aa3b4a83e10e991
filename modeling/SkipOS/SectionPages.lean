import SkipOS.BootReads
import SkipOS.PoolRun

/-! The pages handed out and the sections of the kernel. The allocator takes its start from the
section listed last. -/

namespace SkipOS

open Mem Exec

variable {m m₁ m₂ m' : Mem} {fuel : Nat} {mbTagsPtr size p q base s : Word} {n : Nat}
  {info : BootInfo} {out : List Word} {mmapInfo : MmapInfo}

/-- `&sec_head_ent_arr[i]` -/
def ElfInfo.secHeadEnt (elfInfo : ElfInfo) (i : Nat) : Word :=
  elfInfo.secHeadEntArr + sizeofSecHeadEnt * BitVec.ofNat 64 i

/-- The bytes of the section that a header lists. -/
def sectionBytes (m : Mem) (s : Word) : Set Word := span (secHeadAddr m s) (secHeadSize m s).toNat

/-- A region of the memory map. -/
def regionBytes (m : Mem) (ent : Word) : Set Word :=
  span (memInfoBase m ent) (memInfoLength m ent).toNat

/-- What the boot loader promises: no section wraps, those that are not empty lie in the upper
region or above it, and the two usable regions do not meet. -/
structure LoaderLaw (m : Mem) (info : BootInfo) : Prop where
  noWrap : ∀ i < info.elf.elfTag.numSecHeadEnts.toNat,
    (secHeadAddr m (info.elf.secHeadEnt i)).toNat +
      (secHeadSize m (info.elf.secHeadEnt i)).toNat < 2 ^ 64
  above : ∀ i < info.elf.elfTag.numSecHeadEnts.toNat,
    secHeadSize m (info.elf.secHeadEnt i) ≠ 0 →
      (memInfoBase m info.upper).toNat ≤ (secHeadAddr m (info.elf.secHeadEnt i)).toNat
  regions : Disjoint (regionBytes m info.lower) (regionBytes m info.upper)

/-- The range from the end of the last section to the end of the upper region, as
`init_ll_head_info` reads it in `m₁`, starts above the lower pages, does not run backwards and
meets no section. -/
structure RangeClear (m m₁ : Mem) (info : BootInfo) : Prop where
  upper_ne : memInfoLength m info.upper ≠ 0
  aboveLower : (lowerLengthOf m info.lower).toNat ≤ (upperStart m₁ info.elf).toNat
  ordered : (upperStart m₁ info.elf).toNat ≤ (upperEnd m₁ info.upper).toNat
  clear : ∀ i < info.elf.elfTag.numSecHeadEnts.toNat,
    Disjoint (span (upperStart m₁ info.elf)
      (upperEnd m₁ info.upper - upperStart m₁ info.elf).toNat)
      (sectionBytes m (info.elf.secHeadEnt i))

theorem mem_pagesFrom : p ∈ pagesFrom base n ↔ ∃ k < n, p = base + BitVec.ofNat 64 (4096 * k) := by
  rw [List.mem_iff_getElem?]
  constructor
  · rintro ⟨k, hk⟩
    obtain ⟨hlt, -⟩ := List.getElem?_eq_some_iff.mp hk
    rw [length_pagesFrom] at hlt
    rw [pagesFrom_getElem? base hlt, Option.some_inj] at hk
    exact ⟨k, hlt, hk.symm⟩
  · rintro ⟨k, hk, rfl⟩
    exact ⟨k, pagesFrom_getElem? base hk⟩

theorem frame_subset_of_mem_pagesFrom (h : 4096 * n < 2 ^ 64) (hp : p ∈ pagesFrom base n) :
    frame p ⊆ span base (4096 * n) := by
  obtain ⟨k, hk, rfl⟩ := mem_pagesFrom.mp hp
  refine span_offset_subset ?_
  rw [toNat_ofNat_of_lt (by omega)]
  omega

theorem toNat_le_of_mem_pagesFrom (h : base.toNat + 4096 * n ≤ 2 ^ 64) (hp : p ∈ pagesFrom base n) :
    p.toNat + 4096 ≤ base.toNat + 4096 * n := by
  obtain ⟨k, hk, rfl⟩ := mem_pagesFrom.mp hp
  have hb := base.isLt
  rw [BitVec.toNat_add, BitVec.toNat_ofNat]
  omega

theorem toNat_le_of_mem_lowerPages {lowerLength : Word} (h : 4096 ≤ lowerLength.toNat)
    (hp : p ∈ lowerPages lowerLength) : p.toNat + 4096 ≤ lowerLength.toNat := by
  have hps : pageSize.toNat = 4096 := rfl
  have hl := lowerLength.isLt
  have hle := toNat_le_of_mem_pagesFrom (by omega) hp
  omega

theorem addLowerPages_length
    (hlinks : addLowerPages 0 0 (lowerLengthOf m info.lower) (initLlHead 0 m) = .ok () m₁) :
    4096 ≤ (lowerLengthOf m info.lower).toNat :=
  (addLowerPages_spec (roundDownNearestMult_aligned _) (initLlHead_ring _) hlinks).2.2.2.1

/-- The entry taken as the lower region starts at address 0. -/
theorem scan_lower_base {ent cnt lower : Word} {ret : UsableMemInfoPtrs}
    (hret : ∀ e, ret.lower = some e → memInfoBase m e = 0)
    (h : (scanMemInfoEntries m n ent cnt ret).2.lower = some lower) : memInfoBase m lower = 0 := by
  induction n generalizing ent cnt ret with
  | zero => exact hret lower h
  | succ n ih =>
    rw [scanMemInfoEntries] at h
    by_cases htype : memInfoType m ent = validMemInfoEntType
    · rw [if_pos htype] at h
      by_cases hbase : memInfoBase m ent = 0
      · rw [if_pos hbase] at h
        refine ih (fun e he => ?_) h
        obtain rfl : ent = e := by simpa using he
        exact hbase
      · rw [if_neg hbase] at h
        refine ih ?_ h
        exact hret
    · rw [if_neg htype] at h
      exact ih hret h

theorem usableLower_base (h : usableLower m mmapInfo = some q) : memInfoBase m q = 0 :=
  scan_lower_base (by simp) h

/-- A region that is not empty starts outside the other one. -/
theorem LoaderLaw.lower_le (h : LoaderLaw m info) (hbase : memInfoBase m info.lower = 0)
    (hne : memInfoLength m info.upper ≠ 0) :
    (memInfoLength m info.lower).toNat ≤ (memInfoBase m info.upper).toNat := by
  have hpos : 0 < (memInfoLength m info.upper).toNat := by
    have hz : (0 : Word).toNat = 0 := rfl
    rcases Nat.eq_zero_or_pos (memInfoLength m info.upper).toNat with he | hpos
    · exact absurd (BitVec.eq_of_toNat_eq (he.trans hz.symm)) hne
    · exact hpos
  have hmem : memInfoBase m info.upper ∈ regionBytes m info.upper := mem_span_self hpos
  have hnot := Set.disjoint_right.mp h.regions hmem
  rw [regionBytes, hbase, mem_span] at hnot
  have hz : memInfoBase m info.upper - 0 = memInfoBase m info.upper := BitVec.sub_zero _
  rw [hz] at hnot
  omega

theorem lowerLengthOf_le (m : Mem) (lower : Word) :
    (lowerLengthOf m lower).toNat ≤ (memInfoLength m lower).toNat := by
  rw [lowerLengthOf, roundDownNearestMult_toNat]
  exact Nat.sub_le _ _

theorem LoaderLaw.lower_disjoint (h : LoaderLaw m info) (hbase : memInfoBase m info.lower = 0)
    (hne : memInfoLength m info.upper ≠ 0) (hlen : 4096 ≤ (lowerLengthOf m info.lower).toNat)
    (hp : p ∈ lowerPages (lowerLengthOf m info.lower)) {i : Nat}
    (hi : i < info.elf.elfTag.numSecHeadEnts.toNat) :
    Disjoint (frame p) (sectionBytes m (info.elf.secHeadEnt i)) := by
  by_cases hs : secHeadSize m (info.elf.secHeadEnt i) = 0
  · rw [sectionBytes, hs, Set.disjoint_right]
    intro a ha
    exact absurd ha (Nat.not_lt_zero _)
  · have hle := toNat_le_of_mem_lowerPages hlen hp
    have hdown := lowerLengthOf_le m info.lower
    have hreg := h.lower_le hbase hne
    have habove := h.above i hi hs
    exact span_disjoint (by omega) (Nat.le_of_lt (h.noWrap i hi))

theorem RangeClear.bootPool (h : RangeClear m m₁ info)
    (hlower : usableLower m info.mmap = some info.lower)
    (hlinks : addLowerPages 0 0 (lowerLengthOf m info.lower) (initLlHead 0 m) = .ok () m₁)
    (hhead : initLlHeadInfo 0 info.elf info.upper m₁ = .ok 0 m')
    (hpool : initPool info.mmap info.elf m = .ok 0 m') :
    ∃ B : BootPool, B.mem = m' ∧
      B.managed = lowerPages (lowerLengthOf m info.lower) ++ upperRange m' := by
  have hlen := addLowerPages_length hlinks
  obtain ⟨length, hlength, -, -, -, hm'⟩ := initLlHeadInfo_eq_ok hhead
  have hb : headBaseAddr m' 0 = upperStart m₁ info.elf := by
    rw [hm']
    exact headBaseAddr_setHeadInfo
  have hl : headLength m' 0 = upperEnd m₁ info.upper - upperStart m₁ info.elf := by
    rw [hm', ← hlength]
    exact headLength_setHeadInfo
  have hwrap : (headBaseAddr m' 0).toNat + (headLength m' 0).toNat < 2 ^ 64 := by
    simpa only [hb, hl, sub_noWrap_iff] using h.ordered
  have hge : ∀ p ∈ upperRange m', (lowerLengthOf m info.lower).toNat ≤ p.toNat := by
    intro p hp
    have hbase := (nodup_pagesFrom (by omega)).2 p hp
    rw [hb] at hbase
    exact Nat.le_trans h.aboveLower hbase
  refine ⟨⟨m, info.mmap, info.elf, info.lower, 0, m', hlower, hpool, Nat.le_of_lt hwrap, ?_⟩,
    rfl, rfl⟩
  intro p hp
  have hle := hge p hp
  constructor
  · rintro rfl
    have hz : (0 : Word).toNat = 0 := rfl
    omega
  · intro hlow
    have hlt := toNat_le_of_mem_lowerPages hlen hlow
    omega

theorem RangeClear.upper_disjoint (h : RangeClear m m₁ info)
    (hhead : initLlHeadInfo 0 info.elf info.upper m₁ = .ok 0 m') (hp : p ∈ upperRange m') {i : Nat}
    (hi : i < info.elf.elfTag.numSecHeadEnts.toNat) :
    Disjoint (frame p) (sectionBytes m (info.elf.secHeadEnt i)) := by
  obtain ⟨length, hlength, hal, -, -, rfl⟩ := initLlHeadInfo_eq_ok hhead
  rw [upperRange, headBaseAddr_setHeadInfo, headLength_setHeadInfo] at hp
  have hmul : 4096 * (length.toNat / 4096) = length.toNat := by
    rw [Aligned] at hal
    omega
  have hsub := frame_subset_of_mem_pagesFrom (by have := length.isLt; omega) hp
  rw [hmul, hlength] at hsub
  exact (h.clear i hi).mono_left hsub

/-- Where the range is clear of sections, no page handed out in any run meets one. -/
theorem section_pages_kept {fuel : Nat} {mbTagsPtr size p : Word} {m m₁ m' m₂ m₃ : Mem}
    {info : BootInfo} {out : List Word} (hinfo : readBootInfo fuel mbTagsPtr m = .ok info m)
    (hlinks : addLowerPages 0 0 (lowerLengthOf m info.lower) (initLlHead 0 m) = .ok () m₁)
    (hinit : mmuInitPf fuel mbTagsPtr m = .ok size m') (hlaw : LoaderLaw m info)
    (hclear : RangeClear m m₁ info) (hrun : PfRun (m', []) (m₂, out))
    (halloc : mmuPfAlloc m₂ = .ok p m₃) (hp : p ≠ 0) :
    ∀ i < info.elf.elfTag.numSecHeadEnts.toNat,
      Disjoint (frame p) (sectionBytes m (info.elf.secHeadEnt i)) := by
  intro i hi
  obtain ⟨hlower, hhead, hpool, -⟩ := mmuInitPf_after hinfo hlinks hinit
  have hlen := addLowerPages_length hlinks
  obtain ⟨B, rfl, hmanaged⟩ := hclear.bootPool hlower hlinks hhead hpool
  obtain ⟨P, hinv⟩ := hrun.inv
  rcases hinv.alloc halloc with ⟨-, h0, -⟩ | ⟨hfree, -⟩
  · exact absurd h0 hp
  · have hm := hinv.mem_managed.mpr (Or.inl hfree)
    rw [hmanaged] at hm
    rcases List.mem_append.mp hm with hlow | hup
    · exact hlaw.lower_disjoint (usableLower_base hlower) hclear.upper_ne hlen hlow hi
    · exact hclear.upper_disjoint hhead hup hi

/-- A kernel of three sections between `0x100000` and `0x102000` or above, listed with the second
at `addr`, and sixteen KiB of upper memory. -/
def tableBefore (addr : Word) : Mem :=
  let m : Mem := fun _ => 0
  let m := (m.store64 0x9008 0x4000000006).store64 0x9010 24
  let m := (m.store64 0x9020 0x4000).store64 0x9028 1
  let m := ((m.store64 0x9030 0x100000).store64 0x9038 0x4000).store64 0x9040 1
  let m := (m.store64 0x9048 0x11400000009).store64 0x9050 0x4000000004
  let m := (m.store64 0x90AC 0x100000).store64 0x90BC 0x800
  let m := (m.store64 0x90EC addr).store64 0x90FC 0x800
  (m.store64 0x912C 0x101000).store64 0x913C 0x1000

def tableInfo : BootInfo :=
  ⟨⟨⟨⟨6, 64⟩, 24, 0⟩, 0x9018, 2⟩, ⟨⟨⟨9, 276⟩, 4, 64, 0⟩, 0x905C⟩, 0x9018, 0x9030⟩

def tableLinked (addr : Word) : Mem :=
  final (addLowerPages 0 0 (lowerLengthOf (tableBefore addr) tableInfo.lower)
    (initLlHead 0 (tableBefore addr)))

/-- Memory after `MMU_init_pf` and `n` allocations. -/
def tableAfter (addr : Word) : Nat → Mem
  | 0 => final (mmuInitPf 4 0x9000 (tableBefore addr))
  | n + 1 => final (mmuPfAlloc (tableAfter addr n))

theorem tableAfter_two (addr : Word)
    (h₁ : returned (mmuPfAlloc (tableAfter addr 0)) = some 0x3000)
    (h₂ : returned (mmuPfAlloc (tableAfter addr 1)) = some 0x2000) :
    PfRun (tableAfter addr 0, []) (tableAfter addr 2, [0x2000, 0x3000]) :=
  .tail (.single (.alloc (eq_ok_of_returned h₁) (by decide)))
    (.alloc (eq_ok_of_returned h₂) (by decide))

theorem tableBefore_law {addr : Word} (hwrap : ∀ i < 4,
      (secHeadAddr (tableBefore addr) (tableInfo.elf.secHeadEnt i)).toNat +
        (secHeadSize (tableBefore addr) (tableInfo.elf.secHeadEnt i)).toNat < 2 ^ 64)
    (habove : ∀ i < 4, secHeadSize (tableBefore addr) (tableInfo.elf.secHeadEnt i) ≠ 0 →
      (memInfoBase (tableBefore addr) tableInfo.upper).toNat ≤
        (secHeadAddr (tableBefore addr) (tableInfo.elf.secHeadEnt i)).toNat)
    (hlower : memInfoBase (tableBefore addr) 0x9018 = 0 ∧
      memInfoLength (tableBefore addr) 0x9018 = 0x4000)
    (hupper : memInfoBase (tableBefore addr) 0x9030 = 0x100000 ∧
      memInfoLength (tableBefore addr) 0x9030 = 0x4000) :
    LoaderLaw (tableBefore addr) tableInfo := by
  refine ⟨hwrap, habove, ?_⟩
  rw [tableInfo, regionBytes, regionBytes, hlower.1, hlower.2, hupper.1, hupper.2]
  exact span_disjoint (by decide) (by decide)

theorem table_clear : RangeClear (tableBefore 0x100800) (tableLinked 0x100800) tableInfo := by
  have hstart : upperStart (tableLinked 0x100800) tableInfo.elf = 0x102000 := by decide +kernel
  have hend : upperEnd (tableLinked 0x100800) tableInfo.upper = 0x104000 := by decide +kernel
  have hends : ∀ i < 4, (secHeadAddr (tableBefore 0x100800) (tableInfo.elf.secHeadEnt i)).toNat +
      (secHeadSize (tableBefore 0x100800) (tableInfo.elf.secHeadEnt i)).toNat ≤ 0x102000 := by
    decide +kernel
  refine ⟨by decide +kernel, ?_, ?_, fun i hi => ?_⟩
  · rw [hstart]
    decide +kernel
  · rw [hstart, hend]
    decide
  · rw [hstart, hend]
    exact (span_disjoint (hends i hi) (by decide)).symm

/-- The third page handed out is the last one of the upper region. -/
theorem table_pages_kept :
    Disjoint (frame 0x103000) (sectionBytes (tableBefore 0x100800) (tableInfo.elf.secHeadEnt 2)) :=
  section_pages_kept (readBootInfo_of_returned (by decide +kernel))
    (eq_ok_of_returned (by decide +kernel))
    (eq_ok_of_returned (a := 0x104000) (by decide +kernel))
    (tableBefore_law (by decide +kernel) (by decide +kernel) (by decide +kernel)
      (by decide +kernel))
    table_clear (tableAfter_two 0x100800 (by decide +kernel) (by decide +kernel))
    (eq_ok_of_returned (by decide +kernel)) (by decide) 2 (by decide)

/-- A section behind the one listed last is given away. -/
theorem section_page_handed_out :
    ¬ ∀ (fuel : Nat) (mbTagsPtr size p : Word) (m m₁ m' m₂ m₃ : Mem) (info : BootInfo)
      (out : List Word), readBootInfo fuel mbTagsPtr m = .ok info m →
      addLowerPages 0 0 (lowerLengthOf m info.lower) (initLlHead 0 m) = .ok () m₁ →
      mmuInitPf fuel mbTagsPtr m = .ok size m' → LoaderLaw m info →
      PfRun (m', []) (m₂, out) → mmuPfAlloc m₂ = .ok p m₃ → p ≠ 0 →
      ∀ i < info.elf.elfTag.numSecHeadEnts.toNat,
        Disjoint (frame p) (sectionBytes m (info.elf.secHeadEnt i)) := by
  intro h
  have hinfo : readBootInfo 4 0x9000 (tableBefore 0x103000) = .ok tableInfo _ :=
    readBootInfo_of_returned (by decide +kernel)
  have hlinks : addLowerPages 0 0 (lowerLengthOf (tableBefore 0x103000) tableInfo.lower)
      (initLlHead 0 (tableBefore 0x103000)) = .ok () (tableLinked 0x103000) :=
    eq_ok_of_returned (by decide +kernel)
  have hinit : mmuInitPf 4 0x9000 (tableBefore 0x103000) = .ok 0x104000 (tableAfter 0x103000 0) :=
    eq_ok_of_returned (by decide +kernel)
  have hlaw : LoaderLaw (tableBefore 0x103000) tableInfo :=
    tableBefore_law (by decide +kernel) (by decide +kernel) (by decide +kernel) (by decide +kernel)
  have hrun := tableAfter_two 0x103000 (by decide +kernel) (by decide +kernel)
  have halloc : mmuPfAlloc (tableAfter 0x103000 2) = .ok 0x103000 _ :=
    eq_ok_of_returned (by decide +kernel)
  have hdis := h _ _ _ _ _ _ _ _ _ _ _ hinfo hlinks hinit hlaw hrun halloc (by decide) 2
    (by decide)
  have hmem : (0x103000 : Word) ∈
      sectionBytes (tableBefore 0x103000) (tableInfo.elf.secHeadEnt 2) := by
    have hsec : secHeadAddr (tableBefore 0x103000) (tableInfo.elf.secHeadEnt 2) = 0x103000 ∧
        secHeadSize (tableBefore 0x103000) (tableInfo.elf.secHeadEnt 2) = 0x800 := by decide +kernel
    rw [sectionBytes, hsec.1, hsec.2]
    exact mem_span_self (by decide)
  exact Set.disjoint_left.mp hdis (mem_span_self (by decide)) hmem

end SkipOS
