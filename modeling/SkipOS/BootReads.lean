import SkipOS.LowerLinks
import SkipOS.UpperRange

/-! The boot information is read again while the pool is built into the lower region. What is read
then is what stood there on entry exactly if the writes of the pool leave those bytes as they
were. -/

namespace SkipOS

open Mem Exec

variable {m m₁ m' : Mem} {fuel : Nat} {mbTagsPtr size a : Word} {n : Nat} {info : BootInfo}

/-- Base and length of the upper region, the address of section 1, and address and size of the
last section: what `init_ll_head_info` reads. -/
def BootInfo.headReads (info : BootInfo) : Set Word :=
  span info.upper 16 ∪ span (info.elf.secHeadEntArr + sizeofSecHeadEnt * 1 + 16) 8 ∪
    (span (finalSec info.elf + 16) 8 ∪ span (finalSec info.elf + 32) 8)

/-- Base and length of the last entry: what `get_sys_mem_size_byte` reads. -/
def BootInfo.sizeReads (info : BootInfo) : Set Word := span info.lastEntry 16

/-- The pages whose first words become links. -/
def BootInfo.lowerCount (info : BootInfo) (m : Mem) : Nat :=
  (lowerLengthOf m info.lower).toNat / 4096

/-- The head as `init_ll_head_info` sets it from what is read in `m`. -/
def BootInfo.setHead (info : BootInfo) (m : Mem) : Mem → Mem :=
  setHeadInfo (upperStart m info.elf) (upperEnd m info.upper - upperStart m info.elf)
    ((upperEnd m info.upper - upperStart m info.elf) / pageSize)

/-- The results are those of the structure on entry, and nothing read later has changed. -/
structure FromEntry (m m₁ m' : Mem) (info : BootInfo) (size : Word) : Prop where
  base : headBaseAddr m' 0 = upperStart m info.elf
  length : headLength m' 0 = upperEnd m info.upper - upperStart m info.elf
  count : headUnpooledPageCnt m' 0 =
    (upperEnd m info.upper - upperStart m info.elf) / pageSize
  size : size = memInfoBase m info.lastEntry + memInfoLength m info.lastEntry
  headReads : Set.EqOn m₁ m info.headReads
  sizeReads : Set.EqOn m' m info.sizeReads

/-- A byte that is written before it is read holds on entry what is written there. -/
structure KeptBytes (m : Mem) (info : BootInfo) : Prop where
  headLinks : ∀ a ∈ info.headReads, InLinks (info.lowerCount m) a →
    m a = linkByte (info.lowerCount m) a
  sizeLinks : ∀ a ∈ info.sizeReads, InLinks (info.lowerCount m) a →
    m a = linkByte (info.lowerCount m) a
  sizeHead : ∀ a ∈ info.sizeReads, a ∈ span 16 24 → m a = info.setHead m m a

theorem inLinks_of_mem_linkBytes {lowerLength : Word} (h : 4096 ≤ lowerLength.toNat)
    (ha : a ∈ linkBytes (0 :: lowerPages lowerLength)) :
    InLinks (lowerLength.toNat / 4096) a := by
  obtain ⟨p, hp, hap⟩ := ha
  rw [cons_lowerPages h, List.mem_iff_getElem?] at hp
  obtain ⟨k, hk⟩ := hp
  have hlt : k < lowerLength.toNat / 4096 := by
    obtain ⟨hlt, -⟩ := List.getElem?_eq_some_iff.mp hk
    rwa [length_pagesFrom] at hlt
  rw [pagesFrom_getElem? 0 hlt, Option.some_inj] at hk
  have hl := lowerLength.isLt
  have hp : p.toNat = 4096 * k := by
    rw [← hk]
    bv_omega
  rw [mem_span] at hap
  have hpa : a.toNat = 4096 * k + (a - p).toNat := by
    have ha := a.isLt
    bv_omega
  exact ⟨by omega, by omega⟩

theorem addLowerPages_apply
    (hlinks : addLowerPages 0 0 (lowerLengthOf m info.lower) (initLlHead 0 m) = .ok () m₁)
    (a : Word) :
    m₁ a = if InLinks (info.lowerCount m) a then linkByte (info.lowerCount m) a else m a := by
  obtain ⟨hring, -, -, hlen, he⟩ := addLowerPages_spec (roundDownNearestMult_aligned _)
    (initLlHead_ring _) hlinks
  by_cases ha : InLinks (info.lowerCount m) a
  · rw [if_pos ha]
    exact hring.linkByte hlen ha
  · have hn : a ∈ (linkBytes (0 :: lowerPages (lowerLengthOf m info.lower)))ᶜ :=
      fun h => ha (inLinks_of_mem_linkBytes hlen h)
    have hhead : a ∈ (linkBytes [0])ᶜ := fun h => hn (linkBytes_mono (by simp) h)
    rw [if_neg ha, he hn]
    exact initLlHead_eqOn_links m hhead

/-- Where the members of the head lie, nothing of the memory below is seen. -/
theorem setHeadInfo_apply {base length count : Word} (ha : a ∈ span 16 24) :
    setHeadInfo base length count m a = setHeadInfo base length count m' a := by
  have hz : ∀ c : Word, (0 : Word) + c = c := fun c => BitVec.zero_add c
  simp only [setHeadInfo, setHeadUnpooledPageCnt, setHeadLength, setHeadBaseAddr, setField, hz,
    store64, storeLE]
  by_cases h₃ : a ∈ span 32 8
  · simp only [if_pos h₃]
  · by_cases h₂ : a ∈ span 24 8
    · simp only [if_neg h₃, if_pos h₂]
    · have h₁ : a ∈ span 16 8 := by
        simp only [mem_span] at ha h₂ h₃ ⊢
        bv_omega
      simp only [if_neg h₃, if_neg h₂, if_pos h₁]

theorem memInfoBase_congr (h : Set.EqOn m m' (span a 16)) : memInfoBase m a = memInfoBase m' a :=
  load64_congr (h.mono (span_offset_subset (by decide)))

theorem memInfoLength_congr (h : Set.EqOn m m' (span a 16)) :
    memInfoLength m a = memInfoLength m' a :=
  load64_congr (h.mono (span_offset_subset (by decide)))

theorem upperEnd_congr (h : Set.EqOn m m' info.headReads) :
    upperEnd m info.upper = upperEnd m' info.upper := by
  have hu : Set.EqOn m m' (span info.upper 16) := h.mono fun _ ha => Or.inl (Or.inl ha)
  rw [upperEnd, upperEnd, memInfoBase_congr hu, memInfoLength_congr hu]

theorem upperStart_congr (h : Set.EqOn m m' info.headReads) :
    upperStart m info.elf = upperStart m' info.elf := by
  have haddr : secHeadAddr m (finalSec info.elf) = secHeadAddr m' (finalSec info.elf) :=
    load64_congr (h.mono fun _ ha => Or.inr (Or.inl ha))
  have hsize : secHeadSize m (finalSec info.elf) = secHeadSize m' (finalSec info.elf) :=
    load64_congr (h.mono fun _ ha => Or.inr (Or.inr ha))
  rw [upperStart, upperStart, haddr, hsize]

theorem setHead_congr (h : Set.EqOn m m' info.headReads) : info.setHead m = info.setHead m' := by
  rw [BootInfo.setHead, BootInfo.setHead, upperStart_congr h, upperEnd_congr h]

theorem headReads_kept_iff
    (hlinks : addLowerPages 0 0 (lowerLengthOf m info.lower) (initLlHead 0 m) = .ok () m₁)
    (s : Set Word) : Set.EqOn m₁ m s ↔
      ∀ a ∈ s, InLinks (info.lowerCount m) a → m a = linkByte (info.lowerCount m) a := by
  constructor
  · intro h a ha hin
    rw [← h ha, addLowerPages_apply hlinks, if_pos hin]
  · intro h a ha
    rw [addLowerPages_apply hlinks]
    by_cases hin : InLinks (info.lowerCount m) a
    · rw [if_pos hin, h a ha hin]
    · rw [if_neg hin]

theorem not_inLinks_of_head (ha : a ∈ span 16 24) : ¬ InLinks n a := by
  rintro ⟨-, hlow⟩
  rw [mem_span] at ha
  bv_omega

/-- The bytes read by `get_sys_mem_size_byte`, of which the head may have covered some too. -/
theorem sizeReads_kept_iff
    (hlinks : addLowerPages 0 0 (lowerLengthOf m info.lower) (initLlHead 0 m) = .ok () m₁)
    (hm' : m' = info.setHead m m₁) :
    Set.EqOn m' m info.sizeReads ↔
      (∀ a ∈ info.sizeReads, InLinks (info.lowerCount m) a →
        m a = linkByte (info.lowerCount m) a) ∧
      ∀ a ∈ info.sizeReads, a ∈ span 16 24 → m a = info.setHead m m a := by
  subst hm'
  have hout : ∀ a ∉ span 16 24, info.setHead m m₁ a = m₁ a := fun _ ha => setHeadInfo_eqOn ha
  have hin : ∀ a ∈ span 16 24, info.setHead m m₁ a = info.setHead m m a :=
    fun _ ha => setHeadInfo_apply ha
  constructor
  · intro h
    refine ⟨fun a ha hlink => ?_, fun a ha hhead => ?_⟩
    · have hno : a ∉ span 16 24 := fun hhead => not_inLinks_of_head hhead hlink
      rw [← h ha, hout a hno, addLowerPages_apply hlinks, if_pos hlink]
    · rw [← hin a hhead, h ha]
  · rintro ⟨hlink, hhead⟩ a ha
    by_cases hmem : a ∈ span 16 24
    · rw [hin a hmem, hhead a ha hmem]
    · rw [hout a hmem]
      exact (headReads_kept_iff hlinks info.sizeReads).mpr hlink ha

theorem fromEntry_iff
    (hlinks : addLowerPages 0 0 (lowerLengthOf m info.lower) (initLlHead 0 m) = .ok () m₁)
    (hhead : initLlHeadInfo 0 info.elf info.upper m₁ = .ok 0 m')
    (hsize : size = memInfoBase m' info.lastEntry + memInfoLength m' info.lastEntry) :
    FromEntry m m₁ m' info size ↔ KeptBytes m info := by
  obtain ⟨length, hlength, -, -, -, hm'⟩ := initLlHeadInfo_eq_ok hhead
  have hset : m' = info.setHead m₁ m₁ := by rw [hm', hlength, BootInfo.setHead]
  constructor
  · intro h
    rw [setHead_congr h.headReads] at hset
    obtain ⟨hlink, hmem⟩ := (sizeReads_kept_iff hlinks hset).mp h.sizeReads
    exact ⟨(headReads_kept_iff hlinks _).mp h.headReads, hlink, hmem⟩
  · intro h
    have hreads := (headReads_kept_iff hlinks _).mpr h.headLinks
    rw [setHead_congr hreads] at hset
    have hlast := (sizeReads_kept_iff hlinks hset).mpr ⟨h.sizeLinks, h.sizeHead⟩
    refine ⟨?_, ?_, ?_, ?_, hreads, hlast⟩
    · rw [hset]
      exact headBaseAddr_setHeadInfo
    · rw [hset]
      exact headLength_setHeadInfo
    · rw [hset]
      exact headUnpooledPageCnt_setHeadInfo
    · rw [hsize, memInfoBase_congr hlast, memInfoLength_congr hlast]

/-- The pool and the memory size are those of the structure on entry exactly if the fields read
late hold on entry what is written over them. -/
theorem installed_from_entry_iff {fuel : Nat} {mbTagsPtr size : Word} {m m₁ m' : Mem}
    {info : BootInfo} (hinfo : readBootInfo fuel mbTagsPtr m = .ok info m)
    (hlinks : addLowerPages 0 0 (lowerLengthOf m info.lower) (initLlHead 0 m) = .ok () m₁)
    (hrun : mmuInitPf fuel mbTagsPtr m = .ok size m') :
    FromEntry m m₁ m' info size ↔ KeptBytes m info := by
  obtain ⟨-, hhead, -, hsize⟩ := mmuInitPf_after hinfo hlinks hrun
  exact fromEntry_iff hlinks hhead hsize

theorem tags_reads_far {b : Word} {n : Nat} (hb : 0x9000 ≤ b.toNat) (hn : b.toNat + n ≤ 2 ^ 64)
    (ha : a ∈ span b n) : 0x9000 ≤ a.toNat := by
  rw [mem_span] at ha
  bv_omega

/-- The fields read late lie above the lower memory, so nothing is written over them. -/
theorem tags_from_entry :
    FromEntry (tagsBefore 0x100000 0x800) (tagsLinked 0x100000 0x800) (tagsAfter 0x100000 0x800)
      tagsInfo 0x101000 := by
  have hcount : tagsInfo.lowerCount (tagsBefore 0x100000 0x800) = 4 := by decide +kernel
  have hfinal : finalSec tagsInfo.elf = 0x909C := by decide
  have hfirst : tagsInfo.elf.secHeadEntArr + sizeofSecHeadEnt * 1 + 16 = 0x90AC := by decide
  have hlast : tagsInfo.lastEntry = 0x9030 := by decide
  have hhead : ∀ a ∈ tagsInfo.headReads, 0x9000 ≤ a.toNat := by
    intro a ha
    rw [BootInfo.headReads, hfinal, hfirst] at ha
    rcases ha with (ha | ha) | (ha | ha)
    · exact tags_reads_far (by decide) (by decide) ha
    · exact tags_reads_far (by decide) (by decide) ha
    · exact tags_reads_far (by decide) (by decide) ha
    · exact tags_reads_far (by decide) (by decide) ha
  have hsize : ∀ a ∈ tagsInfo.sizeReads, 0x9000 ≤ a.toNat := by
    intro a ha
    rw [BootInfo.sizeReads, hlast] at ha
    exact tags_reads_far (by decide) (by decide) ha
  have hkept : KeptBytes (tagsBefore 0x100000 0x800) tagsInfo := by
    refine ⟨fun a ha hl => ?_, fun a ha hl => ?_, fun a ha hz => ?_⟩
    · have hfar := hhead a ha
      rw [hcount] at hl
      exact absurd hl.1 (by omega)
    · have hfar := hsize a ha
      rw [hcount] at hl
      exact absurd hl.1 (by omega)
    · have hfar := hsize a ha
      rw [mem_span] at hz
      bv_omega
  exact (installed_from_entry_iff (readBootInfo_of_returned (by decide +kernel))
    (eq_ok_of_returned (by decide +kernel))
    (eq_ok_of_returned (a := 0x101000) (by decide +kernel))).mpr hkept

/-- Boot information that starts in the second page and goes on in the third, with sixteen pages of
upper memory. The length of the upper region lies at `0x2000`. -/
def straddlingTags : Mem :=
  let m : Mem := fun _ => 0
  let m := (m.store64 0x1FD0 0x4000000006).store64 0x1FD8 24
  let m := (m.store64 0x1FE8 0x4000).store64 0x1FF0 1
  let m := ((m.store64 0x1FF8 0x100000).store64 0x2000 0x10000).store64 0x2008 1
  let m := (m.store64 0x2010 0x9400000009).store64 0x2018 0x4000000002
  (m.store64 0x2074 0x100000).store64 0x2084 0x800

/-- The link from the third page to the fourth becomes the length of the upper region. -/
theorem straddling_not_from_entry :
    ¬ ∀ (fuel : Nat) (mbTagsPtr size : Word) (m m₁ m' : Mem) (info : BootInfo),
      readBootInfo fuel mbTagsPtr m = .ok info m →
      addLowerPages 0 0 (lowerLengthOf m info.lower) (initLlHead 0 m) = .ok () m₁ →
      mmuInitPf fuel mbTagsPtr m = .ok size m' → FromEntry m m₁ m' info size := by
  intro h
  have hinfo : readBootInfo 4 0x1FC8 straddlingTags =
      .ok ⟨⟨⟨⟨6, 64⟩, 24, 0⟩, 0x1FE0, 2⟩, ⟨⟨⟨9, 148⟩, 2, 64, 0⟩, 0x2024⟩, 0x1FE0, 0x1FF8⟩ _ :=
    readBootInfo_of_returned (by decide +kernel)
  have hlinks : addLowerPages 0 0 (lowerLengthOf straddlingTags 0x1FE0)
      (initLlHead 0 straddlingTags) = .ok () _ := eq_ok_of_returned (by decide +kernel)
  have hrun : mmuInitPf 4 0x1FC8 straddlingTags = .ok 0x103000 _ :=
    eq_ok_of_returned (by decide +kernel)
  have hsize := (h _ _ _ _ _ _ _ hinfo hlinks hrun).size
  have hbad : ¬ (0x103000 : Word) =
      memInfoBase straddlingTags 0x1FF8 + memInfoLength straddlingTags 0x1FF8 := by decide +kernel
  exact hbad hsize

end SkipOS
