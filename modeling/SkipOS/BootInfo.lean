import SkipOS.PoolInit

/-! What `MMU_init_pf` finds in the boot information before it writes anything, and what it
reads again while it fills the pool. -/

namespace SkipOS

open Mem Exec

/-- The tags, and the entries of the memory map taken as the two usable regions. -/
structure BootInfo where
  mmap : MmapInfo
  elf : ElfInfo
  lower : Word
  upper : Word

deriving instance DecidableEq for BasicTag, MmapTag, MmapInfo, ElfTag, ElfInfo, BootInfo

/-- The reads of `MMU_init_pf` up to the first write. -/
def readBootInfo (fuel : Nat) (mbTagsPtr : Word) : Exec Mem BootInfo := do
  let mmapPtr ← findTag fuel mbTagsPtr mmapTagType
  assert (mmapPtr ≠ 0)
  let mmapInfo ← getMmapInfo mmapPtr
  let elfPtr ← findTag fuel mbTagsPtr elfTagType
  assert (elfPtr ≠ 0)
  let elfInfo ← getElfInfo elfPtr
  let usable ← getUsableMemInfoPtrs mmapInfo
  let lower ← deref usable.lower
  let upper ← deref usable.upper
  return ⟨mmapInfo, elfInfo, lower, upper⟩

/-- The entry of the memory map that `get_sys_mem_size_byte` reads. -/
def BootInfo.lastEntry (info : BootInfo) : Word :=
  info.mmap.memInfoEntryArr + sizeofMemInfoEntry * (info.mmap.numMemInfoEntries - 1)

/-- The bytes behind the header of the memory map tag, in the arithmetic of the code. -/
def MmapInfo.arrSizeBytes (info : MmapInfo) : Word :=
  info.mmapTag.basicTagInfo.size.setWidth 64 - sizeofMmapTag

variable {m m₁ m' : Mem} {fuel : Nat} {mbTagsPtr size p q head : Word} {tag : BitVec 32}
  {mmapInfo : MmapInfo} {elfInfo : ElfInfo} {info : BootInfo}

theorem findTag_eq_ok (h : findTag fuel mbTagsPtr tag m = .ok p m') : m' = m := by
  rw [findTag, bind_get] at h
  cases hl : findTagLoop m tag fuel (mbTagsPtr + fixedHeaderSize) with
  | ok q =>
    simp only [hl, pure_apply, EStateM.Result.ok.injEq] at h
    exact h.2.symm
  | error e => simp [hl] at h

theorem getMmapInfo_eq_ok (h : getMmapInfo p m = .ok mmapInfo m') : m' = m ∧
    mmapInfo.arrSizeBytes % sizeofMemInfoEntry = 0 ∧
    mmapInfo.numMemInfoEntries = mmapInfo.arrSizeBytes / sizeofMemInfoEntry := by
  obtain ⟨_, m1, h1, hrest⟩ := bind_eq_ok.mp h
  obtain ⟨-, rfl⟩ := assert_eq_ok.mp h1
  rw [bind_get] at hrest
  obtain ⟨_, m2, h2, hrest₂⟩ := bind_eq_ok.mp hrest
  obtain ⟨-, rfl⟩ := assert_eq_ok.mp h2
  obtain ⟨_, m3, h3, hrest₃⟩ := bind_eq_ok.mp hrest₂
  obtain ⟨-, rfl⟩ := assert_eq_ok.mp h3
  obtain ⟨_, m4, h4, hrest₄⟩ := bind_eq_ok.mp hrest₃
  obtain ⟨-, rfl⟩ := assert_eq_ok.mp h4
  obtain ⟨_, m5, h5, hret⟩ := bind_eq_ok.mp hrest₄
  obtain ⟨hdiv, rfl⟩ := assert_eq_ok.mp h5
  obtain ⟨rfl, rfl⟩ := pure_eq_ok.mp hret
  exact ⟨rfl, hdiv, rfl⟩

theorem getElfInfo_eq_ok (h : getElfInfo p m = .ok elfInfo m') : m' = m ∧
    elfInfo.elfTag.numSecHeadEnts.setWidth 64 =
      (elfInfo.elfTag.basicTagInfo.size.setWidth 64 - sizeofElfTag) / sizeofSecHeadEnt := by
  obtain ⟨_, m1, h1, hrest⟩ := bind_eq_ok.mp h
  obtain ⟨-, rfl⟩ := assert_eq_ok.mp h1
  rw [bind_get] at hrest
  obtain ⟨_, m2, h2, hrest₂⟩ := bind_eq_ok.mp hrest
  obtain ⟨-, rfl⟩ := assert_eq_ok.mp h2
  obtain ⟨_, m3, h3, hrest₃⟩ := bind_eq_ok.mp hrest₂
  obtain ⟨-, rfl⟩ := assert_eq_ok.mp h3
  obtain ⟨_, m4, h4, hret⟩ := bind_eq_ok.mp hrest₃
  obtain ⟨hcount, rfl⟩ := assert_eq_ok.mp h4
  obtain ⟨rfl, rfl⟩ := pure_eq_ok.mp hret
  exact ⟨rfl, hcount⟩

theorem mmuInitPf_eq_ok (hrun : mmuInitPf fuel mbTagsPtr m = .ok size m') :
    ∃ info m₁, readBootInfo fuel mbTagsPtr m = .ok info m ∧
      usableLower m info.mmap = some info.lower ∧
      addLowerPages 0 0 (lowerLengthOf m info.lower) (initLlHead 0 m) = .ok () m₁ ∧
      initLlHeadInfo 0 info.elf info.upper m₁ = .ok 0 m' ∧
      initPool info.mmap info.elf m = .ok 0 m' ∧
      size = memInfoBase m' info.lastEntry + memInfoLength m' info.lastEntry := by
  obtain ⟨mmapPtr, m1, h1, hrest₁⟩ := bind_eq_ok.mp hrun
  obtain rfl := findTag_eq_ok h1
  obtain ⟨_, m2, h2, hrest₂⟩ := bind_eq_ok.mp hrest₁
  obtain ⟨-, rfl⟩ := assert_eq_ok.mp h2
  obtain ⟨mmapInfo, m3, h3, hrest₃⟩ := bind_eq_ok.mp hrest₂
  obtain ⟨rfl, -⟩ := getMmapInfo_eq_ok h3
  obtain ⟨elfPtr, m4, h4, hrest₄⟩ := bind_eq_ok.mp hrest₃
  obtain rfl := findTag_eq_ok h4
  obtain ⟨_, m5, h5, hrest₅⟩ := bind_eq_ok.mp hrest₄
  obtain ⟨-, rfl⟩ := assert_eq_ok.mp h5
  obtain ⟨elfInfo, m6, h6, hrest₆⟩ := bind_eq_ok.mp hrest₅
  obtain ⟨rfl, -⟩ := getElfInfo_eq_ok h6
  obtain ⟨head, m7, hpool, hsize⟩ := bind_eq_ok.mp hrest₆
  obtain ⟨usable, lower, upper, m₁, hu, hlow, hup, hadd, hinfo⟩ := initPool_eq_ok hpool
  obtain ⟨length, -, -, rfl, -⟩ := initLlHeadInfo_eq_ok hinfo
  rw [getSysMemSizeByte, bind_get] at hsize
  obtain ⟨hend, rfl⟩ := pure_eq_ok.mp hsize
  refine ⟨⟨mmapInfo, elfInfo, lower, upper⟩, m₁, ?_, ?_, hadd, hinfo, hpool, hend.symm⟩
  · rw [readBootInfo, bind_of_ok h1, bind_of_ok h2, bind_of_ok h3, bind_of_ok h4, bind_of_ok h5,
      bind_of_ok h6, bind_of_ok hu, hlow, hup]
    rfl
  · exact (usableLower_eq hu).trans hlow

theorem mmuInitPf_after (hinfo : readBootInfo fuel mbTagsPtr m = .ok info m)
    (hlinks : addLowerPages 0 0 (lowerLengthOf m info.lower) (initLlHead 0 m) = .ok () m₁)
    (hrun : mmuInitPf fuel mbTagsPtr m = .ok size m') :
    usableLower m info.mmap = some info.lower ∧
      initLlHeadInfo 0 info.elf info.upper m₁ = .ok 0 m' ∧
      initPool info.mmap info.elf m = .ok 0 m' ∧
      size = memInfoBase m' info.lastEntry + memInfoLength m' info.lastEntry := by
  obtain ⟨info', m₁', hinfo', hlower, hlinks', hhead, hpool, hsize⟩ := mmuInitPf_eq_ok hrun
  obtain rfl : info = info' := by
    rw [hinfo, EStateM.Result.ok.injEq] at hinfo'
    exact hinfo'.1
  obtain rfl : m₁ = m₁' := by
    rw [hlinks, EStateM.Result.ok.injEq] at hlinks'
    exact hlinks'.2
  exact ⟨hlower, hhead, hpool, hsize⟩

theorem readBootInfo_eq_ok (h : readBootInfo fuel mbTagsPtr m = .ok info m') : m' = m := by
  obtain ⟨mmapPtr, m1, h1, hrest₁⟩ := bind_eq_ok.mp h
  obtain rfl := findTag_eq_ok h1
  obtain ⟨_, m2, h2, hrest₂⟩ := bind_eq_ok.mp hrest₁
  obtain ⟨-, rfl⟩ := assert_eq_ok.mp h2
  obtain ⟨mmapInfo, m3, h3, hrest₃⟩ := bind_eq_ok.mp hrest₂
  obtain ⟨rfl, -⟩ := getMmapInfo_eq_ok h3
  obtain ⟨elfPtr, m4, h4, hrest₄⟩ := bind_eq_ok.mp hrest₃
  obtain rfl := findTag_eq_ok h4
  obtain ⟨_, m5, h5, hrest₅⟩ := bind_eq_ok.mp hrest₄
  obtain ⟨-, rfl⟩ := assert_eq_ok.mp h5
  obtain ⟨elfInfo, m6, h6, hrest₆⟩ := bind_eq_ok.mp hrest₅
  obtain ⟨rfl, -⟩ := getElfInfo_eq_ok h6
  obtain ⟨usable, m7, h7, hrest₇⟩ := bind_eq_ok.mp hrest₆
  obtain ⟨rfl, -⟩ := getUsableMemInfoPtrs_eq_ok h7
  obtain ⟨lower, m8, h8, hrest₈⟩ := bind_eq_ok.mp hrest₇
  obtain ⟨-, rfl⟩ := deref_eq_ok h8
  obtain ⟨upper, m9, h9, hret⟩ := bind_eq_ok.mp hrest₈
  obtain ⟨-, rfl⟩ := deref_eq_ok h9
  exact (pure_eq_ok.mp hret).2.symm

theorem readBootInfo_of_returned
    (h : returned (readBootInfo fuel mbTagsPtr m) = some info) :
    readBootInfo fuel mbTagsPtr m = .ok info m := by
  have hok := eq_ok_of_returned h
  rwa [readBootInfo_eq_ok hok] at hok

end SkipOS
