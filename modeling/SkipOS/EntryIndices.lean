import SkipOS.UpperRange
import SkipOS.UsableEntries

/-! Which entries of the two tags `MMU_init_pf` reads, and when they lie inside. Sizes are
32 bits wide and checked after a subtraction in 64 bits. -/

namespace SkipOS

open Mem Exec

/-- The entries read lie inside their tags: the counts fit the sizes, and section 1, the last
section and the last entry of the memory map are below the counts. -/
structure EntriesInside (mmap : MmapInfo) (elf : ElfInfo) : Prop where
  mmap_size : 16 + 24 * mmap.numMemInfoEntries.toNat = mmap.mmapTag.basicTagInfo.size.toNat
  elf_size : 20 + 64 * elf.elfTag.numSecHeadEnts.toNat ≤ elf.elfTag.basicTagInfo.size.toNat
  first_section : 1 < elf.elfTag.numSecHeadEnts.toNat
  last_section : (elf.elfTag.numSecHeadEnts - 1).toNat < elf.elfTag.numSecHeadEnts.toNat
  last_entry : (mmap.numMemInfoEntries - 1).toNat < mmap.numMemInfoEntries.toNat

variable {m m₁ m₂ m₃ : Mem} {mmapPtr elfPtr p : Word} {mmap : MmapInfo} {elf : ElfInfo}
  {ptrs : UsableMemInfoPtrs}

theorem toNat_setWidth_sub (v : BitVec 32) (c : Word) :
    (v.setWidth 64 - c).toNat = (2 ^ 64 - c.toNat + v.toNat) % 2 ^ 64 := by
  have hv := v.isLt
  have hw : (v.setWidth 64).toNat = v.toNat := by
    rw [BitVec.toNat_setWidth, Nat.mod_eq_of_lt (by omega)]
  rw [BitVec.toNat_sub, hw]

theorem mmap_size_iff (h : getMmapInfo p m = .ok mmap m₁) :
    16 + 24 * mmap.numMemInfoEntries.toNat = mmap.mmapTag.basicTagInfo.size.toNat ↔
      mmap.mmapTag.basicTagInfo.size ≠ 0 := by
  obtain ⟨-, hdiv, hcount⟩ := getMmapInfo_eq_ok h
  have hsize := mmap.mmapTag.basicTagInfo.size.isLt
  have h16 : sizeofMmapTag.toNat = 16 := rfl
  have h24 : sizeofMemInfoEntry.toNat = 24 := rfl
  have harr := toNat_setWidth_sub mmap.mmapTag.basicTagInfo.size sizeofMmapTag
  have hmod : mmap.arrSizeBytes.toNat % 24 = 0 := by
    rw [← h24, ← BitVec.toNat_umod, hdiv]
    rfl
  have hnum : mmap.numMemInfoEntries.toNat = mmap.arrSizeBytes.toNat / 24 := by
    rw [hcount, BitVec.toNat_udiv, h24]
  have hzero : mmap.mmapTag.basicTagInfo.size = 0 ↔ mmap.mmapTag.basicTagInfo.size.toNat = 0 :=
    BitVec.toNat_inj.symm
  rw [h16] at harr
  rw [MmapInfo.arrSizeBytes, harr] at hmod hnum
  rw [ne_eq, hzero]
  omega

/-- The equality that `get_elf_info` asserts leaves no room for a subtraction that wraps. -/
theorem elf_size_le (h : getElfInfo p m = .ok elf m₁) :
    20 + 64 * elf.elfTag.numSecHeadEnts.toNat ≤ elf.elfTag.basicTagInfo.size.toNat := by
  obtain ⟨-, hcount⟩ := getElfInfo_eq_ok h
  have hsize := elf.elfTag.basicTagInfo.size.isLt
  have hlt := elf.elfTag.numSecHeadEnts.isLt
  have h20 : sizeofElfTag.toNat = 20 := rfl
  have h64 : sizeofSecHeadEnt.toNat = 64 := rfl
  have hnat := congrArg BitVec.toNat hcount
  rw [BitVec.toNat_udiv, toNat_setWidth_sub, h20, h64, BitVec.toNat_setWidth,
    Nat.mod_eq_of_lt (by omega)] at hnat
  omega

theorem last_entry_lt (h : getUsableMemInfoPtrs mmap m = .ok ptrs m₁) :
    (mmap.numMemInfoEntries - 1).toNat < mmap.numMemInfoEntries.toNat := by
  obtain ⟨a, b, hab, -⟩ := usable_eq_two h
  have ha : a ∈ mmap.usable m := hab ▸ List.mem_cons_self
  have hlt := List.mem_range.mp (List.mem_filter.mp ha).1
  bv_omega

/-- On tags that pass the assertions the entries read lie inside just when the memory map tag
has a size and there are two sections. -/
theorem entries_inside_iff (hmmap : getMmapInfo mmapPtr m = .ok mmap m₁)
    (helf : getElfInfo elfPtr m = .ok elf m₂) (husable : getUsableMemInfoPtrs mmap m = .ok ptrs m₃) :
    EntriesInside mmap elf ↔
      mmap.mmapTag.basicTagInfo.size ≠ 0 ∧ 2 ≤ elf.elfTag.numSecHeadEnts.toNat := by
  constructor
  · intro h
    exact ⟨(mmap_size_iff hmmap).mp h.mmap_size, h.first_section⟩
  · rintro ⟨hsize, htwo⟩
    exact ⟨(mmap_size_iff hmmap).mpr hsize, elf_size_le helf, htwo, by bv_omega,
      last_entry_lt husable⟩

theorem getMmapInfo_tags : getMmapInfo 0x9008 (tagsBefore 0x100000 0x800) =
    .ok tagsInfo.mmap (final (getMmapInfo 0x9008 (tagsBefore 0x100000 0x800))) :=
  eq_ok_of_returned (by decide +kernel)

theorem getElfInfo_tags : getElfInfo 0x9048 (tagsBefore 0x100000 0x800) =
    .ok tagsInfo.elf (final (getElfInfo 0x9048 (tagsBefore 0x100000 0x800))) :=
  eq_ok_of_returned (by decide +kernel)

theorem getUsableMemInfoPtrs_tags : getUsableMemInfoPtrs tagsInfo.mmap (tagsBefore 0x100000 0x800) =
    .ok ⟨some 0x9018, some 0x9030⟩
      (final (getUsableMemInfoPtrs tagsInfo.mmap (tagsBefore 0x100000 0x800))) :=
  eq_ok_of_returned (by decide +kernel)

theorem entries_inside_tags : EntriesInside tagsInfo.mmap tagsInfo.elf :=
  (entries_inside_iff getMmapInfo_tags getElfInfo_tags getUsableMemInfoPtrs_tags).mpr
    (by decide +kernel)

/-- As `tagsBefore`, with a table of one section and a tag behind it whose payload holds the
base of the upper region. -/
def oneSectionBefore : Mem :=
  let m : Mem := fun _ => 0
  let m := (m.store64 0x9008 0x4000000006).store64 0x9010 24
  let m := (m.store64 0x9020 0x4000).store64 0x9028 1
  let m := ((m.store64 0x9030 0x100000).store64 0x9038 0x1000).store64 0x9040 1
  let m := (m.store64 0x9048 0x5400000009).store64 0x9050 0x4000000001
  let m := (m.store64 0x906C 0x100000).store64 0x907C 0x800
  ((m.store64 0x90A0 0x1400000001).store64 0x90AC 0x100000).store64 0x90B8 0x800000000

def oneSectionInfo : BootInfo :=
  ⟨⟨⟨⟨6, 64⟩, 24, 0⟩, 0x9018, 2⟩, ⟨⟨⟨9, 84⟩, 1, 64, 0⟩, 0x905C⟩, 0x9018, 0x9030⟩

/-- Section 1 is read from the bytes behind a table of one section. -/
theorem entries_outside : ¬ ∀ (fuel : Nat) (mbTagsPtr size : Word) (m m' : Mem) (info : BootInfo),
    readBootInfo fuel mbTagsPtr m = .ok info m → mmuInitPf fuel mbTagsPtr m = .ok size m' →
      EntriesInside info.mmap info.elf := by
  intro h
  have hinfo : readBootInfo 4 0x9000 oneSectionBefore = .ok oneSectionInfo _ :=
    readBootInfo_of_returned (by decide +kernel)
  have hrun : mmuInitPf 4 0x9000 oneSectionBefore = .ok 0x101000 _ :=
    eq_ok_of_returned (by decide +kernel)
  exact absurd (h _ _ _ _ _ _ hinfo hrun).first_section (by decide)

end SkipOS
