import SkipOS.BootInfo

/-! The range above the kernel that `init_ll_head_info` installs. It is taken from the memory map
and from the section listed last, and only its length is checked, after it may have wrapped. -/

namespace SkipOS

open Mem Exec

variable {m m₁ m' : Mem} {fuel : Nat} {mbTagsPtr size upper : Word} {elfInfo : ElfInfo}
  {info : BootInfo}

/-- Whole pages of the upper region, with no sum above 64 bits. -/
structure RangeInside (m : Mem) (upper : Word) (m' : Mem) : Prop where
  base_aligned : Aligned (headBaseAddr m' 0)
  length_aligned : Aligned (headLength m' 0)
  noWrap : (headBaseAddr m' 0).toNat + (headLength m' 0).toNat < 2 ^ 64
  regionNoWrap : (memInfoBase m upper).toNat + (memInfoLength m upper).toNat < 2 ^ 64
  above : (memInfoBase m upper).toNat ≤ (headBaseAddr m' 0).toNat
  below : (headBaseAddr m' 0).toNat + (headLength m' 0).toNat ≤
    (memInfoBase m upper).toNat + (memInfoLength m upper).toNat

/-- The upper region does not wrap, and the last section ends inside its pages. -/
structure EndsInside (m : Mem) (elfInfo : ElfInfo) (upper : Word) : Prop where
  regionNoWrap : (memInfoBase m upper).toNat + (memInfoLength m upper).toNat < 2 ^ 64
  above : (memInfoBase m upper).toNat ≤ (upperStart m elfInfo).toNat
  below : (upperStart m elfInfo).toNat ≤ (upperEnd m upper).toNat

instance (m : Mem) (elfInfo : ElfInfo) (upper : Word) : Decidable (EndsInside m elfInfo upper) :=
  decidable_of_iff ((memInfoBase m upper).toNat + (memInfoLength m upper).toNat < 2 ^ 64 ∧
      (memInfoBase m upper).toNat ≤ (upperStart m elfInfo).toNat ∧
      (upperStart m elfInfo).toNat ≤ (upperEnd m upper).toNat)
    ⟨fun ⟨h₁, h₂, h₃⟩ => ⟨h₁, h₂, h₃⟩, fun ⟨h₁, h₂, h₃⟩ => ⟨h₁, h₂, h₃⟩⟩

theorem roundDownNearestMult_toNat (v : Word) :
    (roundDownNearestMult v pageSize).toNat = v.toNat - v.toNat % 4096 := by
  have hm := toNat_umod_pageSize v
  rw [roundDownNearestMult, BitVec.toNat_sub, hm]
  have hv := v.isLt
  omega

theorem upperEnd_toNat (h : (memInfoBase m upper).toNat + (memInfoLength m upper).toNat < 2 ^ 64) :
    (upperEnd m upper).toNat ≤ (memInfoBase m upper).toNat + (memInfoLength m upper).toNat := by
  rw [upperEnd, roundDownNearestMult_toNat, BitVec.toNat_add, Nat.mod_eq_of_lt (by omega)]
  omega

/-- A difference that wraps leaves a range that wraps too. -/
theorem sub_noWrap_iff (u e : Word) : u.toNat + (e - u).toNat < 2 ^ 64 ↔ u.toNat ≤ e.toNat := by
  have hu := u.isLt
  have he := e.isLt
  rw [BitVec.toNat_sub]
  omega

theorem toNat_add_sub {u e : Word} (h : u.toNat ≤ e.toNat) : u.toNat + (e - u).toNat = e.toNat := by
  have hu := u.isLt
  have he := e.isLt
  rw [BitVec.toNat_sub]
  omega

theorem rangeInside_iff (hal : Aligned (headLength m' 0))
    (hb : headBaseAddr m' 0 = upperStart m elfInfo)
    (hl : headLength m' 0 = upperEnd m upper - upperStart m elfInfo) :
    RangeInside m upper m' ↔ EndsInside m elfInfo upper := by
  constructor
  · rintro ⟨-, -, hwrap, hregion, habove, -⟩
    rw [hb, hl, sub_noWrap_iff] at hwrap
    rw [hb] at habove
    exact ⟨hregion, habove, hwrap⟩
  · rintro ⟨hregion, habove, hbelow⟩
    have hend := upperEnd_toNat hregion
    refine ⟨?_, hal, ?_, hregion, ?_, ?_⟩
    · rw [hb]
      exact roundUpNearestMult_aligned _
    · simpa only [hb, hl, sub_noWrap_iff] using hbelow
    · simpa only [hb] using habove
    · simpa only [hb, hl, toNat_add_sub hbelow] using hend

theorem initLlHeadInfo_inside_iff {head : Word}
    (hrun : initLlHeadInfo 0 elfInfo upper m = .ok head m') :
    RangeInside m upper m' ↔ EndsInside m elfInfo upper := by
  obtain ⟨length, hlength, hal, -, -, rfl⟩ := initLlHeadInfo_eq_ok hrun
  apply rangeInside_iff
  · rw [headLength_setHeadInfo]
    exact hal
  · exact headBaseAddr_setHeadInfo
  · rw [headLength_setHeadInfo, hlength]

/-- Boot information at `0x9000`: lower memory up to `0x4000`, one page of upper memory at
`0x100000`, and two sections, of which the second is given. -/
def tagsBefore (addr size : Word) : Mem :=
  let m : Mem := fun _ => 0
  let m := (m.store64 0x9008 0x4000000006).store64 0x9010 24
  let m := (m.store64 0x9020 0x4000).store64 0x9028 1
  let m := ((m.store64 0x9030 0x100000).store64 0x9038 0x1000).store64 0x9040 1
  let m := (m.store64 0x9048 0x9400000009).store64 0x9050 0x4000000002
  (m.store64 0x90AC addr).store64 0x90BC size

def tagsInfo : BootInfo :=
  ⟨⟨⟨⟨6, 64⟩, 24, 0⟩, 0x9018, 2⟩, ⟨⟨⟨9, 148⟩, 2, 64, 0⟩, 0x905C⟩, 0x9018, 0x9030⟩

/-- Memory when `init_ll_head_info` reads it. -/
def tagsLinked (addr size : Word) : Mem :=
  final (addLowerPages 0 0 (lowerLengthOf (tagsBefore addr size) tagsInfo.lower)
    (initLlHead 0 (tagsBefore addr size)))

def tagsAfter (addr size : Word) : Mem := final (mmuInitPf 4 0x9000 (tagsBefore addr size))

end SkipOS
