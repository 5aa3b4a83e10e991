import SkipOS.Lib.Loads
import SkipOS.PfAlloc
import Mathlib.Data.Finset.Card

/-! Where `find_tag` reads. The total size announced in front of the tags is not among
the things it looks at: only the tags themselves decide where the walk goes and ends. -/

namespace SkipOS

open Mem Exec

def loadBasicTag (p : Word) : Loader BasicTag := do
  let type ← Loader.load32 p
  let size ← Loader.load32 (p + 4)
  return ⟨type, size⟩

/-- The loop of `find_tag` with each of its loads. -/
def findTagLoads (tagType : BitVec 32) : Nat → Word → Loader (Except Stop Word)
  | 0, _ => pure (.error .fuel)
  | fuel + 1, curr => do
    if (← Loader.load32 curr) = tagType then return .ok curr
    else
      let basicTag ← loadBasicTag curr
      let curr := curr + roundUpNearestMult (basicTag.size.setWidth 64) 8
      if basicTag.type = endTagType then return .ok 0 else findTagLoads tagType fuel curr

/-- Where the tag after the one at `p` starts. -/
def nextTag (m : Mem) (p : Word) : Word :=
  p + roundUpNearestMult ((m.load32 (p + 4)).setWidth 64) 8

/-- The bytes of the boot information: its first word announces how many they are. -/
def bootStructure (m : Mem) (start : Word) : Set Word := span start (m.load32 start).toNat

/-- `find_tag` returns and has only read bytes of the boot information. -/
def FindsWithin (m : Mem) (start : Word) (tagType : BitVec 32) : Prop :=
  ∃ fuel p, findTag fuel start tagType m = .ok p m ∧
    (findTagLoads tagType fuel (start + fixedHeaderSize)).Within m (bootStructure m start)

/-- From `p` the tags lead to one of the type or to the end tag, all headers in `R`. -/
inductive TagWalk (m : Mem) (tagType : BitVec 32) (R : Set Word) : Word → Prop
  | found {p : Word} (htype : m.load32 p = tagType) (hin : span p 4 ⊆ R) : TagWalk m tagType R p
  | ended {p : Word} (hne : m.load32 p ≠ tagType) (hend : m.load32 p = endTagType)
      (hin : span p 8 ⊆ R) : TagWalk m tagType R p
  | next {p : Word} (hne : m.load32 p ≠ tagType) (hend : m.load32 p ≠ endTagType)
      (hin : span p 8 ⊆ R) (hnext : TagWalk m tagType R (nextTag m p)) : TagWalk m tagType R p

/-- From `p` the tags lead to the end tag, all headers in `R`. -/
inductive TagChain (m : Mem) (R : Set Word) : Word → Prop
  | ended {p : Word} (hend : m.load32 p = endTagType) (hin : span p 8 ⊆ R) : TagChain m R p
  | next {p : Word} (hend : m.load32 p ≠ endTagType) (hin : span p 8 ⊆ R)
      (hnext : TagChain m R (nextTag m p)) : TagChain m R p

variable {m : Mem} {R : Set Word} {start p q : Word} {tagType : BitVec 32} {fuel : Nat}

theorem findTagLoads_run :
    (findTagLoads tagType fuel p).run m = findTagLoop m tagType fuel p := by
  induction fuel generalizing p with
  | zero => rfl
  | succ fuel ih =>
    simp only [findTagLoads, findTagLoop, loadBasicTag, readBasicTag, Loader.run_bind,
      Loader.run_load32, Loader.run_ite, Loader.run_pure, ih]
    rfl

theorem span_eight_subset : span p 8 ⊆ R ↔ span p 4 ⊆ R ∧ span (p + 4) 4 ⊆ R := by
  have hsplit : span p 8 = span p 4 ∪ span (p + 4) 4 := by
    ext b
    simp only [Set.mem_union, mem_span]
    bv_omega
  rw [hsplit, Set.union_subset_iff]

/-- One round: only a tag that does not match is read further than its type. -/
theorem findTagLoads_within_succ : (findTagLoads tagType (fuel + 1) p).Within m R ↔
    span p 4 ⊆ R ∧ (m.load32 p ≠ tagType → span p 8 ⊆ R ∧
      (m.load32 p ≠ endTagType → (findTagLoads tagType fuel (nextTag m p)).Within m R)) := by
  simp only [findTagLoads, loadBasicTag, Loader.within_bind, Loader.within_load32,
    Loader.run_load32, Loader.within_ite, Loader.within_pure, Loader.run_bind, Loader.run_pure,
    span_eight_subset, nextTag]
  by_cases h : m.load32 p = tagType <;> by_cases h0 : m.load32 p = endTagType <;> simp [h, h0]

theorem findTagLoop_succ : findTagLoop m tagType (fuel + 1) p =
    if m.load32 p = tagType then .ok p
    else if m.load32 p = endTagType then .ok 0 else findTagLoop m tagType fuel (nextTag m p) := rfl

theorem findTag_ok_iff : findTag fuel start tagType m = .ok p m ↔
    findTagLoop m tagType fuel (start + fixedHeaderSize) = .ok p := by
  rw [findTag, bind_get]
  cases findTagLoop m tagType fuel (start + fixedHeaderSize) with
  | ok q => simp
  | error e => simp

theorem tagWalk_iff : (∃ fuel p, findTagLoop m tagType fuel q = .ok p ∧
    (findTagLoads tagType fuel q).Within m R) ↔ TagWalk m tagType R q := by
  constructor
  · rintro ⟨fuel, p, hok, hin⟩
    induction fuel generalizing q with
    | zero => cases hok
    | succ fuel ih =>
      rw [findTagLoop_succ] at hok
      obtain ⟨h4, hrest⟩ := findTagLoads_within_succ.mp hin
      by_cases htype : m.load32 q = tagType
      · exact .found htype h4
      · obtain ⟨h8, hnext⟩ := hrest htype
        rw [if_neg htype] at hok
        by_cases hend : m.load32 q = endTagType
        · exact .ended htype hend h8
        · rw [if_neg hend] at hok
          exact .next htype hend h8 (ih hok (hnext hend))
  · intro h
    induction h with
    | found htype hin =>
      refine ⟨1, _, (findTagLoop_succ).trans (if_pos htype), findTagLoads_within_succ.mpr ⟨hin, ?_⟩⟩
      exact fun hne => absurd htype hne
    | ended hne hend hin =>
      refine ⟨1, 0, ?_, findTagLoads_within_succ.mpr ⟨(span_mono (by decide)).trans hin, ?_⟩⟩
      · rw [findTagLoop_succ, if_neg hne, if_pos hend]
      · exact fun _ => ⟨hin, fun h => absurd hend h⟩
    | next hne hend hin _ ih =>
      obtain ⟨fuel, p, hok, hloads⟩ := ih
      refine ⟨fuel + 1, p, ?_, findTagLoads_within_succ.mpr ⟨(span_mono (by decide)).trans hin, ?_⟩⟩
      · rw [findTagLoop_succ, if_neg hne, if_neg hend, hok]
      · exact fun _ => ⟨hin, fun _ => hloads⟩

theorem findsWithin_iff : FindsWithin m start tagType ↔
    TagWalk m tagType (bootStructure m start) (start + fixedHeaderSize) := by
  simp only [FindsWithin, findTag_ok_iff, tagWalk_iff]

theorem TagChain.walk (h : TagChain m R p) : TagWalk m tagType R p := by
  induction h with
  | @ended p hend hin =>
    by_cases htype : m.load32 p = tagType
    · exact .found htype ((span_mono (by decide)).trans hin)
    · exact .ended htype hend hin
  | @next p hend hin _ ih =>
    by_cases htype : m.load32 p = tagType
    · exact .found htype ((span_mono (by decide)).trans hin)
    · exact .next htype hend hin ih

/-! Tags start at multiples of 8 from the first, so there are fewer places for one than types. -/

theorem roundUp_eight (size : BitVec 32) :
    (roundUpNearestMult (size.setWidth 64) 8).toNat = (size.toNat + 7) / 8 * 8 := by
  have h8 : (8 : Word).toNat = 8 := rfl
  have hs := size.isLt
  have hw : (size.setWidth 64).toNat = size.toNat := by
    rw [BitVec.toNat_setWidth, Nat.mod_eq_of_lt (by omega)]
  have hmod : (size.setWidth 64 % (8 : Word)).toNat = size.toNat % 8 := by
    rw [BitVec.toNat_umod, hw, h8]
  by_cases hr : size.setWidth 64 % (8 : Word) = 0
  · have hr0 : size.toNat % 8 = 0 := hmod.symm.trans (congrArg BitVec.toNat hr)
    rw [roundUpNearestMult, if_neg (not_not_intro hr), hw]
    omega
  · have hr0 : size.toNat % 8 ≠ 0 := fun h => hr (BitVec.eq_of_toNat_eq (hmod.trans h))
    rw [roundUpNearestMult, if_pos hr, BitVec.toNat_add, BitVec.toNat_sub, hmod, hw, h8]
    omega

/-- Of the tags that can start within 4 GiB from `start` none has some type. -/
theorem exists_absent_type (m : Mem) (start : Word) :
    ∃ t : BitVec 32, ∀ k < 2 ^ 29, m.load32 (start + BitVec.ofNat 64 (8 * k)) ≠ t := by
  let typeAt (k : Nat) : Nat := (m.load32 (start + BitVec.ofNat 64 (8 * k))).toNat
  let used : Finset Nat := (Finset.range (2 ^ 29)).image typeAt
  have hused : used.card < (Finset.range (used.card + 1)).card := by
    rw [Finset.card_range]
    exact Nat.lt_succ_self _
  obtain ⟨t, hlt, ht⟩ := Finset.exists_mem_notMem_of_card_lt_card hused
  have hcard : used.card ≤ 2 ^ 29 := Finset.card_image_le.trans_eq (Finset.card_range _)
  have htn : (BitVec.ofNat 32 t).toNat = t := by
    rw [Finset.mem_range] at hlt
    rw [toNat_ofNat_of_lt (by omega)]
  refine ⟨BitVec.ofNat 32 t, fun k hk hkt => ht ?_⟩
  have htype : typeAt k = t := (congrArg BitVec.toNat hkt).trans htn
  exact Finset.mem_image.mpr ⟨k, Finset.mem_range.mpr hk, htype⟩

/-- A walk for a type that no tag has can only end at the end tag. -/
theorem TagWalk.chain {total : Nat} (h : TagWalk m tagType R p) (hR : R ⊆ span start total)
    (htotal : total < 2 ^ 32) (hp : (p - start).toNat % 8 = 0)
    (habsent : ∀ k < 2 ^ 29, m.load32 (start + BitVec.ofNat 64 (8 * k)) ≠ tagType) :
    TagChain m R p := by
  induction h with
  | @found p htype hin =>
    have hlt : (p - start).toNat < total := hR (hin (mem_span_self (by decide)))
    have hpk : start + BitVec.ofNat 64 (8 * ((p - start).toNat / 8)) = p := by
      rw [Nat.mul_div_cancel' (Nat.dvd_of_mod_eq_zero hp)]
      bv_omega
    refine absurd htype ?_
    rw [← hpk]
    exact habsent _ (by omega)
  | ended _ hend hin => exact .ended hend hin
  | @next p _ hend hin _ ih =>
    refine .next hend hin (ih ?_)
    have hround := roundUp_eight (m.load32 (p + 4))
    rw [nextTag]
    bv_omega

/-- `find_tag` stays inside the boot information and ends just when the tags lead to a tag
of the type or the end tag there, and for every type just when they lead to the end tag. -/
theorem find_tag_within (m : Mem) (start : Word) :
    (∀ tagType, FindsWithin m start tagType ↔
      TagWalk m tagType (bootStructure m start) (start + fixedHeaderSize)) ∧
    ((∀ tagType, FindsWithin m start tagType) ↔
      TagChain m (bootStructure m start) (start + fixedHeaderSize)) := by
  refine ⟨fun tagType => findsWithin_iff, ?_, fun h tagType => findsWithin_iff.mpr h.walk⟩
  intro hall
  obtain ⟨t, habsent⟩ := exists_absent_type m start
  have hfix : (start + fixedHeaderSize - start).toNat % 8 = 0 := by
    rw [fixedHeaderSize]
    bv_omega
  exact (findsWithin_iff.mp (hall t)).chain Set.Subset.rfl (BitVec.isLt _) hfix habsent

theorem TagWalk.mem (h : TagWalk m tagType R p) : p ∈ R := by
  cases h with
  | found _ hin => exact hin (mem_span_self (by decide))
  | ended _ _ hin => exact hin (mem_span_self (by decide))
  | next _ _ hin _ => exact hin (mem_span_self (by decide))

theorem TagWalk.advances (h : TagWalk m tagType R p) :
    m.load32 p = tagType ∨ m.load32 p = endTagType ∨ nextTag m p ≠ p := by
  induction h with
  | found htype _ => exact Or.inl htype
  | ended _ hend _ => exact Or.inr (Or.inl hend)
  | @next p _ _ _ _ ih =>
    by_cases hp : nextTag m p = p
    · rwa [hp] at ih
    · exact Or.inr (Or.inr hp)

/-- 24 bytes announced, with a tag of type 1 and size 0 before the end tag. -/
def zeroSizeTags : Mem :=
  let m : Mem := fun _ => 0
  (m.store64 0x10000 24).store64 0x10008 1

/-- 16 bytes announced, all taken by a tag of type 1 and size 8. -/
def unendedTags : Mem :=
  let m : Mem := fun _ => 0
  (m.store64 0x10000 16).store64 0x10008 0x800000001

/-- The first search never ends and the second reads behind the structure. -/
theorem find_tag_not_within : ¬ FindsWithin zeroSizeTags 0x10000 mmapTagType ∧
    ¬ FindsWithin unendedTags 0x10000 mmapTagType := by
  simp only [findsWithin_iff]
  constructor
  · intro h
    rcases h.advances with htype | hend | hnext
    · exact absurd htype (by decide +kernel)
    · exact absurd hend (by decide +kernel)
    · exact hnext (by decide +kernel)
  · intro h
    cases h with
    | found htype _ => exact absurd htype (by decide +kernel)
    | ended _ hend _ => exact absurd hend (by decide +kernel)
    | next _ _ _ hnext =>
      have hmem := hnext.mem
      rw [bootStructure, mem_span] at hmem
      exact absurd hmem (by decide +kernel)

end SkipOS
