import SkipOS.Lib.Bytes
import SkipOS.TagReads

/-! The tags of the boot information as the boot loader lays them out, and the search for
one of them. What a payload holds makes no difference. -/

namespace SkipOS

open Mem Exec

/-- A tag in the boot information, with the bytes that fill it up to a multiple of 8. -/
structure MbTag where
  type : BitVec 32
  payload : List Byte
  padding : List Byte
  size_lt : payload.length + 8 < 2 ^ 32
  padded : payload.length + padding.length = (payload.length + 7) / 8 * 8

namespace MbTag

/-- Header and payload, without the padding. -/
def size (t : MbTag) : Nat := t.payload.length + 8

def bytes (t : MbTag) : List Byte :=
  leBytes 4 t.type.toNat ++ (leBytes 4 t.size ++ (t.payload ++ t.padding))

theorem length_bytes (t : MbTag) : t.bytes.length = (t.size + 7) / 8 * 8 := by
  have hpad := t.padded
  simp only [bytes, List.length_append, length_leBytes, size]
  omega

end MbTag

/-- The bytes of tags that follow each other. -/
def tagBytes (ts : List MbTag) : List Byte := ts.flatMap MbTag.bytes

/-- A list of tags closed by the end tag, the only one of its type. -/
structure TagList where
  tags : List MbTag
  last : MbTag
  tags_type : ∀ t ∈ tags, t.type ≠ endTagType
  last_type : last.type = endTagType

def TagList.all (L : TagList) : List MbTag := L.tags ++ [L.last]

/-- Memory holds the tags behind the fixed header at `start`, all below the top. -/
structure TagList.At (L : TagList) (start : Word) (m : Mem) : Prop where
  holds : m.Holds (start + fixedHeaderSize) (tagBytes L.all)
  noWrap : start.toNat + 8 + (tagBytes L.all).length ≤ 2 ^ 64

variable {m : Mem} {start p : Word} {tagType : BitVec 32} {fuel : Nat} {t : MbTag}
  {ts : List MbTag} {R : Set Word} {bs : List Byte} {L : TagList}

theorem tagBytes_cons (t : MbTag) (ts : List MbTag) :
    tagBytes (t :: ts) = t.bytes ++ tagBytes ts := List.flatMap_cons

theorem tagBytes_append (ts us : List MbTag) :
    tagBytes (ts ++ us) = tagBytes ts ++ tagBytes us := List.flatMap_append

theorem MbTag.load_type (h : m.Holds p (t.bytes ++ bs)) : m.load32 p = t.type :=
  (holds_append.mp (holds_append.mp h).1).1.load32

theorem MbTag.load_size (h : m.Holds p (t.bytes ++ bs)) :
    (m.load32 (p + 4)).toNat = t.size := by
  have hsize := (holds_append.mp (holds_append.mp (holds_append.mp h).1).2).1
  rw [length_leBytes] at hsize
  have hlt : t.size < 2 ^ 32 := t.size_lt
  have hval : t.size = (BitVec.ofNat 32 t.size).toNat := (toNat_ofNat_of_lt hlt).symm
  rw [hval] at hsize
  rw [show p + 4 = p + BitVec.ofNat 64 4 from rfl, hsize.load32, ← hval]

theorem nextTag_eq (h : m.Holds p (t.bytes ++ bs)) :
    nextTag m p = p + BitVec.ofNat 64 t.bytes.length := by
  have hround := roundUp_eight (m.load32 (p + 4))
  rw [t.load_size h, ← t.length_bytes] at hround
  rw [nextTag]
  congr 1
  rw [← hround, BitVec.ofNat_toNat, BitVec.setWidth_eq]

/-- One round over a tag that is neither sought nor the last. -/
theorem findTagLoop_skip (fuel : Nat) (h : m.Holds p (tagBytes (t :: ts)))
    (hne : t.type ≠ tagType) (hend : t.type ≠ endTagType) :
    findTagLoop m tagType (fuel + 1) p =
      findTagLoop m tagType fuel (p + BitVec.ofNat 64 t.bytes.length) ∧
    m.Holds (p + BitVec.ofNat 64 t.bytes.length) (tagBytes ts) := by
  rw [tagBytes_cons] at h
  refine ⟨?_, (holds_append.mp h).2⟩
  rw [findTagLoop_succ, t.load_type h, if_neg hne, if_neg hend, nextTag_eq h]

theorem findTagLoop_skip_all {pre post : List MbTag} (fuel : Nat)
    (h : m.Holds p (tagBytes (pre ++ post))) (hne : ∀ t ∈ pre, t.type ≠ tagType)
    (hend : ∀ t ∈ pre, t.type ≠ endTagType) :
    findTagLoop m tagType (pre.length + fuel) p =
      findTagLoop m tagType fuel (p + BitVec.ofNat 64 (tagBytes pre).length) ∧
    m.Holds (p + BitVec.ofNat 64 (tagBytes pre).length) (tagBytes post) := by
  induction pre generalizing p with
  | nil =>
    have hz : p + BitVec.ofNat 64 (tagBytes []).length = p := BitVec.add_zero p
    rw [hz, List.length_nil, Nat.zero_add]
    exact ⟨rfl, h⟩
  | cons t pre ih =>
    obtain ⟨hne0, hne⟩ := List.forall_mem_cons.mp hne
    obtain ⟨hend0, hend⟩ := List.forall_mem_cons.mp hend
    obtain ⟨hstep, hrest⟩ := findTagLoop_skip (pre.length + fuel) h hne0 hend0
    obtain ⟨hloop, hpost⟩ := ih hrest hne hend
    have hpos : p + BitVec.ofNat 64 t.bytes.length + BitVec.ofNat 64 (tagBytes pre).length =
        p + BitVec.ofNat 64 (tagBytes (t :: pre)).length := by
      rw [tagBytes_cons, List.length_append, BitVec.ofNat_add, BitVec.add_assoc]
    rw [hpos] at hloop hpost
    rw [List.length_cons, Nat.add_right_comm]
    exact ⟨hstep.trans hloop, hpost⟩

section Search

variable {pre post : List MbTag} (hL : L.At start m) (hfuel : L.all.length ≤ fuel)

include hL hfuel

theorem TagList.At.loop_first (hall : L.all = pre ++ t :: post) (htype : t.type = tagType)
    (hne : ∀ u ∈ pre, u.type ≠ tagType) :
    findTagLoop m tagType fuel (start + fixedHeaderSize) =
      .ok (start + fixedHeaderSize + BitVec.ofNat 64 (tagBytes pre).length) := by
  have htags : L.tags = pre ++ (t :: post).dropLast := by
    have hdrop := congrArg List.dropLast hall
    rwa [TagList.all, List.dropLast_concat,
      List.dropLast_append_of_ne_nil (List.cons_ne_nil t post)] at hdrop
  have hend : ∀ u ∈ pre, u.type ≠ endTagType := fun u hu =>
    L.tags_type u (htags ▸ List.mem_append_left _ hu)
  have hm := hL.holds
  rw [hall] at hm hfuel
  obtain ⟨rounds, rfl⟩ : ∃ rounds, fuel = pre.length + (rounds + 1) := by
    rw [List.length_append, List.length_cons] at hfuel
    exact ⟨fuel - pre.length - 1, by omega⟩
  obtain ⟨hloop, hrest⟩ := findTagLoop_skip_all (rounds + 1) hm hne hend
  rw [tagBytes_cons] at hrest
  rw [hloop, findTagLoop_succ, t.load_type hrest, if_pos htype]

theorem TagList.At.loop_none (hne : ∀ u ∈ L.all, u.type ≠ tagType) :
    findTagLoop m tagType fuel (start + fixedHeaderSize) = .ok 0 := by
  have hlast : L.last.type ≠ tagType := hne _ (List.mem_append_right _ List.mem_cons_self)
  obtain ⟨rounds, rfl⟩ : ∃ rounds, fuel = L.tags.length + (rounds + 1) := by
    rw [TagList.all, List.length_append, List.length_singleton] at hfuel
    exact ⟨fuel - L.tags.length - 1, by omega⟩
  obtain ⟨hloop, hrest⟩ := findTagLoop_skip_all (rounds + 1) hL.holds
    (fun u hu => hne u (List.mem_append_left _ hu)) L.tags_type
  rw [tagBytes_cons] at hrest
  rw [hloop, findTagLoop_succ, L.last.load_type hrest, if_neg hlast, if_pos L.last_type]

end Search

theorem TagList.At.tag_ne_zero {pre post : List MbTag} (hL : L.At start m)
    (hall : L.all = pre ++ t :: post) :
    start + fixedHeaderSize + BitVec.ofNat 64 (tagBytes pre).length ≠ 0 := by
  have hfit := hL.noWrap
  have ht := t.length_bytes
  rw [MbTag.size] at ht
  rw [hall, tagBytes_append, tagBytes_cons, List.length_append, List.length_append] at hfit
  rw [fixedHeaderSize]
  bv_omega

/-- On tags laid out by the boot loader the search returns the first tag of the type, and
NULL just when there is none. -/
theorem find_tag_first (hL : L.At start m) (hfuel : L.all.length ≤ fuel) :
    ∃ p, findTag fuel start tagType m = .ok p m ∧
      (p = 0 ↔ ∀ t ∈ L.all, t.type ≠ tagType) ∧
      ∀ pre t post, L.all = pre ++ t :: post → t.type = tagType →
        (∀ u ∈ pre, u.type ≠ tagType) →
          p = start + fixedHeaderSize + BitVec.ofNat 64 (tagBytes pre).length := by
  simp only [findTag_ok_iff]
  cases hfind : L.all.find? fun t => t.type = tagType with
  | none =>
    have hne : ∀ t ∈ L.all, t.type ≠ tagType := fun t ht => by
      simpa using List.find?_eq_none.mp hfind t ht
    refine ⟨0, hL.loop_none hfuel hne, iff_of_true rfl hne, fun pre t post hall htype _ => ?_⟩
    exact absurd htype (hne t (hall ▸ List.mem_append_right _ List.mem_cons_self))
  | some t =>
    obtain ⟨htype, pre, post, hall, hpre⟩ := List.find?_eq_some_iff_append.mp hfind
    have htype : t.type = tagType := of_decide_eq_true htype
    have hne : ∀ u ∈ pre, u.type ≠ tagType := fun u hu => by simpa using hpre u hu
    have hloop := hL.loop_first hfuel hall htype hne
    refine ⟨_, hloop, iff_of_false (hL.tag_ne_zero hall) ?_, ?_⟩
    · intro hall'
      exact hall' t (hall ▸ List.mem_append_right _ List.mem_cons_self) htype
    · intro pre' t' post' hall' htype' hne'
      exact Except.ok.inj (hloop.symm.trans (hL.loop_first hfuel hall' htype' hne'))

/-- A tag without a payload. -/
def bareTag (type : BitVec 32) : MbTag := ⟨type, [], [], by decide, by decide⟩

/-- A payload that reads like the header of a memory map tag. -/
def lookalikeTag : MbTag :=
  ⟨1, [6, 0, 0, 0, 8, 0, 0, 0, 7], [0, 0, 0, 0, 0, 0, 0], by decide, by decide⟩

def lookalikeTags : TagList where
  tags := [lookalikeTag, bareTag 6]
  last := bareTag 0
  tags_type := by decide
  last_type := rfl

def lookalikeMem : Mem := ofBytes 0x10008 (tagBytes lookalikeTags.all)

theorem lookalikeTags_at : lookalikeTags.At 0x10000 lookalikeMem :=
  ⟨holds_ofBytes _ (by decide), by decide⟩

theorem find_tag_first_lookalike :
    findTag 3 0x10000 mmapTagType lookalikeMem = .ok 0x10020 lookalikeMem := by
  obtain ⟨p, hok, -, hfirst⟩ : ∃ p, findTag 3 0x10000 mmapTagType lookalikeMem = .ok p lookalikeMem ∧
      _ ∧ _ := find_tag_first lookalikeTags_at (Nat.le_refl 3)
  rwa [hfirst [lookalikeTag] (bareTag 6) [bareTag 0] rfl rfl (by decide)] at hok

/-- Tags in `R` lead to the end tag there. -/
theorem tagChain_of_holds (hm : m.Holds p (tagBytes (ts ++ [t])))
    (hts : ∀ u ∈ ts, u.type ≠ endTagType) (ht : t.type = endTagType)
    (hR : span p (tagBytes (ts ++ [t])).length ⊆ R) : TagChain m R p := by
  induction ts generalizing p with
  | nil =>
    rw [List.nil_append, tagBytes_cons] at hm hR
    have hlen := t.length_bytes
    rw [MbTag.size] at hlen
    refine .ended ((t.load_type hm).trans ht) ((span_mono ?_).trans hR)
    rw [List.length_append]
    omega
  | cons u ts ih =>
    obtain ⟨hu, hts⟩ := List.forall_mem_cons.mp hts
    rw [List.cons_append, tagBytes_cons] at hm hR
    rw [List.length_append] at hR
    have hlen := u.length_bytes
    rw [MbTag.size] at hlen
    refine .next (by rwa [u.load_type hm]) ((span_mono (by omega)).trans hR) ?_
    rw [nextTag_eq hm]
    refine ih (holds_append.mp hm).2 hts ((span_offset_subset ?_).trans hR)
    rw [BitVec.toNat_ofNat]
    exact Nat.add_le_add_right (Nat.mod_le _ _) _

/-- Tags that fill no more than the announced size are searched without leaving it. -/
theorem find_tag_within_tags (hL : L.At start m)
    (hsize : 8 + (tagBytes L.all).length ≤ (m.load32 start).toNat) :
    ∀ tagType, FindsWithin m start tagType := by
  intro tagType
  have hsub : span (start + fixedHeaderSize) (tagBytes L.all).length ⊆ bootStructure m start :=
    span_offset_subset hsize
  exact findsWithin_iff.mpr (tagChain_of_holds hL.holds L.tags_type L.last_type hsub).walk

end SkipOS
