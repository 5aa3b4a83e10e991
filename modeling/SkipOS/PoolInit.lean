import SkipOS.PoolOps

/-! What a completed `init_pool` leaves in memory: a well-formed list of the lower
pages and a page-aligned range above it. -/

namespace SkipOS

open Mem Exec

variable {m m' : Mem} {l : List Word} {p head lowerLength : Word}

theorem initLlHead_ring (m : Mem) : LlRing (initLlHead 0 m) [] := by
  have hz := aligned_zero
  refine Ring.isRing_nil.mpr ⟨?_, field_setField_self _ _ _ _⟩
  rw [initLlHead, llNext_setLlPrev hz hz]
  exact field_setField_self _ _ _ _

/-- The bytes of the link words at the start of the pages. -/
def linkBytes (l : List Word) : Set Word := {a | ∃ p ∈ l, a ∈ span p 16}

theorem linkBytes_mono {l l' : List Word} (h : l ⊆ l') : linkBytes l ⊆ linkBytes l' :=
  fun _ ⟨p, hp, ha⟩ => ⟨p, h hp, ha⟩

theorem setLlNext_eqOn_links {v : Word} (hp : p ∈ l) :
    Set.EqOn (setLlNext p v m) m (linkBytes l)ᶜ := by
  refine (setField_eqOn_compl m p 0 v).mono (Set.compl_subset_compl.mpr fun a ha => ?_)
  exact ⟨p, hp, span_offset_subset (by decide) ha⟩

theorem setLlPrev_eqOn_links {v : Word} (hp : p ∈ l) :
    Set.EqOn (setLlPrev p v m) m (linkBytes l)ᶜ := by
  refine (setField_eqOn_compl m p 8 v).mono (Set.compl_subset_compl.mpr fun a ha => ?_)
  exact ⟨p, hp, span_offset_subset (by decide) ha⟩

theorem initLlHead_eqOn_links (m : Mem) : Set.EqOn (initLlHead 0 m) m (linkBytes [0])ᶜ :=
  (setLlPrev_eqOn_links List.mem_cons_self).trans (setLlNext_eqOn_links List.mem_cons_self)

theorem addElem_eqOn_links {e : Word} (h : LlRing m l) (he : Aligned e) (h0 : e ≠ 0) :
    Set.EqOn (addElem 0 e m) m (linkBytes (0 :: (l ++ [e])))ᶜ := by
  have hem : e ∈ 0 :: (l ++ [e]) := by simp
  have ht : llPrev m 0 ∈ 0 :: (l ++ [e]) := by
    rw [← List.cons_append]
    exact List.mem_append_left _ h.tail_mem
  rw [addElem_eq aligned_zero he h0]
  have h1 := setLlNext_eqOn_links (m := m) (v := 0) hem
  have h2 := (setLlPrev_eqOn_links (v := llPrev m 0) hem).trans h1
  have h3 := (setLlNext_eqOn_links (v := e) ht).trans h2
  exact (setLlPrev_eqOn_links List.mem_cons_self).trans h3

/-- What the loop of `add_lower_pages` needs of the list and the next address. -/
structure LowerLoop (m : Mem) (l : List Word) (curr : Word) : Prop where
  ring : LlRing m l
  nodup : (0 :: l).Nodup
  aligned : ∀ x ∈ l, Aligned x
  below : ∀ x ∈ l, x.toNat < curr.toNat
  curr_aligned : Aligned curr
  curr_pos : curr ≠ 0

theorem LowerLoop.step {curr : Word} (h : LowerLoop m l curr) (hl : Aligned lowerLength)
    (hlt : curr < lowerLength) : LowerLoop (addElem 0 curr m) (l ++ [curr]) (curr + pageSize) := by
  have hc := h.curr_aligned
  have hnm : curr ∉ l := fun hm => Nat.lt_irrefl _ (h.below curr hm)
  have hnext : (curr + pageSize).toNat = curr.toNat + 4096 := by
    have hll := lowerLength.isLt
    simp only [Aligned] at hl hc
    simp only [pageSize]
    bv_omega
  refine ⟨addElem_ring h.ring h.nodup h.aligned hc h.curr_pos hnm, ?_, ?_, ?_, ?_, ?_⟩
  · rw [← List.cons_append, List.nodup_append]
    refine ⟨h.nodup, List.nodup_singleton _, ?_⟩
    intro x hx y hy
    rw [List.mem_singleton.mp hy]
    rcases List.mem_cons.mp hx with rfl | hx
    · exact h.curr_pos.symm
    · exact fun he => hnm (he ▸ hx)
  · intro x hx
    rcases List.mem_append.mp hx with hx | hx
    · exact h.aligned x hx
    · exact List.mem_singleton.mp hx ▸ hc
  · intro x hx
    rw [hnext]
    rcases List.mem_append.mp hx with hx | hx
    · have := h.below x hx
      omega
    · rw [List.mem_singleton.mp hx]
      omega
  · simp only [Aligned] at hc ⊢
    omega
  · intro he
    rw [he] at hnext
    simp at hnext

/-- The loop adds consecutive pages and stops at the first address not below the length. -/
theorem addLowerPagesLoop_spec {fuel : Nat} {curr cnt c n : Word} (hl : Aligned lowerLength)
    (h : LowerLoop m l curr)
    (hrun : addLowerPagesLoop 0 lowerLength fuel curr cnt m = .ok (c, n) m') :
    ∃ k, LowerLoop m' (l ++ pagesFrom curr k) c ∧ c.toNat = curr.toNat + 4096 * k ∧
      Set.EqOn m' m (linkBytes (0 :: (l ++ pagesFrom curr k)))ᶜ := by
  induction fuel generalizing m l curr cnt with
  | zero =>
    by_cases hlt : curr < lowerLength
    · simp [addLowerPagesLoop, hlt] at hrun
    · simp only [addLowerPagesLoop, hlt, if_false, pure_apply, EStateM.Result.ok.injEq,
        Prod.mk.injEq] at hrun
      obtain ⟨⟨rfl, rfl⟩, rfl⟩ := hrun
      exact ⟨0, by simpa [pagesFrom] using h, by simp, fun _ _ => rfl⟩
  | succ fuel ih =>
    by_cases hlt : curr < lowerLength
    · simp only [addLowerPagesLoop, hlt, if_true, bind_modify] at hrun
      obtain ⟨k, hk, hc, he⟩ := ih (h.step hl hlt) hrun
      have hpages : l ++ [curr] ++ pagesFrom (curr + pageSize) k = l ++ pagesFrom curr (k + 1) := by
        rw [pagesFrom, List.append_assoc, List.singleton_append]
      rw [hpages] at hk he
      refine ⟨k + 1, hk, ?_, he.trans ?_⟩
      · have hca := h.curr_aligned
        have hll := lowerLength.isLt
        simp only [Aligned] at hl hca
        simp only [pageSize] at hc
        bv_omega
      · refine (addElem_eqOn_links h.ring h.curr_aligned h.curr_pos).mono
          (Set.compl_subset_compl.mpr (linkBytes_mono ?_))
        rw [← hpages]
        exact List.cons_subset_cons 0 (List.subset_append_left _ _)
    · simp only [addLowerPagesLoop, hlt, if_false, pure_apply, EStateM.Result.ok.injEq,
        Prod.mk.injEq] at hrun
      obtain ⟨⟨rfl, rfl⟩, rfl⟩ := hrun
      exact ⟨0, by simpa [pagesFrom] using h, by simp, fun _ _ => rfl⟩

/-- The pages of the lower region but the first, which holds the head. -/
def lowerPages (lowerLength : Word) : List Word :=
  pagesFrom pageSize (lowerLength.toNat / 4096 - 1)

theorem addLowerPages_spec (hl : Aligned lowerLength) (h : LlRing m [])
    (hrun : addLowerPages 0 0 lowerLength m = .ok () m') :
    LlRing m' (lowerPages lowerLength) ∧ (0 :: lowerPages lowerLength).Nodup ∧
      (∀ x ∈ lowerPages lowerLength, Aligned x) ∧ 4096 ≤ lowerLength.toNat ∧
      Set.EqOn m' m (linkBytes (0 :: lowerPages lowerLength))ᶜ := by
  obtain ⟨⟨c, n⟩, m1, hloop, hrest⟩ := bind_eq_ok.mp hrun
  obtain ⟨_, m2, hcurr, hcnt⟩ := bind_eq_ok.mp hrest
  obtain ⟨hc, rfl⟩ := assert_eq_ok.mp hcurr
  obtain ⟨-, rfl⟩ := assert_eq_ok.mp hcnt
  have hstart : LowerLoop m [] (0 + pageSize) :=
    ⟨h, by simp, by simp, by simp, by decide, by decide⟩
  obtain ⟨k, hk, hck, he⟩ := addLowerPagesLoop_spec hl hstart hloop
  have hp : (0 + pageSize).toNat = 4096 := by decide
  rw [hc, hp] at hck
  have hkn : k = lowerLength.toNat / 4096 - 1 := by omega
  rw [hkn] at hk he
  exact ⟨hk.ring, hk.nodup, hk.aligned, by omega, he⟩

theorem toNat_umod_pageSize (v : Word) : (v % pageSize).toNat = v.toNat % 4096 := by
  simp [pageSize, BitVec.toNat_umod]

theorem umod_pageSize_eq_zero {v : Word} : v % pageSize = 0 ↔ Aligned v := by
  rw [Aligned, ← toNat_umod_pageSize]
  exact ⟨fun h => by rw [h]; rfl, fun h => BitVec.eq_of_toNat_eq h⟩

theorem roundDownNearestMult_aligned (v : Word) : Aligned (roundDownNearestMult v pageSize) := by
  have hm := toNat_umod_pageSize v
  rw [Aligned, roundDownNearestMult]
  bv_omega

theorem roundUpNearestMult_aligned (v : Word) : Aligned (roundUpNearestMult v pageSize) := by
  have hm := toNat_umod_pageSize v
  have hp : pageSize.toNat = 4096 := rfl
  rw [roundUpNearestMult]
  by_cases h : v % pageSize = 0
  · rw [if_neg (not_not_intro h)]
    exact umod_pageSize_eq_zero.mp h
  · rw [if_pos h, Aligned]
    bv_omega

theorem field_setField_head {c d v : Word} (hc : IsSlot c) (hd : IsSlot d) (h : c ≠ d) :
    (m.setField 0 c v).field 0 d = m.field 0 d :=
  field_setField_of_ne aligned_zero aligned_zero hc hd (Or.inr h)

theorem LlRing.setField {c v : Word} (h : LlRing m l) (hal : ∀ x ∈ l, Aligned x)
    (hc : IsSlot c) (h0 : c ≠ 0) (h8 : c ≠ 8) : LlRing (m.setField 0 c v) l := by
  have hal' : ∀ x ∈ 0 :: l, Aligned x := List.forall_mem_cons.mpr ⟨aligned_zero, hal⟩
  refine Ring.IsRing.congr h (fun x hx => ?_) (fun x hx => ?_)
  · exact field_setField_of_ne aligned_zero (hal' x hx) hc (by decide) (Or.inr h0)
  · exact field_setField_of_ne aligned_zero (hal' x hx) hc (by decide) (Or.inr h8)

/-- The section header listed last. -/
def finalSec (elfInfo : ElfInfo) : Word :=
  elfInfo.secHeadEntArr + sizeofSecHeadEnt * (elfInfo.elfTag.numSecHeadEnts - 1).setWidth 64

/-- The first page boundary from the end of the last section on. -/
def upperStart (m : Mem) (elfInfo : ElfInfo) : Word :=
  roundUpNearestMult (secHeadAddr m (finalSec elfInfo) + secHeadSize m (finalSec elfInfo)) pageSize

/-- The last page boundary of the upper region. -/
def upperEnd (m : Mem) (upper : Word) : Word :=
  roundDownNearestMult (memInfoLength m upper + memInfoBase m upper) pageSize

/-- The three members of the head behind its links. -/
def setHeadInfo (base length count : Word) (m : Mem) : Mem :=
  setHeadUnpooledPageCnt 0 count (setHeadLength 0 length (setHeadBaseAddr 0 base m))

section SetHeadInfo

variable {base length count : Word}

theorem headBaseAddr_setHeadInfo : headBaseAddr (setHeadInfo base length count m) 0 = base := by
  have h1 : headBaseAddr (setHeadBaseAddr 0 base m) 0 = base := field_setField_self _ _ _ _
  have h2 : ∀ a, headBaseAddr (setHeadLength 0 length a) 0 = headBaseAddr a 0 :=
    fun _ => field_setField_head (by decide) (by decide) (by decide)
  have h3 : ∀ a, headBaseAddr (setHeadUnpooledPageCnt 0 count a) 0 = headBaseAddr a 0 :=
    fun _ => field_setField_head (by decide) (by decide) (by decide)
  rw [setHeadInfo, h3, h2, h1]

theorem headLength_setHeadInfo : headLength (setHeadInfo base length count m) 0 = length := by
  have h2 : ∀ a, headLength (setHeadLength 0 length a) 0 = length :=
    fun _ => field_setField_self _ _ _ _
  have h3 : ∀ a, headLength (setHeadUnpooledPageCnt 0 count a) 0 = headLength a 0 :=
    fun _ => field_setField_head (by decide) (by decide) (by decide)
  rw [setHeadInfo, h3, h2]

theorem headUnpooledPageCnt_setHeadInfo :
    headUnpooledPageCnt (setHeadInfo base length count m) 0 = count :=
  field_setField_self _ _ _ _

theorem LlRing.setHeadInfo (h : LlRing m l) (hal : ∀ x ∈ l, Aligned x) :
    LlRing (setHeadInfo base length count m) l := by
  have h1 := LlRing.setField (v := base) h hal (c := 16) (by decide) (by decide) (by decide)
  have h2 := LlRing.setField (v := length) h1 hal (c := 24) (by decide) (by decide) (by decide)
  exact LlRing.setField h2 hal (c := 32) (by decide) (by decide) (by decide)

theorem setHeadInfo_eqOn : Set.EqOn (SkipOS.setHeadInfo base length count m) m (span 16 24)ᶜ := by
  have hsub : ∀ c : Word, c.toNat + 8 ≤ 40 → 16 ≤ c.toNat → (span 16 24)ᶜ ⊆ (span (0 + c) 8)ᶜ := by
    intro c hc hc'
    refine Set.compl_subset_compl.mpr fun a ha => ?_
    rw [mem_span] at ha ⊢
    bv_omega
  have h1 := (setField_eqOn_compl m 0 16 base).mono (hsub 16 (by decide) (by decide))
  have h2 := ((setField_eqOn_compl _ 0 24 length).mono (hsub 24 (by decide) (by decide))).trans h1
  exact ((setField_eqOn_compl _ 0 32 count).mono (hsub 32 (by decide) (by decide))).trans h2

end SetHeadInfo

theorem initLlHeadInfo_eq_ok {elfInfo : ElfInfo} {upper : Word}
    (hrun : initLlHeadInfo 0 elfInfo upper m = .ok head m') :
    ∃ length, length = upperEnd m upper - upperStart m elfInfo ∧ Aligned length ∧ head = 0 ∧
      memInfoBase m upper = secHeadAddr m (elfInfo.secHeadEntArr + sizeofSecHeadEnt * 1) ∧
      m' = setHeadInfo (upperStart m elfInfo) length (length / pageSize) m := by
  rw [initLlHeadInfo, bind_assert_of rfl, bind_get] at hrun
  obtain ⟨_, m1, hassert, hrest⟩ := bind_eq_ok.mp hrun
  obtain ⟨hsec, rfl⟩ := assert_eq_ok.mp hassert
  simp only [bind_modify, bind_get] at hrest
  obtain ⟨_, m2, hmod, hret⟩ := bind_eq_ok.mp hrest
  obtain ⟨hlen, rfl⟩ := assert_eq_ok.mp hmod
  obtain ⟨hhead, rfl⟩ := pure_eq_ok.mp hret
  have hread : ∀ v a, headLength (setHeadLength 0 v a) 0 = v :=
    fun _ _ => field_setField_self _ _ _ _
  have hcnt : ∀ v a, headLength (setHeadUnpooledPageCnt 0 v a) 0 = headLength a 0 :=
    fun _ _ => field_setField_head (by decide) (by decide) (by decide)
  rw [hcnt, hread] at hlen
  refine ⟨_, rfl, umod_pageSize_eq_zero.mp hlen, hhead.symm, hsec, ?_⟩
  rw [hread]
  rfl

/-- The stores of `init_ll_head_info` keep the links, and fix base, length and count. -/
theorem initLlHeadInfo_spec {elfInfo : ElfInfo} {upper : Word} (h : LlRing m l)
    (hal : ∀ x ∈ l, Aligned x) (hrun : initLlHeadInfo 0 elfInfo upper m = .ok head m') :
    LlRing m' l ∧ Aligned (headBaseAddr m' 0) ∧ Aligned (headLength m' 0) ∧
      headUnpooledPageCnt m' 0 = headLength m' 0 / pageSize := by
  obtain ⟨length, -, hlen, -, -, rfl⟩ := initLlHeadInfo_eq_ok hrun
  rw [headBaseAddr_setHeadInfo, headLength_setHeadInfo, headUnpooledPageCnt_setHeadInfo]
  exact ⟨LlRing.setHeadInfo h hal, roundUpNearestMult_aligned _, hlen, rfl⟩

/-- The memory map entry `init_pool` takes as the lower region, if it found one. -/
def usableLower (m : Mem) (mmapInfo : MmapInfo) : Option Word :=
  (scanMemInfoEntries m mmapInfo.numMemInfoEntries.toNat mmapInfo.memInfoEntryArr 0
    ⟨none, none⟩).2.lower

/-- The lower length `init_pool` computes from that entry. -/
def lowerLengthOf (m : Mem) (lower : Word) : Word :=
  roundDownNearestMult (memInfoLength m lower) pageSize

section InitPool

variable {mmapInfo : MmapInfo} {elfInfo : ElfInfo} {usable : UsableMemInfoPtrs}

theorem getUsableMemInfoPtrs_eq_ok (h : getUsableMemInfoPtrs mmapInfo m = .ok usable m') :
    m' = m ∧ scanMemInfoEntries m mmapInfo.numMemInfoEntries.toNat
      mmapInfo.memInfoEntryArr 0 ⟨none, none⟩ = (2, usable) := by
  rw [getUsableMemInfoPtrs, bind_get] at h
  obtain ⟨_, m1, hcnt, hret⟩ := bind_eq_ok.mp h
  obtain ⟨htwo, rfl⟩ := assert_eq_ok.mp hcnt
  obtain ⟨hb, ht⟩ := pure_eq_ok.mp hret
  exact ⟨ht.symm, Prod.ext htwo hb⟩

theorem usableLower_eq (h : getUsableMemInfoPtrs mmapInfo m = .ok usable m') :
    usableLower m mmapInfo = usable.lower := by
  rw [usableLower, (getUsableMemInfoPtrs_eq_ok h).2]

theorem deref_eq_ok {o : Option Word} (h : deref o m = .ok p m') : o = some p ∧ m' = m := by
  cases o with
  | none => simp [deref] at h
  | some q =>
    simp only [deref, pure_apply, EStateM.Result.ok.injEq] at h
    exact ⟨congrArg some h.1, h.2.symm⟩

theorem initPool_eq_ok (hrun : initPool mmapInfo elfInfo m = .ok head m') :
    ∃ usable lower upper m₁, getUsableMemInfoPtrs mmapInfo m = .ok usable m ∧
      usable.lower = some lower ∧ usable.upper = some upper ∧
      addLowerPages 0 0 (lowerLengthOf m lower) (initLlHead 0 m) = .ok () m₁ ∧
      initLlHeadInfo 0 elfInfo upper m₁ = .ok head m' := by
  obtain ⟨usable, m1, hu, hrest⟩ := bind_eq_ok.mp hrun
  obtain ⟨rfl, -⟩ := getUsableMemInfoPtrs_eq_ok hu
  obtain ⟨lower, m3, hderef, hbody⟩ := bind_eq_ok.mp hrest
  obtain ⟨hlow, rfl⟩ := deref_eq_ok hderef
  rw [bind_get] at hbody
  obtain ⟨_, m4, hassert, hfill⟩ := bind_eq_ok.mp hbody
  obtain ⟨hzero, rfl⟩ := assert_eq_ok.mp hassert
  simp only [hzero, bind_modify] at hfill
  obtain ⟨_, m5, hadd, hrange⟩ := bind_eq_ok.mp hfill
  obtain ⟨upper, m6, hderef', hinfo⟩ := bind_eq_ok.mp hrange
  obtain ⟨hup, rfl⟩ := deref_eq_ok hderef'
  exact ⟨usable, lower, upper, _, hu, hlow, hup, hadd, hinfo⟩

theorem initPool_spec (hrun : initPool mmapInfo elfInfo m = .ok head m') :
    ∃ lower, usableLower m mmapInfo = some lower ∧
      LlRing m' (lowerPages (lowerLengthOf m lower)) ∧
      (0 :: lowerPages (lowerLengthOf m lower)).Nodup ∧
      (∀ x ∈ lowerPages (lowerLengthOf m lower), Aligned x) ∧
      Aligned (headBaseAddr m' 0) ∧ Aligned (headLength m' 0) ∧
      headUnpooledPageCnt m' 0 = headLength m' 0 / pageSize := by
  obtain ⟨usable, lower, upper, m₁, hu, hlow, -, hadd, hinfo⟩ := initPool_eq_ok hrun
  obtain ⟨hring, hnd, hal, -, -⟩ := addLowerPages_spec (roundDownNearestMult_aligned _)
    (initLlHead_ring _) hadd
  obtain ⟨hr, hb, hl, hc⟩ := initLlHeadInfo_spec hring hal hinfo
  exact ⟨lower, (usableLower_eq hu).trans hlow, hr, hnd, hal, hb, hl, hc⟩

end InitPool

end SkipOS
