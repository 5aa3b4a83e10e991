import SkipOS.PoolOps

/-! Refilling the pool from the unpooled range, and the three ways an allocation
can end: a page, NULL, or the failed assertion of `pop_elem`. -/

namespace SkipOS

open Mem Exec

variable {m m' : Mem} {P : Pool} {e : Word}

theorem addNewUpperPagesLoop_rep {n : Nat} (h : PoolRep m P)
    (hnd : (0 :: (P.pages ++ pagesFrom P.base n)).Nodup)
    (hal : ∀ x ∈ P.pages ++ pagesFrom P.base n, Aligned x) :
    PoolRep (addNewUpperPagesLoop 0 n m)
        ⟨P.pages ++ pagesFrom P.base n, P.base + BitVec.ofNat 64 (4096 * n), P.count⟩ ∧
      Set.EqOn (addNewUpperPagesLoop 0 n m) m
        (frames (0 :: (P.pages ++ pagesFrom P.base n)))ᶜ := by
  induction n generalizing m P with
  | zero =>
    have hb : P.base + BitVec.ofNat 64 (4096 * 0) = P.base := by simp
    simp only [pagesFrom, List.append_nil, hb, addNewUpperPagesLoop]
    exact ⟨h, Set.eqOn_refl _ _⟩
  | succ n ih =>
    have hsplit : P.pages ++ pagesFrom P.base (n + 1) =
        (P.pages ++ [P.base]) ++ pagesFrom (P.base + pageSize) n := by
      rw [pagesFrom, List.append_assoc, List.singleton_append]
    rw [hsplit] at hnd hal
    have hndp : (0 :: (P.pages ++ [P.base])).Nodup :=
      hnd.sublist ((List.sublist_append_left _ _).cons_cons 0)
    have halp : ∀ x ∈ P.pages ++ [P.base], Aligned x :=
      fun x hx => hal x (List.mem_append_left _ hx)
    have hb : Aligned P.base := halp _ (by simp)
    have hb0 : P.base ≠ 0 := fun hh => (List.nodup_cons.mp hndp).1 (by simp [hh])
    have hbp : P.base ∉ P.pages := fun hh =>
      (List.nodup_append.mp (List.nodup_cons.mp hndp).2).2.2 _ hh _ (List.mem_singleton_self _) rfl
    have hadd := addElem_rep h (hndp.sublist ((List.sublist_append_left _ _).cons_cons 0))
      (fun x hx => halp x (List.mem_append_left _ hx)) hb hb0 hbp
    -- one page moved: the list has grown and the base goes up by a page
    let m1 := setHeadBaseAddr 0 (P.base + pageSize) (addElem 0 P.base m)
    let P1 : Pool := ⟨P.pages ++ [P.base], P.base + pageSize, P.count⟩
    have hrep : PoolRep m1 P1 := by
      have hf : ∀ x ∈ 0 :: (P.pages ++ [P.base]), ∀ d, IsSlot d → d ≠ 16 →
          m1.field x d = (addElem 0 P.base m).field x d := by
        intro x hx d hd h16
        have hxa : Aligned x := (List.forall_mem_cons.mpr ⟨aligned_zero, halp⟩) x hx
        exact field_setField_of_ne aligned_zero hxa (by decide) hd (Or.inr h16.symm)
      have h0 := hf 0 List.mem_cons_self
      refine ⟨hadd.ring.congr (fun x hx => hf x hx 0 (by decide) (by decide))
        (fun x hx => hf x hx 8 (by decide) (by decide)), field_setField_self _ _ _ _, ?_, ?_⟩
      · exact (h0 24 (by decide) (by decide)).trans hadd.length
      · exact (h0 32 (by decide) (by decide)).trans hadd.count
    have hstep : addNewUpperPagesLoop 0 (n + 1) m = addNewUpperPagesLoop 0 n m1 := by
      have hbase : headBaseAddr (addElem 0 P.base m) 0 = P.base := hadd.base
      simp only [addNewUpperPagesLoop, h.base, hbase, m1]
    obtain ⟨hr, hf⟩ := ih hrep hnd hal
    rw [hstep, hsplit]
    have hbase : P1.base + BitVec.ofNat 64 (4096 * n) =
        P.base + BitVec.ofNat 64 (4096 * (n + 1)) := by
      simp only [P1, pageSize]
      bv_omega
    rw [hbase] at hr
    refine ⟨hr, hf.trans ?_⟩
    have hsub : 0 :: P.base :: P.pages ⊆
        0 :: ((P.pages ++ [P.base]) ++ pagesFrom (P.base + pageSize) n) := by
      intro x hx
      simp only [List.mem_cons, List.mem_append, List.not_mem_nil, or_false] at hx ⊢
      tauto
    have hset : Set.EqOn m1 (addElem 0 P.base m)
        (frames (0 :: ((P.pages ++ [P.base]) ++ pagesFrom (P.base + pageSize) n)))ᶜ :=
      setField_eqOn_compl_frames _ List.mem_cons_self (by decide)
    exact hset.trans ((addElem_eqOn h.ring hb hb0).mono
      (Set.compl_subset_compl.mpr (frames_mono hsub)))

theorem Pool.Wf.count_le (hP : P.Wf) : P.count ≤ 2 ^ 52 := by
  have := hP.noWrap
  omega

theorem addNewUpperPages_rep (h : PoolRep m P) (hP : P.Wf) {k : Nat} (hk : k ≤ P.count)
    (hk0 : 0 < k) :
    ∃ m', addNewUpperPages 0 (BitVec.ofNat 64 k) m = .ok () m' ∧ PoolRep m' (P.refill k) ∧
      Set.EqOn m' m (frames (0 :: P.free))ᶜ := by
  have hc := hP.count_le
  have hsub : P.pages ++ pagesFrom P.base k ⊆ P.free := by
    rw [← P.free_refill hk]
    exact List.subset_append_left _ _
  have hsl : (P.pages ++ pagesFrom P.base k).Sublist P.free := by
    rw [← P.free_refill hk]
    exact List.sublist_append_left _ _
  obtain ⟨hr, hf⟩ := addNewUpperPagesLoop_rep (n := k) h (hP.nodup.sublist (hsl.cons_cons 0))
    (fun x hx => hP.aligned x (hsub hx))
  have hkn : (BitVec.ofNat 64 k).toNat = k := toNat_ofNat_of_lt (by omega)
  let m1 := addNewUpperPagesLoop 0 k m
  let m2 := setHeadLength 0 (headLength m1 0 - BitVec.ofNat 64 k * pageSize) m1
  let m3 := setHeadUnpooledPageCnt 0 (headUnpooledPageCnt m2 0 - BitVec.ofNat 64 k) m2
  have h2 : ∀ {x d : Word}, Aligned x → IsSlot d → x ≠ 0 ∨ d ≠ 24 → m2.field x d = m1.field x d :=
    fun hx hd hne => field_setField_of_ne aligned_zero hx (by decide) hd
      (hne.imp Ne.symm Ne.symm)
  have h3 : ∀ {x d : Word}, Aligned x → IsSlot d → x ≠ 0 ∨ d ≠ 32 → m3.field x d = m2.field x d :=
    fun hx hd hne => field_setField_of_ne aligned_zero hx (by decide) hd
      (hne.imp Ne.symm Ne.symm)
  have hz := aligned_zero
  have hbase : headBaseAddr m3 0 = P.base + BitVec.ofNat 64 (4096 * k) :=
    ((h3 hz (by decide) (Or.inr (by decide))).trans
      (h2 hz (by decide) (Or.inr (by decide)))).trans hr.base
  have hlen : headLength m3 0 = BitVec.ofNat 64 (4096 * (P.count - k)) := by
    have hm3 : headLength m3 0 = headLength m2 0 := h3 hz (by decide) (Or.inr (by decide))
    have hm2 : headLength m2 0 = headLength m1 0 - BitVec.ofNat 64 k * pageSize :=
      field_setField_self _ _ _ _
    rw [hm3, hm2, hr.length, pageSize]
    bv_omega
  have hcnt : headUnpooledPageCnt m3 0 = BitVec.ofNat 64 (P.count - k) := by
    have hm3 : headUnpooledPageCnt m3 0 = headUnpooledPageCnt m2 0 - BitVec.ofNat 64 k :=
      field_setField_self _ _ _ _
    have hm2 : headUnpooledPageCnt m2 0 = headUnpooledPageCnt m1 0 :=
      h2 hz (by decide) (Or.inr (by decide))
    rw [hm3, hm2, hr.count]
    bv_omega
  have hlimit : headBaseAddr m 0 + headLength m 0 = headBaseAddr m3 0 + headLength m3 0 := by
    rw [h.base, h.length, hbase, hlen]
    bv_omega
  refine ⟨m3, ?_, ⟨?_, hbase, hlen, hcnt⟩, ?_⟩
  · have hle : BitVec.ofNat 64 k ≤ headUnpooledPageCnt m 0 := by
      rw [h.count]
      bv_omega
    have hpos : 0 < BitVec.ofNat 64 k := by bv_omega
    rw [addNewUpperPages, bind_get, bind_assert_of hle, bind_assert_of hpos]
    simp only [bind_modify, bind_get, hkn]
    exact assert_eq_ok.mpr ⟨hlimit, rfl⟩
  · have hxa : ∀ x ∈ 0 :: (P.pages ++ pagesFrom P.base k), Aligned x :=
      List.forall_mem_cons.mpr ⟨hz, fun x hx => hP.aligned x (hsub hx)⟩
    refine hr.ring.congr (fun x hx => ?_) (fun x hx => ?_)
    · exact (h3 (hxa x hx) (by decide) (Or.inr (by decide))).trans
        (h2 (hxa x hx) (by decide) (Or.inr (by decide)))
    · exact (h3 (hxa x hx) (by decide) (Or.inr (by decide))).trans
        (h2 (hxa x hx) (by decide) (Or.inr (by decide)))
  · have hm : (0 : Word) ∈ 0 :: P.free := List.mem_cons_self
    have e3 : Set.EqOn m3 m2 (frames (0 :: P.free))ᶜ := setField_eqOn_compl_frames _ hm (by decide)
    have e2 : Set.EqOn m2 m1 (frames (0 :: P.free))ᶜ := setField_eqOn_compl_frames _ hm (by decide)
    have e1 := hf.mono (Set.compl_subset_compl.mpr
      (frames_mono (List.cons_subset_cons (0 : Word) hsub)))
    exact e3.trans (e2.trans e1)

theorem Pool.topUp_pages_length (P : Pool) :
    P.topUp.pages.length = if P.pages.length ≤ 1 then P.pages.length + min 500 P.count
      else P.pages.length := by
  by_cases h : P.pages.length ≤ 1
  · simp only [Pool.topUp, if_pos h, Pool.refill, List.length_append, length_pagesFrom]
  · simp only [Pool.topUp, if_neg h]

theorem mmuPfAlloc_exhausted (h : PoolRep m P) (hP : P.Wf) (he : P.Exhausted) :
    mmuPfAlloc m = .ok 0 m := by
  have hempty : isEmpty m getLlHeadInfoPtr = true := (isEmpty_iff h hP.pages_nodup).mpr he.1
  have hcnt : headUnpooledPageCnt m getLlHeadInfoPtr = 0 := by
    rw [show headUnpooledPageCnt m getLlHeadInfoPtr = _ from h.count, he.2]
    rfl
  simp only [mmuPfAlloc, bind_get, hempty, if_true, hcnt, pure_apply]

theorem mmuPfAlloc_eq (h : PoolRep m P) (hP : P.Wf) (he : ¬ P.Exhausted) :
    ∃ m', mmuPfAlloc m = popElem 0 m' ∧ PoolRep m' P.topUp ∧
      Set.EqOn m' m (frames (0 :: P.free))ᶜ := by
  by_cases hlen : P.pages.length ≤ 1
  · have hempty : isEmpty m getLlHeadInfoPtr = true :=
      (isEmpty_iff h hP.pages_nodup).mpr hlen
    have hc0 : P.count ≠ 0 := fun hc => he ⟨hlen, hc⟩
    have hcl := hP.count_le
    have hread : headUnpooledPageCnt m getLlHeadInfoPtr = BitVec.ofNat 64 P.count := h.count
    have hcnt : ¬ BitVec.ofNat 64 P.count = 0 := by bv_omega
    have hk : (if pagesToAddIfPoolEmpty > BitVec.ofNat 64 P.count then BitVec.ofNat 64 P.count
        else pagesToAddIfPoolEmpty) = BitVec.ofNat 64 (min 500 P.count) := by
      rw [pagesToAddIfPoolEmpty]
      by_cases hlt : P.count < 500
      · rw [if_pos (by bv_omega), Nat.min_eq_right (by omega)]
      · rw [if_neg (by bv_omega), Nat.min_eq_left (by omega)]
        rfl
    obtain ⟨m', hrun, hrep, hf⟩ := addNewUpperPages_rep h hP (k := min 500 P.count)
      (Nat.min_le_right _ _) (by omega)
    refine ⟨m', ?_, ?_, hf⟩
    · simp only [mmuPfAlloc, bind_get, hempty, if_true, hread, hcnt, if_false, hk]
      exact bind_of_ok hrun _
    · rw [Pool.topUp, if_pos hlen]
      exact hrep
  · have hempty : ¬ isEmpty m getLlHeadInfoPtr = true :=
      fun hh => hlen ((isEmpty_iff h hP.pages_nodup).mp hh)
    refine ⟨m, ?_, ?_, Set.eqOn_refl _ _⟩
    · simp only [mmuPfAlloc, bind_get, hempty]
      rfl
    · rw [Pool.topUp, if_neg hlen]
      exact h

theorem mmuPfAlloc_pop {l : List Word} (h : PoolRep m P) (hP : P.Wf)
    (hl : P.topUp.pages = l ++ [e]) (hne : l ≠ []) :
    ∃ m', mmuPfAlloc m = .ok e m' ∧ PoolRep m' P.topUp.drop ∧
      Set.EqOn m' m (frames (0 :: P.free))ᶜ := by
  have hlen := P.topUp_pages_length
  have hpos := List.length_pos_of_ne_nil hne
  rw [hl, List.length_append, List.length_singleton] at hlen
  have he : ¬ P.Exhausted := by
    rintro ⟨h1, h2⟩
    rw [if_pos h1, h2] at hlen
    omega
  obtain ⟨m1, hrun, hrep, hf⟩ := mmuPfAlloc_eq h hP he
  obtain ⟨m2, hpop, hrep2, hf2⟩ := popElem_rep hrep hP.topUp hl hne
  have hsub : P.topUp.pages ⊆ P.free := by
    rw [← P.free_topUp]
    exact List.subset_append_left _ _
  exact ⟨m2, hrun.trans hpop, hrep2, (hf2.mono (Set.compl_subset_compl.mpr
    (frames_mono (List.cons_subset_cons (0 : Word) hsub)))).trans hf⟩

/-- An empty list and one unpooled page: the refilled list still looks empty. -/
theorem mmuPfAlloc_single (h : PoolRep m P) (hP : P.Wf) (hp : P.pages = []) (hc : P.count = 1) :
    ∃ m', mmuPfAlloc m = .error .assert m' := by
  have he : ¬ P.Exhausted := fun hh => by have := hh.2; omega
  obtain ⟨m', hrun, hrep, -⟩ := mmuPfAlloc_eq h hP he
  have hlen := P.topUp_pages_length
  simp only [hp, hc, List.length_nil] at hlen
  have hempty : isEmpty m' 0 = true :=
    (isEmpty_iff hrep hP.topUp.pages_nodup).mpr (by rw [hlen]; decide)
  refine ⟨m', ?_⟩
  rw [hrun, popElem, bind_get]
  exact bind_assert_not (not_not_intro hempty) _ _

theorem Pool.alloc_cases (P : Pool) :
    P.Exhausted ∨ (P.pages = [] ∧ P.count = 1) ∨
      ∃ l e, P.topUp.pages = l ++ [e] ∧ l ≠ [] := by
  have hlen := P.topUp_pages_length
  by_cases hbig : 2 ≤ P.topUp.pages.length
  · right; right
    have hne : P.topUp.pages ≠ [] := List.ne_nil_of_length_pos (by omega)
    refine ⟨_, _, (List.dropLast_append_getLast hne).symm, ?_⟩
    apply List.ne_nil_of_length_pos
    rw [List.length_dropLast]
    omega
  · by_cases hp : P.pages.length ≤ 1
    · rw [if_pos hp] at hlen
      by_cases hc : P.count = 0
      · exact Or.inl ⟨hp, hc⟩
      · exact Or.inr (Or.inl ⟨List.length_eq_zero_iff.mp (by omega), by omega⟩)
    · rw [if_neg hp] at hlen
      omega

end SkipOS
