import SkipOS.VmInit

/-! The hardware's walk of the tables that `MMU_init_vp` builds. Every entry of the identity
table is the same, so addresses below 512 GiB go to their offset in the first gigabyte. -/

namespace SkipOS

open Mem Exec Walk

/-- The physical address in an entry or in CR3. -/
def hwAddr (entry : Word) : Word := entry &&& 0xFFFFFFFFFF000

/-- The 4-level walk of the processor; a page size bit ends it in an L3 or L2 entry. -/
def hwWalk (m : Mem) (cr3 va : Word) : Option Word :=
  let l4Entry := m.load64 (entryPtr (hwAddr cr3) ((va >>> 39) &&& 0x1FF))
  if ¬ isNextPagePresent l4Entry then none
  else
    let l3Entry := m.load64 (entryPtr (hwAddr l4Entry) ((va >>> 30) &&& 0x1FF))
    if ¬ isNextPagePresent l3Entry then none
    else if l3Entry &&& pageSize1gbMsk ≠ 0 then
      some ((l3Entry &&& 0xFFFFFC0000000) + (va &&& 0x3FFFFFFF))
    else
      let l2Entry := m.load64 (entryPtr (hwAddr l3Entry) ((va >>> 21) &&& 0x1FF))
      if ¬ isNextPagePresent l2Entry then none
      else if l2Entry &&& pageSize1gbMsk ≠ 0 then
        some ((l2Entry &&& 0xFFFFFFFE00000) + (va &&& 0x1FFFFF))
      else
        let l1Entry := m.load64 (entryPtr (hwAddr l2Entry) ((va >>> 12) &&& 0x1FF))
        if ¬ isNextPagePresent l1Entry then none
        else some (hwAddr l1Entry + (va &&& 0xFFF))

variable {B : BootPool} {s : Machine} {f va l4 limit : Word} {m : Mem} {managed : List Word}
  {P : Pool}

theorem hwAddr_eq (e : Word) : hwAddr e = (e &&& ~~~0xFFF) &&& 0xFFFFFFFFFFFFF := by
  have hm : (0xFFFFFFFFFF000 : Word) = ~~~0xFFF &&& 0xFFFFFFFFFFFFF := by decide
  rw [hwAddr, hm, BitVec.and_assoc]

theorem and_mask_of_lt {k : Nat} {mask : Word} (hm : mask.toNat = 2 ^ k - 1) (v : Word) :
    (v &&& mask).toNat = v.toNat % 2 ^ k := by
  rw [BitVec.toNat_and, hm, Nat.and_two_pow_sub_one_eq_mod]

theorem hwAddr_of_aligned (hf : Aligned f) (h52 : f.toNat < 2 ^ 52) : hwAddr f = f := by
  rw [hwAddr_eq, frame_of_aligned hf]
  apply BitVec.eq_of_toNat_eq
  rw [and_mask_of_lt (k := 52) rfl, Nat.mod_eq_of_lt h52]

theorem hwAddr_linked (hf : Aligned f) (h52 : f.toNat < 2 ^ 52) :
    hwAddr (f ||| (writeableMask ||| presentMask)) = f := by
  rw [hwAddr_eq, frame_linked hf, ← hwAddr_of_aligned hf h52, hwAddr_eq, frame_of_aligned hf,
    BitVec.and_assoc, BitVec.and_self]

theorem hwWalk_identity (l3 : Word) (hva : va.toNat < 2 ^ 39)
    (hpresent : isNextPagePresent (m.load64 (entryPtr (hwAddr l4) 0)) = true)
    (haddr : hwAddr (m.load64 (entryPtr (hwAddr l4) 0)) = l3)
    (hid : ∀ j < 512, m.load64 (entryPtr l3 j) = identityEntry) :
    hwWalk m l4 va = some (va &&& 0x3FFFFFFF) := by
  have h0 : (va >>> 39) &&& 0x1FF = 0 := by
    rw [l4Index_eq_zero]
    omega
  have hentry : m.load64 (entryPtr l3 ((va >>> 30) &&& 0x1FF)) = identityEntry :=
    hid _ (index_lt va 30)
  have hp : isNextPagePresent identityEntry = true := by decide
  have hps : identityEntry &&& pageSize1gbMsk ≠ 0 := by decide
  have hbase : identityEntry &&& 0xFFFFFC0000000 = 0 := by decide
  simp only [hwWalk, h0, hpresent, haddr, hentry, hp, not_true_eq_false, if_false, if_pos hps,
    hbase]
  exact congrArg some (BitVec.zero_add _)

/-- A NULL L4 table is followed by a NULL identity table: the pool head was zeroed. -/
theorem mmuPfAlloc_fill_zero (m : Mem) :
    mmuPfAlloc (m.fill 0 4096 0) = .ok 0 (m.fill 0 4096 0) := by
  have hfield : ∀ d, IsSlot d → (m.fill 0 4096 0).field 0 d = 0 := fun d hd => field_fill_zero hd
  have hempty : isEmpty (m.fill 0 4096 0) getLlHeadInfoPtr = true := by
    rw [isEmpty, beq_iff_eq]
    exact (hfield 0 (by decide)).trans (hfield 8 (by decide)).symm
  have hcnt : headUnpooledPageCnt (m.fill 0 4096 0) getLlHeadInfoPtr = 0 := hfield 32 (by decide)
  simp only [mmuPfAlloc, bind_get, hempty, if_true, hcnt, pure_apply]

theorem boot_frames {l4 l3 : Word} {m1 m2 : Mem} (h1 : mmuPfAlloc B.mem = .ok l4 m1)
    (h2 : mmuPfAlloc (m1.fill l4 4096 0) = .ok l3 m2) :
    (l4 = 0 ∨ l4 ∈ B.managed) ∧ (l3 = 0 ∨ l3 ∈ B.managed) ∧ (l3 = l4 → l4 = 0) := by
  by_cases hl4 : l4 = 0
  · subst hl4
    rw [mmuPfAlloc_fill_zero, EStateM.Result.ok.injEq] at h2
    exact ⟨Or.inl rfl, Or.inl h2.1.symm, fun _ => rfl⟩
  · obtain ⟨hf4, -, Q1, hQ1, -⟩ := pfAlloc_pool B.inv hl4 h1
    have hfill := hQ1.fill_out List.mem_cons_self
    refine ⟨Or.inr (B.inv.mem_managed.mpr (Or.inl hf4)), ?_, ?_⟩
    · by_cases hl3 : l3 = 0
      · exact Or.inl hl3
      · exact Or.inr (hfill.mem_managed.mpr (Or.inl (pfAlloc_pool hfill hl3 h2).1))
    · rintro rfl
      exact absurd (pfAlloc_pool hfill hl4 h2).1 (hfill.out_not_free List.mem_cons_self)

theorem boot_frames_eqOn {l4 l3 : Word} {m1 m2 : Mem} (h1 : mmuPfAlloc B.mem = .ok l4 m1)
    (h2 : mmuPfAlloc (m1.fill l4 4096 0) = .ok l3 m2) :
    Set.EqOn m2 B.mem (frames (0 :: B.managed))ᶜ := by
  have hl4 : l4 ∈ 0 :: B.managed := List.mem_cons.mpr (boot_frames h1 h2).1
  have hfirst : Set.EqOn (m1.fill l4 4096 0) B.mem (frames (0 :: B.managed))ᶜ :=
    ((fill_eqOn_compl _ _ _ _).mono
      (Set.compl_subset_compl.mpr (frame_subset_frames hl4))).trans (B.inv.alloc_eqOn h1)
  by_cases hz : l4 = 0
  · subst hz
    rw [mmuPfAlloc_fill_zero, EStateM.Result.ok.injEq] at h2
    rwa [← h2.2]
  · obtain ⟨-, -, Q1, hQ1, -⟩ := pfAlloc_pool B.inv hz h1
    exact ((hQ1.fill_out List.mem_cons_self).alloc_eqOn h2).trans hfirst

/-- `MMU_init_vp` writes to the pool and its head only. -/
theorem Booted.eqOn (h : Booted B s) : Set.EqOn s.mem B.mem (frames (0 :: B.managed))ᶜ := by
  obtain ⟨s0, hmem, -, hrun⟩ := h
  obtain ⟨l4, m1, l3, m2, es, hm1, hm2, -, hsm, -, -, -, -⟩ := mmuInitVp_eq_ok hrun
  rw [hmem] at hm1
  obtain ⟨h4, h3, -⟩ := boot_frames hm1 hm2
  have hsub : [l3, l4] ⊆ 0 :: B.managed :=
    List.cons_subset.mpr ⟨List.mem_cons.mpr h3,
      List.cons_subset.mpr ⟨List.mem_cons.mpr h4, List.nil_subset _⟩⟩
  rw [hsm]
  exact (bootMem_eqOn.mono (Set.compl_subset_compl.mpr (frames_mono hsub))).trans
    (boot_frames_eqOn hm1 hm2)

/-- Every frame that `MMU_init_vp` got is NULL or a page of the pool. -/
theorem Booted.pfAlloc_mem (h : Booted B s) (hf : .pfAlloc f ∈ s.events) :
    f = 0 ∨ f ∈ B.managed := by
  obtain ⟨s0, hmem, hev, hrun⟩ := h
  obtain ⟨l4, m1, l3, m2, es, hm1, hm2, hes, -, -, -, -, hevents⟩ := mmuInitVp_eq_ok hrun
  rw [hmem] at hm1
  obtain ⟨h4, h3, -⟩ := boot_frames hm1 hm2
  rw [hevents, hev, List.append_nil] at hf
  rcases List.mem_append.mp hf with he | he
  · obtain ⟨_, _, hset⟩ := hes _ he
    simp at hset
  · simp only [List.mem_cons, List.not_mem_nil, or_false, reduceCtorEq, VmEvent.pfAlloc.injEq,
      false_or] at he
    rcases he with rfl | rfl
    · exact h3
    · exact h4

/-- Below 512 GiB the tables lead to the offset in the first gigabyte. -/
theorem Booted.hwWalk_eq (h : Booted B s)
    (hphys : ∀ p, .pfAlloc p ∈ s.events → p.toNat < 2 ^ 52)
    (hva : va.toNat < 2 ^ 39) : hwWalk s.mem s.cr3 va = some (va &&& 0x3FFFFFFF) := by
  have hframe : ∀ f, .pfAlloc f ∈ s.events → Aligned f := fun f hf =>
    (h.pfAlloc_mem hf).elim (fun h0 => h0 ▸ aligned_zero) (B.inv.aligned f)
  obtain ⟨s0, hmem, -, hrun⟩ := h
  obtain ⟨l4, m1, l3, m2, es, hm1, hm2, -, hsm, -, hcr3, -, hevents⟩ := mmuInitVp_eq_ok hrun
  rw [hmem] at hm1
  obtain ⟨-, -, hsame⟩ := boot_frames hm1 hm2
  have h4 : .pfAlloc l4 ∈ s.events := by simp [hevents]
  have h3 : .pfAlloc l3 ∈ s.events := by simp [hevents]
  have hal4 := hframe l4 h4
  have hal3 := hframe l3 h3
  have hid : ∀ j < 512, s.mem.load64 (entryPtr l3 j) = identityEntry := fun j hj => by
    rw [hsm, bootMem_l3 hal3 hj]
  rw [hcr3]
  by_cases hl : l3 = l4
  · have hl4 := hsame hl
    subst hl hl4
    have he := hid 0 (by decide)
    have hz : hwAddr 0 = 0 := by decide
    refine hwWalk_identity _ hva ?_ ?_ hid
    · rw [hz, he]
      decide
    · rw [hz, he]
      decide
  · have he : s.mem.load64 (entryPtr l4 0) = l3 ||| (writeableMask ||| presentMask) := by
      rw [hsm, bootMem_l4 hal4 hal3 (Ne.symm hl) (by decide), if_pos rfl]
    refine hwWalk_identity l3 hva ?_ ?_ hid
    · rw [hwAddr_of_aligned hal4 (hphys l4 h4), he, present_iff_flags, flags_linked hal3]
      decide
    · rw [hwAddr_of_aligned hal4 (hphys l4 h4), he, hwAddr_linked hal3 (hphys l3 h3)]

theorem and_gigabyte_mask (va : Word) : (va &&& 0x3FFFFFFF).toNat = va.toNat % 2 ^ 30 :=
  and_mask_of_lt (k := 30) rfl va

theorem and_gigabyte_mask_of_lt (h : va.toNat < 2 ^ 30) : va &&& 0x3FFFFFFF = va := by
  apply BitVec.eq_of_toNat_eq
  rw [and_gigabyte_mask, Nat.mod_eq_of_lt h]

theorem and_gigabyte_mask_eq_iff : va &&& 0x3FFFFFFF = va ↔ va.toNat < 2 ^ 30 := by
  constructor
  · intro hself
    have hn := and_gigabyte_mask va
    rw [hself] at hn
    omega
  · exact and_gigabyte_mask_of_lt

/-- As long as the tables are kept, so is the mapping. -/
theorem TablesInv.hwWalk_eq (h : TablesInv managed limit s P)
    (hphys : ∀ f ∈ managed, f.toNat < 2 ^ 52) (hva : va.toNat < 2 ^ 39) :
    hwWalk s.mem s.cr3 va = some (va &&& 0x3FFFFFFF) := by
  have hnode : ∀ p ∈ Paths, ∀ n, s.node p = some n → Aligned n ∧ n.toNat < 2 ^ 52 := by
    intro p hp n hn
    have hmem : n ∈ managed := h.pool.mem_managed.mpr (Or.inr (h.node_mem hp hn))
    exact ⟨h.node_aligned hp hn, hphys n hmem⟩
  obtain ⟨t, ht, hid⟩ := h.identity
  obtain ⟨hal4, hlt4⟩ := hnode [] nil_mem_paths s.pageTable.l4Table rfl
  obtain ⟨hal3, hlt3⟩ := hnode [0] zero_mem_paths t ht
  have hchild : child s.mem s.pageTable.l4Table 0 = some t := walk_singleton.symm.trans ht
  obtain ⟨hpresent, haddr⟩ := child_eq_some_iff.mp hchild
  have hroot := hwAddr_of_aligned hal4 hlt4
  rw [h.cr3]
  refine hwWalk_identity t hva (by rwa [hroot]) ?_ hid
  rw [hroot, hwAddr_eq, haddr, ← hwAddr_of_aligned hal3 hlt3, hwAddr_eq, frame_of_aligned hal3,
    BitVec.and_assoc, BitVec.and_self]

/-- The hardware takes an address below 512 GiB to itself only below 1 GiB, while
`get_lowest_present_page` takes it to itself throughout. -/
theorem identity_walk_iff (hphys : ∀ p ∈ B.managed, p.toNat < 2 ^ 52) (hboot : Booted B s)
    (hva : va.toNat < 2 ^ 39) :
    (hwWalk s.mem s.cr3 va = some va ↔ va.toNat < 2 ^ 30) ∧
      (va % pageSize = 0 →
        getLowestPresentPage s.pageTable va none s = .ok (va, .physical, none) s) := by
  have h0 : (va >>> 39) &&& 0x1FF = 0 := by
    rw [l4Index_eq_zero]
    omega
  refine ⟨?_, fun ha => getLowestPresentPage_of_identity ha h0⟩
  have hframes : ∀ p, .pfAlloc p ∈ s.events → p.toNat < 2 ^ 52 := fun p hp =>
    (hboot.pfAlloc_mem hp).elim (fun hz => hz ▸ by decide) (hphys p)
  rw [hboot.hwWalk_eq hframes hva, Option.some.injEq]
  exact and_gigabyte_mask_eq_iff

theorem smallBoot_physical : ∀ p ∈ smallBoot.managed, p.toNat < 2 ^ 52 := by
  intro p hp
  rw [smallBoot_managed] at hp
  simp only [List.mem_cons, List.not_mem_nil, or_false] at hp
  rcases hp with rfl | rfl | rfl <;> decide

theorem identity_walk_small :
    hwWalk (initMachine smallBoot).mem (initMachine smallBoot).cr3 0xB8000 = some 0xB8000 :=
  (identity_walk_iff smallBoot_physical smallBoot_booted (by decide)).1.mpr (by decide)

/-- The second gigabyte is mapped onto the first. -/
theorem identity_walk_wraps : ¬ ∀ (B : BootPool) (s : Machine), Booted B s →
    (∀ p ∈ B.managed, p.toNat < 2 ^ 52) → ∀ va : Word, va.toNat < 2 ^ 39 →
      hwWalk s.mem s.cr3 va = some va := by
  intro h
  have hwrong := h smallBoot _ smallBoot_booted smallBoot_physical 0x40000000 (by decide)
  have hwalk : hwWalk (initMachine smallBoot).mem (initMachine smallBoot).cr3 0x40000000 = some 0 := by
    decide +kernel
  rw [hwalk] at hwrong
  exact absurd hwrong (by decide)

end SkipOS
