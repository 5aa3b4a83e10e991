import SkipOS.PagedMmu
import SkipOS.PageStatus

/-! Heap memory as the kernel sees it, and what an access does to it: none to a page that is
present, and on a reserved page a fault that changes only that page. -/

namespace SkipOS

open Mem Exec Walk

/-- The page that an address lies in. -/
def pageBase (a : Word) : Word := a - a % pageSize

instance (va : Word) : Decidable (IsPage va) := inferInstanceAs (Decidable (_ ∧ _))

/-- The bytes behind the pages of the heap; zero where none is present. -/
def Machine.virt (s : Machine) : Mem := fun a =>
  if IsPage (pageBase a) then
    match s.node (pathOf a) with
    | some f => s.mem (f + a % pageSize)
    | none => 0
  else 0

/-- The word at `a` lies in the page. -/
def WordIn (page a : Word) : Prop :=
  page.toNat ≤ a.toNat ∧ a.toNat + 8 ≤ page.toNat + 4096

variable {managed : List Word} {limit a b f g page v : Word} {s s' : Machine} {P : Pool}
  {live X : Set Word} {m : Mem}

/-! Addresses and their pages. -/

theorem toNat_offset (a : Word) : (a % pageSize).toNat = a.toNat % 4096 := BitVec.toNat_umod

theorem toNat_pageBase (a : Word) : (pageBase a).toNat = a.toNat - a.toNat % 4096 := by
  have hm := toNat_offset a
  have hle := Nat.mod_le a.toNat 4096
  rw [pageBase]
  bv_omega

theorem pageBase_add_offset (a : Word) : pageBase a + a % pageSize = a := BitVec.sub_add_cancel _ _

theorem pageBase_eq (ha : page.toNat % 4096 = 0) (hlo : page.toNat ≤ a.toNat)
    (hhi : a.toNat < page.toNat + 4096) : pageBase a = page := by
  apply BitVec.eq_of_toNat_eq
  rw [toNat_pageBase]
  omega

theorem IsPage.pageBase_self (h : IsPage page) : pageBase page = page :=
  pageBase_eq h.1 (Nat.le_refl _) (by omega)

theorem index_pageBase (a : Word) {k : Nat} (hk : k = 39 ∨ k = 30 ∨ k = 21 ∨ k = 12) :
    (pageBase a >>> k) &&& 0x1FF = (a >>> k) &&& 0x1FF := by
  apply BitVec.eq_of_toNat_eq
  rw [index_toNat, index_toNat, toNat_pageBase]
  rcases hk with rfl | rfl | rfl | rfl <;> omega

theorem pathOf_pageBase (a : Word) : pathOf (pageBase a) = pathOf a := by
  simp only [pathOf, index_pageBase a (Or.inl rfl), index_pageBase a (Or.inr (Or.inl rfl)),
    index_pageBase a (Or.inr (Or.inr (Or.inl rfl))), index_pageBase a (Or.inr (Or.inr (Or.inr rfl)))]

theorem l4Index_ne_zero_of_pageBase (h : IsPage (pageBase a)) : (a >>> 39) &&& 0x1FF ≠ 0 := by
  rw [← index_pageBase a (Or.inl rfl)]
  exact h.l4Index_ne_zero

theorem offset_mem_frame (f a : Word) : f + a % pageSize ∈ frame f := by
  have hm := toNat_offset a
  have he : f + a % pageSize - f = a % pageSize := by bv_omega
  rw [frame, mem_span, he]
  omega

theorem WordIn.pageBase (h : WordIn page a) (hp : IsPage page) : pageBase a = page :=
  pageBase_eq hp.1 h.1 (by have := h.2; omega)

theorem WordIn.pathOf (h : WordIn page a) (hp : IsPage page) : pathOf a = pathOf page := by
  rw [← pathOf_pageBase, h.pageBase hp]

theorem WordIn.byte (h : WordIn page a) (hp : IsPage page) {i : Nat} (hi : i < 8) :
    SkipOS.pageBase (a + BitVec.ofNat 64 i) = page ∧
      (a + BitVec.ofNat 64 i) % pageSize = a % pageSize + BitVec.ofNat 64 i := by
  obtain ⟨hlo, hhi⟩ := h
  have hal := hp.1
  have hn : (a + BitVec.ofNat 64 i).toNat = a.toNat + i := by
    have := page.isLt
    have := hp.2.2
    bv_omega
  refine ⟨pageBase_eq hal (by omega) (by omega), BitVec.eq_of_toNat_eq ?_⟩
  rw [BitVec.toNat_add, toNat_offset, toNat_offset, hn, BitVec.toNat_ofNat]
  omega

theorem virt_of_node (hp : IsPage (pageBase a)) (hf : s.node (pathOf a) = some f) :
    s.virt a = s.mem (f + a % pageSize) := by
  simp only [Machine.virt, if_pos hp, hf]

theorem PageKept.virt (h : PageKept s s' (pageBase a)) : s'.virt a = s.virt a := by
  by_cases hp : IsPage (pageBase a)
  · have hnode := h.node
    have hcontents := h.contents
    rw [pathOf_pageBase] at hnode hcontents
    cases hf : s.node (pathOf a) with
    | none => simp only [Machine.virt, if_pos hp, hnode, hf]
    | some f =>
      rw [virt_of_node hp hf, virt_of_node hp (hnode.trans hf)]
      exact hcontents f hf (offset_mem_frame f a)
  · simp only [Machine.virt, if_neg hp]

theorem PagesKept.virt (h : PagesKept X s s') (ha : pageBase a ∉ X) : s'.virt a = s.virt a := by
  by_cases hp : IsPage (pageBase a)
  · exact (h _ hp ha).virt
  · simp only [Machine.virt, if_neg hp]

theorem virt_load64 (hp : IsPage page) (hf : s.node (SkipOS.pathOf page) = some f)
    (ha : WordIn page a) : s.virt.load64 a = s.mem.load64 (f + a % pageSize) := by
  rw [load64, load64, loadLE_shift fun i hi => ?_]
  obtain ⟨hpage, hoff⟩ := ha.byte hp hi
  have hnode : s.node (SkipOS.pathOf (a + BitVec.ofNat 64 i)) = some f := by
    rw [← pathOf_pageBase, hpage]
    exact hf
  rw [virt_of_node (hpage ▸ hp) hnode, hoff, BitVec.add_assoc]

/-! Writing to a page that is present. -/

/-- The frame of a page changed, and with it what is behind the page. -/
theorem VmInv.virt_write (h : VmInv managed limit s live P) (hp : IsPage page)
    (hf : s.node (pathOf page) = some f) (heq : Set.EqOn m s.mem (frame f)ᶜ) (b : Word) :
    Machine.virt { s with mem := m } b =
      if pageBase b = page then m (f + b % pageSize) else s.virt b := by
  obtain ⟨-, hnodes, -⟩ := h.writeFrame hp hf heq
  by_cases hb : pageBase b = page
  · have hnode : Machine.node { s with mem := m } (pathOf b) = some f := by
      rw [← pathOf_pageBase, hb, hnodes _ hp.pathOf_mem, hf]
    rw [if_pos hb, virt_of_node (hb ▸ hp) hnode]
  · rw [if_neg hb]
    by_cases hbp : IsPage (pageBase b)
    · have hnode := hnodes _ hbp.pathOf_mem
      rw [pathOf_pageBase] at hnode
      cases hg : s.node (pathOf b) with
      | none => simp only [Machine.virt, if_pos hbp, hnode, hg]
      | some g =>
        rw [virt_of_node hbp (hnode.trans hg), virt_of_node hbp hg]
        have hg' : s.node (pathOf (pageBase b)) = some g := by rw [pathOf_pageBase, hg]
        have hne : g ≠ f := by
          rintro rfl
          exact hb (pathOf_injOn hbp.1 hp.1 hbp.2.2 hp.2.2
            (h.tables.owns.unique _ hbp.pathOf_mem _ hp.pathOf_mem g hg' hf))
        have hdis := disjoint_frame (h.tables.node_aligned hbp.pathOf_mem hg')
          (h.tables.node_aligned hp.pathOf_mem hf) hne
        exact heq (Set.disjoint_left.mp hdis (offset_mem_frame g b))
    · simp only [Machine.virt, if_neg hbp]

theorem offset_sub (hpage : pageBase a = pageBase b) (f : Word) :
    f + b % pageSize - (f + a % pageSize) = b - a := by
  have ha := pageBase_add_offset a
  have hb := pageBase_add_offset b
  rw [← hpage] at hb
  generalize a % pageSize = x at *
  generalize b % pageSize = y at *
  bv_omega

theorem span_in_page (hp : IsPage page) (ha : WordIn page a) (hb : b ∈ span a 8) :
    pageBase b = page := by
  obtain ⟨hlo, hhi⟩ := ha
  rw [mem_span] at hb
  have := page.isLt
  have := hp.1
  exact pageBase_eq hp.1 (by bv_omega) (by bv_omega)

theorem store64_eqOn_frame (hp : IsPage page) (ha : WordIn page a) (f v : Word) :
    Set.EqOn (m.store64 (f + a % pageSize) v) m (frame f)ᶜ := by
  have hspan : span (f + a % pageSize) 8 ⊆ frame f := by
    refine span_offset_subset ?_
    have := ha.1
    have := ha.2
    have := hp.1
    rw [toNat_offset]
    omega
  exact (store64_eqOn_compl _ _ _).mono (Set.compl_subset_compl.mpr hspan)

theorem VmInv.virt_store64 (h : VmInv managed limit s live P) (hp : IsPage page)
    (hf : s.node (pathOf page) = some f) (ha : WordIn page a) (v : Word) :
    Machine.virt { s with mem := s.mem.store64 (f + a % pageSize) v } = s.virt.store64 a v := by
  have hpage := ha.pageBase hp
  have heq := store64_eqOn_frame (m := s.mem) hp ha f v
  funext b
  rw [h.virt_write hp hf heq]
  by_cases hb : pageBase b = page
  · have hoff := offset_sub (hpage.trans hb.symm) f
    have hiff : f + b % pageSize ∈ span (f + a % pageSize) 8 ↔ b ∈ span a 8 := by
      rw [mem_span, mem_span, hoff]
    have hnode : s.node (pathOf b) = some f := by
      rw [← pathOf_pageBase, hb, hf]
    have hold : s.virt b = s.mem (f + b % pageSize) := virt_of_node (hb ▸ hp) hnode
    simp only [if_pos hb, store64, storeLE, hiff, hoff, hold]
  · rw [if_neg hb, store64_eqOn_compl _ _ _ fun hs => hb (span_in_page hp ha hs)]

theorem VmInv.virt_storeByte (h : VmInv managed limit s live P) (hp : IsPage (pageBase a))
    (hf : s.node (pathOf a) = some f) (x : Byte) :
    Machine.virt { s with mem := s.mem.storeByte (f + a % pageSize) x } = s.virt.storeByte a x := by
  have hf' : s.node (pathOf (pageBase a)) = some f := by rw [pathOf_pageBase, hf]
  have heq := storeByte_eqOn_frame (offset_mem_frame f a) x s.mem
  funext b
  rw [h.virt_write hp hf' heq]
  by_cases hb : pageBase b = pageBase a
  · have hoff := offset_sub hb.symm f
    have hiff : f + b % pageSize = f + a % pageSize ↔ b = a := by
      constructor
      · intro he
        rw [he, BitVec.sub_self] at hoff
        bv_omega
      · rintro rfl
        rfl
    have hnode : s.node (pathOf b) = some f := by
      rw [← pathOf_pageBase, hb, hf']
    have hold : s.virt b = s.mem (f + b % pageSize) := virt_of_node (hb ▸ hp) hnode
    simp only [if_pos hb, storeByte, hiff, hold]
  · have hne : b ≠ a := by
      rintro rfl
      exact hb rfl
    simp only [if_neg hb, storeByte, if_neg hne]

end SkipOS
