import SkipOS.Pool

/-! The list primitives and the two entry points of the allocator, as operations
on the pool that memory holds. -/

namespace SkipOS

open Mem Exec

variable {m m' : Mem} {P : Pool} {p q h e v : Word}

theorem llNext_setLlNext_of_ne (hp : Aligned p) (hq : Aligned q) (hne : p ≠ q) :
    llNext (setLlNext p v m) q = llNext m q :=
  field_setField_of_ne hp hq (by decide) (by decide) (Or.inl hne)

theorem llPrev_setLlPrev_of_ne (hp : Aligned p) (hq : Aligned q) (hne : p ≠ q) :
    llPrev (setLlPrev p v m) q = llPrev m q :=
  field_setField_of_ne hp hq (by decide) (by decide) (Or.inl hne)

theorem llNext_setLlPrev (hp : Aligned p) (hq : Aligned q) :
    llNext (setLlPrev p v m) q = llNext m q :=
  field_setField_of_ne hp hq (by decide) (by decide) (Or.inr (by decide))

theorem llPrev_setLlNext (hp : Aligned p) (hq : Aligned q) :
    llPrev (setLlNext p v m) q = llPrev m q :=
  field_setField_of_ne hp hq (by decide) (by decide) (Or.inr (by decide))

theorem field_setLlNext (hp : Aligned p) (hq : Aligned q) {d : Word} (hd : IsSlot d) (h0 : d ≠ 0) :
    (setLlNext p v m).field q d = m.field q d :=
  field_setField_of_ne hp hq (by decide) hd (Or.inr h0.symm)

theorem field_setLlPrev (hp : Aligned p) (hq : Aligned q) {d : Word} (hd : IsSlot d) (h8 : d ≠ 8) :
    (setLlPrev p v m).field q d = m.field q d :=
  field_setField_of_ne hp hq (by decide) hd (Or.inr h8.symm)

/-- The four stores of `add_elem`, with the reads of the old tail resolved. -/
theorem addElem_eq (hh : Aligned h) (he : Aligned e) (hne : e ≠ h) :
    addElem h e m = setLlPrev h e (setLlNext (llPrev m h) e
      (setLlPrev e (llPrev m h) (setLlNext e h m))) := by
  have h1 : llPrev (setLlNext e h m) h = llPrev m h := llPrev_setLlNext he hh
  have h2 : llPrev (setLlPrev e (llPrev m h) (setLlNext e h m)) h = llPrev m h :=
    (llPrev_setLlPrev_of_ne he hh hne).trans h1
  simp only [addElem, h1, h2]

section AddElem

variable (hh : Aligned h) (he : Aligned e) (hne : e ≠ h)

include hh he hne

theorem addElem_prev_head : llPrev (addElem h e m) h = e := by
  rw [addElem_eq hh he hne]
  exact field_setField_self _ _ _ _

variable (ht : Aligned (llPrev m h))

include ht

theorem addElem_next_new (hnt : e ≠ llPrev m h) : llNext (addElem h e m) e = h := by
  rw [addElem_eq hh he hne, llNext_setLlPrev hh he, llNext_setLlNext_of_ne ht he hnt.symm,
    llNext_setLlPrev he he]
  exact field_setField_self _ _ _ _

theorem addElem_prev_new : llPrev (addElem h e m) e = llPrev m h := by
  rw [addElem_eq hh he hne, llPrev_setLlPrev_of_ne hh he hne.symm, llPrev_setLlNext ht he]
  exact field_setField_self _ _ _ _

theorem addElem_next_tail : llNext (addElem h e m) (llPrev m h) = e := by
  rw [addElem_eq hh he hne, llNext_setLlPrev hh ht]
  exact field_setField_self _ _ _ _

theorem addElem_next_other (hq : Aligned q) (hqe : q ≠ e) (hqt : q ≠ llPrev m h) :
    llNext (addElem h e m) q = llNext m q := by
  rw [addElem_eq hh he hne, llNext_setLlPrev hh hq, llNext_setLlNext_of_ne ht hq hqt.symm,
    llNext_setLlPrev he hq, llNext_setLlNext_of_ne he hq hqe.symm]

theorem addElem_prev_other (hq : Aligned q) (hqe : q ≠ e) (hqh : q ≠ h) :
    llPrev (addElem h e m) q = llPrev m q := by
  rw [addElem_eq hh he hne, llPrev_setLlPrev_of_ne hh hq hqh.symm, llPrev_setLlNext ht hq,
    llPrev_setLlPrev_of_ne he hq hqe.symm, llPrev_setLlNext he hq]

theorem addElem_field (hq : Aligned q) {d : Word} (hd : IsSlot d) (h0 : d ≠ 0) (h8 : d ≠ 8) :
    (addElem h e m).field q d = m.field q d := by
  rw [addElem_eq hh he hne, field_setLlPrev hh hq hd h8, field_setLlNext ht hq hd h0,
    field_setLlPrev he hq hd h8, field_setLlNext he hq hd h0]

end AddElem

/-- The links under the head at address 0 run through `l`. -/
def LlRing (m : Mem) (l : List Word) : Prop := Ring.IsRing (llNext m) (llPrev m) 0 l

variable {l : List Word}

theorem LlRing.tail_mem (h : LlRing m l) : llPrev m 0 ∈ 0 :: l := by
  rw [h.prev_head]
  exact List.getLast_mem _

theorem PoolRep.of_fields (h : PoolRep m P) (hr : LlRing m' l)
    (hf : ∀ d, IsSlot d → d ≠ 0 → d ≠ 8 → m'.field 0 d = m.field 0 d) :
    PoolRep m' { P with pages := l } := by
  refine ⟨hr, ?_, ?_, ?_⟩
  · exact (hf 16 (by decide) (by decide) (by decide)).trans h.base
  · exact (hf 24 (by decide) (by decide) (by decide)).trans h.length
  · exact (hf 32 (by decide) (by decide) (by decide)).trans h.count

theorem setLlNext_eqOn (hp : p ∈ l) :
    Set.EqOn (setLlNext p v m) m (frames l)ᶜ :=
  setField_eqOn_compl_frames m hp (by decide)

theorem setLlPrev_eqOn (hp : p ∈ l) :
    Set.EqOn (setLlPrev p v m) m (frames l)ᶜ :=
  setField_eqOn_compl_frames m hp (by decide)

theorem addElem_eqOn (h : LlRing m l) (he : Aligned e) (h0 : e ≠ 0) :
    Set.EqOn (addElem 0 e m) m (frames (0 :: e :: l))ᶜ := by
  have hem : e ∈ 0 :: e :: l := List.mem_cons_of_mem _ List.mem_cons_self
  have ht : llPrev m 0 ∈ 0 :: e :: l := by
    rcases List.mem_cons.mp h.tail_mem with hm | hm
    · rw [hm]
      exact List.mem_cons_self
    · exact List.mem_cons_of_mem _ (List.mem_cons_of_mem _ hm)
  rw [addElem_eq aligned_zero he h0]
  have h1 := setLlNext_eqOn (m := m) (v := 0) hem
  have h2 := (setLlPrev_eqOn (v := llPrev m 0) hem).trans h1
  have h3 := (setLlNext_eqOn (v := e) ht).trans h2
  exact (setLlPrev_eqOn List.mem_cons_self).trans h3

theorem addElem_ring (h : LlRing m l) (hnd : (0 :: l).Nodup) (hal : ∀ x ∈ l, Aligned x)
    (he : Aligned e) (h0 : e ≠ 0) (hf : e ∉ l) : LlRing (addElem 0 e m) (l ++ [e]) := by
  have hz := aligned_zero
  have hal' : ∀ x ∈ 0 :: l, Aligned x := List.forall_mem_cons.mpr ⟨hz, hal⟩
  have ht : Aligned (llPrev m 0) := hal' _ h.tail_mem
  have hm : e ∉ 0 :: l := fun hm => (List.mem_cons.mp hm).elim h0 hf
  have hnt : e ≠ llPrev m 0 := fun hh => hm (hh ▸ h.tail_mem)
  refine Ring.IsRing.push h hnd (addElem_next_new hz he h0 ht hnt)
    (addElem_prev_new hz he h0 ht) (addElem_next_tail hz he h0 ht)
    (addElem_prev_head hz he h0) ?_ ?_
  · intro x hx hxt
    exact addElem_next_other hz he h0 ht (hal' x hx) (fun hh => hm (hh ▸ hx)) hxt
  · intro x hx
    exact addElem_prev_other hz he h0 ht (hal x hx) (fun hh => hf (hh ▸ hx))
      (fun hh => (List.nodup_cons.mp hnd).1 (hh ▸ hx))

theorem addElem_rep (h : PoolRep m P) (hnd : (0 :: P.pages).Nodup)
    (hal : ∀ x ∈ P.pages, Aligned x) (he : Aligned e) (h0 : e ≠ 0) (hf : e ∉ P.pages) :
    PoolRep (addElem 0 e m) (P.push e) := by
  have hz := aligned_zero
  have hr : LlRing m P.pages := h.ring
  have ht : Aligned (llPrev m 0) :=
    (List.forall_mem_cons.mpr ⟨hz, hal⟩ : ∀ x ∈ 0 :: P.pages, Aligned x) _ hr.tail_mem
  exact h.of_fields (addElem_ring hr hnd hal he h0 hf)
    (fun d hd hd0 hd8 => addElem_field hz he h0 ht hz hd hd0 hd8)

theorem mmuPfFree_rep (h : PoolRep m P) (hP : P.Wf) (he : Aligned e) (h0 : e ≠ 0)
    (hf : e ∉ P.free) :
    ∃ m', mmuPfFree e m = .ok () m' ∧ PoolRep m' (P.push e) ∧
      Set.EqOn m' m (frames (0 :: e :: P.pages))ᶜ := by
  refine ⟨addElem 0 e m, ?_, ?_, addElem_eqOn h.ring he h0⟩
  · rw [mmuPfFree, bind_assert_of h0, modify_apply, getLlHeadInfoPtr]
  · exact addElem_rep h hP.pages_nodup
      (fun x hx => hP.aligned x (List.mem_append_left _ hx)) he h0
      (fun hm => hf (List.mem_append_left _ hm))

/-- The emptiness test is also true of a list of one page. -/
theorem isEmpty_iff (h : PoolRep m P) (hnd : (0 :: P.pages).Nodup) :
    isEmpty m 0 = true ↔ P.pages.length ≤ 1 := by
  rw [isEmpty, beq_iff_eq]
  exact h.ring.next_eq_prev_iff hnd

theorem popElem_rep (h : PoolRep m P) (hP : P.Wf) (hl : P.pages = l ++ [e])
    (hne : l ≠ []) :
    ∃ m', popElem 0 m = .ok e m' ∧ PoolRep m' P.drop ∧
      Set.EqOn m' m (frames (0 :: P.pages))ᶜ := by
  have hz := aligned_zero
  have hlen : ¬ P.pages.length ≤ 1 := by
    have := List.length_pos_of_ne_nil hne
    rw [hl, List.length_append, List.length_singleton]
    omega
  have hr : Ring.IsRing (llNext m) (llPrev m) 0 (l ++ [e]) := hl ▸ h.ring
  have hal : ∀ x ∈ 0 :: (l ++ [e]), Aligned x := fun x hx => hP.pages_aligned (hl ▸ hx)
  have hnd : (0 :: (l ++ [e])).Nodup := hl ▸ hP.pages_nodup
  have hndl : (0 :: l).Nodup := hnd.sublist ((List.sublist_append_left l [e]).cons_cons 0)
  have hel : e ∉ 0 :: l := by
    have hperm : ((0 :: l) ++ [e]).Perm ([e] ++ (0 :: l)) := List.perm_append_comm
    exact (List.nodup_cons.mp (hperm.nodup_iff.mp hnd)).1
  have he : Aligned e := hal e (by simp)
  have hbm : llPrev m e ∈ 0 :: l := by
    rw [hr.prev_of_last]
    exact List.getLast_mem _
  have hb : Aligned (llPrev m e) :=
    hal _ (((List.sublist_append_left l [e]).cons_cons 0).subset hbm)
  have hprev : llPrev m 0 = e := hr.prev_last
  let m' := setLlPrev 0 (llPrev m e) (setLlNext (llPrev m e) 0 m)
  have hrun : popElem 0 m = .ok e m' := by
    have hemp : ¬ isEmpty m 0 = true := fun hh => hlen ((isEmpty_iff h hP.pages_nodup).mp hh)
    have hread : llPrev (setLlNext (llPrev m e) 0 m) e = llPrev m e := llPrev_setLlNext hb he
    rw [popElem, bind_get, bind_assert_of hemp]
    simp only [bind_modify, hprev, hread]
    rfl
  have hdrop : P.drop.pages = l := by simp [Pool.drop, hl]
  refine ⟨m', hrun, ?_, ?_⟩
  · have hring : Ring.IsRing (llNext m') (llPrev m') 0 l := by
      refine hr.pop hndl ?_ (field_setField_self _ _ _ _) ?_ ?_
      · rw [llNext_setLlPrev hz hb]
        exact field_setField_self _ _ _ _
      · intro x hx hxb
        have hxa := hal x (((List.sublist_append_left l [e]).cons_cons 0).subset hx)
        rw [llNext_setLlPrev hz hxa, llNext_setLlNext_of_ne hb hxa hxb.symm]
      · intro x hx
        have hxa := hal x (List.mem_cons_of_mem _ (List.mem_append_left _ hx))
        have hx0 : (0 : Word) ≠ x := fun hh => (List.nodup_cons.mp hndl).1 (hh ▸ hx)
        rw [llPrev_setLlPrev_of_ne hz hxa hx0, llPrev_setLlNext hb hxa]
    have hrep : PoolRep m' { P with pages := l } := by
      refine h.of_fields hring (fun d hd hd0 hd8 => ?_)
      rw [field_setLlPrev hz hz hd hd8, field_setLlNext hb hz hd hd0]
    rw [← hdrop] at hrep
    exact hrep
  · have hbp : llPrev m e ∈ 0 :: P.pages := by
      rw [hl]
      exact ((List.sublist_append_left l [e]).cons_cons 0).subset hbm
    exact (setLlPrev_eqOn List.mem_cons_self).trans (setLlNext_eqOn hbp)

end SkipOS
