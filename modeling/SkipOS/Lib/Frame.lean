import SkipOS.Lib.Memory

/-! Memory cut into 4 KiB frames. A frame is named by its aligned base; words of
different frames, and words at different multiples of 8 in one frame, never overlap. -/

namespace Mem

def Aligned (p : Word) : Prop := p.toNat % 4096 = 0

instance (p : Word) : Decidable (Aligned p) := inferInstanceAs (Decidable (_ = _))

/-- The bytes of the frame at `p`. -/
def frame (p : Word) : Set Word := span p 4096

/-- The bytes of a list of frames. -/
def frames (l : List Word) : Set Word := {a | ∃ p ∈ l, a ∈ frame p}

/-- Offsets of the 512 words of a frame. -/
def IsSlot (off : Word) : Prop := off.toNat % 8 = 0 ∧ off.toNat < 4096

instance (off : Word) : Decidable (IsSlot off) := inferInstanceAs (Decidable (_ ∧ _))

variable {m m' : Mem} {p q c d v : Word} {l l' : List Word}

theorem aligned_zero : Aligned 0 := by decide

theorem disjoint_frame (hp : Aligned p) (hq : Aligned q) (h : p ≠ q) :
    Disjoint (frame p) (frame q) := by
  rw [Aligned] at hp hq
  have hn : p.toNat ≠ q.toNat := fun he => h (BitVec.eq_of_toNat_eq he)
  have hpl := p.isLt
  have hql := q.isLt
  rcases Nat.lt_or_gt_of_ne hn with hlt | hlt
  · exact span_disjoint (by omega) (by omega)
  · exact (span_disjoint (by omega) (by omega)).symm

theorem span_slot_subset (hd : IsSlot d) : span (p + d) 8 ⊆ frame p := by
  rw [IsSlot] at hd
  exact span_offset_subset (by omega)

theorem disjoint_slot (hp : Aligned p) (hq : Aligned q) (hc : IsSlot c) (hd : IsSlot d)
    (h : p ≠ q ∨ c ≠ d) : Disjoint (span (p + c) 8) (span (q + d) 8) := by
  by_cases hpq : p = q
  · subst hpq
    have hcd : c ≠ d := h.resolve_left (fun hne => hne rfl)
    have hn : c.toNat ≠ d.toNat := fun he => hcd (BitVec.eq_of_toNat_eq he)
    rw [Aligned] at hp
    rw [IsSlot] at hc hd
    have hpl := p.isLt
    have hcs : (p + c).toNat = p.toNat + c.toNat := by bv_omega
    have hds : (p + d).toNat = p.toNat + d.toNat := by bv_omega
    rcases Nat.lt_or_gt_of_ne hn with hlt | hlt
    · exact span_disjoint (by omega) (by omega)
    · exact (span_disjoint (by omega) (by omega)).symm
  · exact (disjoint_frame hp hq hpq).mono (span_slot_subset hc) (span_slot_subset hd)

theorem field_setField_of_ne (hp : Aligned p) (hq : Aligned q) (hc : IsSlot c) (hd : IsSlot d)
    (h : p ≠ q ∨ c ≠ d) : (m.setField p c v).field q d = m.field q d :=
  load64_store64_of_disjoint (disjoint_slot hp hq hc hd h)

theorem field_congr (h : Set.EqOn m m' (frame p)) (hd : IsSlot d) : m.field p d = m'.field p d :=
  load64_congr (h.mono (span_slot_subset hd))

theorem setField_eqOn_compl_frame (m : Mem) (hd : IsSlot d) :
    Set.EqOn (m.setField p d v) m (frame p)ᶜ :=
  (setField_eqOn_compl m p d v).mono (Set.compl_subset_compl.mpr (span_slot_subset hd))

@[simp] theorem mem_frames {a : Word} : a ∈ frames l ↔ ∃ p ∈ l, a ∈ frame p := Iff.rfl

theorem frame_subset_frames (h : p ∈ l) : frame p ⊆ frames l := fun _ ha => ⟨p, h, ha⟩

theorem frames_mono (h : l ⊆ l') : frames l ⊆ frames l' := fun _ ⟨p, hp, ha⟩ => ⟨p, h hp, ha⟩

theorem frame_subset_compl_frames (hp : Aligned p) (hl : ∀ q ∈ l, Aligned q) (h : p ∉ l) :
    frame p ⊆ (frames l)ᶜ := by
  rintro a ha ⟨q, hq, haq⟩
  have hne : p ≠ q := fun he => h (he ▸ hq)
  exact Set.disjoint_left.mp (disjoint_frame hp (hl q hq) hne) ha haq

theorem setField_eqOn_compl_frames (m : Mem) (hp : p ∈ l) (hd : IsSlot d) :
    Set.EqOn (m.setField p d v) m (frames l)ᶜ :=
  (setField_eqOn_compl_frame m hd).mono (Set.compl_subset_compl.mpr (frame_subset_frames hp))

theorem field_fill_zero (hd : IsSlot d) : (m.fill p 4096 0).field p d = 0 :=
  load64_fill_zero (span_slot_subset hd)

end Mem
