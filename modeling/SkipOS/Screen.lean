import SkipOS.Vga
import SkipOS.Device

/-! What the loops of `vga.c` do to the cells of the screen. -/

namespace SkipOS

open Prog

variable {δ : Type} {D : Device δ} {s s' : DriverState} {d : δ} {i n : Nat} {offset : BitVec 16}
  {cells : List (BitVec 16)} {v : Var}

abbrev NoHalt : Action → DriverState × δ → Prop := fun o _ => o ≠ .halt

def DriverState.cell (s : DriverState) (i : Nat) : BitVec 16 :=
  s.vars (.vgaBuff (BitVec.ofNat 16 i))

theorem Action.OnScreen.keeps {o : Action} {u u' : DriverState × δ} {r : o.Res} (ho : o.OnScreen)
    (h : D.Exec o u r u') (hv : ¬ v.OnScreen) : u'.1.vars v = u.1.vars v := by
  have hdriver := h.driver
  cases o with
  | pushfq => rw [hdriver.2]
  | load w => rw [hdriver.2]
  | store w x =>
    have hne : v ≠ w := by
      rintro rfl
      exact hv ho
    rw [hdriver]
    exact Function.update_of_ne hne x u.1.vars
  | halt => exact hdriver.elim
  | _ => exact ho.elim

/-- Only the `n` cells from `start` on differ, and they are those of `f`. -/
structure Filled (s : DriverState) (start n : Nat) (f : Nat → BitVec 16) (s' : DriverState) :
    Prop where
  inside : ∀ i, start ≤ i → i < start + n → s'.cell i = f i
  outside : ∀ i, i < 2 ^ 16 → i < start ∨ start + n ≤ i → s'.cell i = s.cell i
  others : ∀ v : Var, (∀ o, v ≠ .vgaBuff o) → s'.vars v = s.vars v

theorem cell_set (x : BitVec 16) (hi : i < 2 ^ 16) :
    (s.set (.vgaBuff offset) x).cell i = if i = offset.toNat then x else s.cell i := by
  by_cases he : i = offset.toNat
  · rw [if_pos he, DriverState.cell, he, BitVec.ofNat_toNat, BitVec.setWidth_eq, DriverState.set_self]
  · rw [if_neg he, DriverState.cell, DriverState.set_of_ne]
    · rfl
    · rw [Ne, Var.vgaBuff.injEq]
      rintro rfl
      rw [toNat_ofNat_of_lt hi] at he
      exact he rfl

@[simp] theorem cell_set_other {x : v.Ty} (hv : ∀ o, v ≠ .vgaBuff o) :
    (s.set v x).cell i = s.cell i :=
  DriverState.set_of_ne x fun he => hv _ he.symm

theorem Filled.refl (f : Nat → BitVec 16) : Filled s i 0 f s :=
  ⟨fun j hj hj' => by omega, fun _ _ _ => rfl, fun _ _ => rfl⟩

theorem Filled.cons {f : Nat → BitVec 16} (hoff : offset.toNat = i)
    (h : Filled (s.set (.vgaBuff offset) (f i)) (i + 1) n f s') : Filled s i (n + 1) f s' := by
  refine ⟨fun j hj hj' => ?_, fun j hj hout => ?_, fun v hv => ?_⟩
  · by_cases he : j = i
    · rw [he, h.outside i (by omega) (Or.inl (by omega)), cell_set _ (by omega), if_pos hoff.symm]
    · exact h.inside j (by omega) (by omega)
  · rw [h.outside j hj (by omega), cell_set _ hj, if_neg (by omega)]
  · rw [h.others v hv, DriverState.set_of_ne _ (hv offset)]

theorem Filled.congr {f g : Nat → BitVec 16} (h : Filled s i n f s')
    (hfg : ∀ j, i ≤ j → j < i + n → f j = g j) : Filled s i n g s' :=
  ⟨fun j hj hj' => (h.inside j hj hj').trans (hfg j hj hj'), h.outside, h.others⟩

theorem clearLoop_wp {Q : Unit → DriverState × δ → Prop} (hend : offset.toNat + n ≤ 2000)
    (hQ : ∀ s', Filled s offset.toNat n (fun _ => vgaColorMask) s' → Q () (s', d)) :
    (clearLoop n offset).wp NoHalt D.Exec Q (s, d) := by
  induction n generalizing s offset with
  | zero => exact hQ s (.refl _)
  | succ n ih =>
    have hlt : offset < vgaCellCount := by
      rw [BitVec.lt_def]
      exact Nat.lt_of_lt_of_le (by omega) (show 2000 ≤ vgaCellCount.toNat by decide)
    have hnext : (offset + 1).toNat = offset.toNat + 1 := by bv_omega
    have he : clearLoop (n + 1) offset =
        (store (.vgaBuff offset) vgaColorMask >>= fun _ => clearLoop n (offset + 1)) := by
      simp [clearLoop, clearAtOffset, driverAssert, hlt]
    rw [he]
    refine wp_store_bind.mpr ⟨by simp, ih (by omega) fun s' h => hQ s' ?_⟩
    rw [hnext] at h
    exact h.cons rfl

theorem readCells_wp {Q : List (BitVec 16) → DriverState × δ → Prop}
    (hend : offset.toNat + n ≤ 2000)
    (hQ : Q ((List.range n).map fun k => s.cell (offset.toNat + k)) (s, d)) :
    (readCells n offset).wp NoHalt D.Exec Q (s, d) := by
  induction n generalizing offset Q with
  | zero => exact hQ
  | succ n ih =>
    have hnext : (offset + 1).toNat = offset.toNat + 1 := by bv_omega
    rw [readCells]
    refine wp_load_bind.mpr ⟨by simp, wp_bind (ih (by omega) ?_)⟩
    have hcell : s.cell (offset.toNat + 0) = s.vars (.vgaBuff offset) := by
      rw [Nat.add_zero, DriverState.cell, BitVec.ofNat_toNat, BitVec.setWidth_eq]
    rw [List.range_succ_eq_map, List.map_cons, List.map_map, hcell] at hQ
    simpa only [hnext, Function.comp_def, Nat.add_assoc, Nat.add_comm 1, pure_eq, wp_ret,
      Nat.succ_eq_add_one] using hQ

theorem writeCells_wp {Q : Unit → DriverState × δ → Prop}
    (hend : offset.toNat + cells.length ≤ 2000)
    (hQ : ∀ s', Filled s offset.toNat cells.length (fun i => cells.getD (i - offset.toNat) 0) s' →
      Q () (s', d)) :
    (writeCells cells offset).wp NoHalt D.Exec Q (s, d) := by
  induction cells generalizing s offset with
  | nil => exact hQ s (.refl _)
  | cons cell cells ih =>
    rw [List.length_cons] at hend hQ
    have hnext : (offset + 1).toNat = offset.toNat + 1 := by bv_omega
    rw [writeCells]
    refine wp_store_bind.mpr ⟨by simp, ih (by omega) fun s' h => hQ s' ?_⟩
    rw [hnext] at h
    have hhead : cell = (cell :: cells).getD (offset.toNat - offset.toNat) 0 := by simp
    rw [hhead] at h
    refine Filled.cons rfl (h.congr fun j hj _ => ?_)
    have hsucc : j - offset.toNat = j - (offset.toNat + 1) + 1 := by omega
    rw [hsucc, List.getD_cons_succ]

/-- Every row moves up by one and the last becomes blank. -/
theorem scroll_wp {Q : Unit → DriverState × δ → Prop}
    (hQ : ∀ s', (∀ i, i < 1920 → s'.cell i = s.cell (i + 80)) →
      (∀ i, 1920 ≤ i → i < 2000 → s'.cell i = vgaColorMask) →
      (∀ v : Var, (∀ o, v ≠ .vgaBuff o) → s'.vars v = s.vars v) → Q () (s', d)) :
    scroll.wp NoHalt D.Exec Q (s, d) := by
  have hcount : vgaCellCount.toNat = 2000 := by simp [vgaCellCount]
  have hwidth : vgaWidth.toNat = 80 := by simp [vgaWidth]
  have hkept : (vgaCellCount - vgaWidth).toNat = 1920 := by simp [vgaCellCount, vgaWidth]
  have hstart : (getOffsetFromCoord 0 (vgaHeight - 1)).toNat = 1920 := by
    simp [getOffsetFromCoord, vgaHeight, vgaWidth]
  rw [scroll, hcount, hwidth, hkept]
  apply wp_bind
  apply readCells_wp
  · simp
  generalize htemp : ((List.range 2000).map fun k => s.cell ((0 : BitVec 16).toNat + k)) = temp
  generalize hcells : (temp.drop 80).take 1920 = cells
  apply wp_bind
  have hlen : cells.length = 1920 := by simp [← hcells, ← htemp]
  apply writeCells_wp
  · simp [hlen]
  intro s₁ h₁
  rw [hlen] at h₁
  rw [clearBottomRow, hwidth]
  apply clearLoop_wp
  · rw [hstart]
  intro s₂ h₂
  rw [hstart] at h₂
  apply hQ
  · intro i hi
    rw [h₂.outside i (by omega) (Or.inl hi), h₁.inside i (by simp) (by simpa using hi)]
    have hget : cells[i]? = some (s.cell (i + 80)) := by
      rw [← hcells, ← htemp, List.getElem?_take_of_lt hi, List.getElem?_drop, List.getElem?_map,
        List.getElem?_range (by omega)]
      simp [Nat.add_comm 80]
    simp [List.getD, hget]
  · intro i hi hi'
    exact h₂.inside i hi hi'
  · intro v hv
    rw [h₂.others v hv, h₁.others v hv]

end SkipOS
