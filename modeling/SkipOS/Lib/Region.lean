import SkipOS.Lib.Memory
import Mathlib.Data.List.Basic

/-! Regions of memory that do not wrap, and regions cut into pieces of one size. -/

namespace Mem

structure Region where
  base : Word
  len : Nat
  deriving DecidableEq

namespace Region

def bytes (r : Region) : Set Word := span r.base r.len

def Fits (r : Region) : Prop := r.base.toNat + r.len ≤ 2 ^ 64

/-- One ends before the other starts. -/
def Apart (r t : Region) : Prop :=
  r.base.toNat + r.len ≤ t.base.toNat ∨ t.base.toNat + t.len ≤ r.base.toNat

def Within (r t : Region) : Prop :=
  t.base.toNat ≤ r.base.toNat ∧ r.base.toNat + r.len ≤ t.base.toNat + t.len

instance (r : Region) (a : Word) : Decidable (a ∈ r.bytes) :=
  inferInstanceAs (Decidable (a ∈ span _ _))

instance (r : Region) : Decidable r.Fits := inferInstanceAs (Decidable (_ ≤ _))

instance (r t : Region) : Decidable (r.Apart t) := inferInstanceAs (Decidable (_ ∨ _))

variable {r t u : Region} {n d : Nat}

theorem Apart.symm (h : r.Apart t) : t.Apart r := Or.symm h

theorem Apart.disjoint (h : r.Apart t) (hr : r.Fits) (ht : t.Fits) :
    Disjoint r.bytes t.bytes := by
  rcases h with h | h
  · exact span_disjoint h ht
  · exact (span_disjoint h hr).symm

theorem Apart.ne (h : r.Apart t) (hr : 0 < r.len) : r ≠ t := by
  rintro rfl
  rw [Apart] at h
  omega

theorem Within.refl (r : Region) : r.Within r := ⟨Nat.le_refl _, Nat.le_refl _⟩

theorem Within.fits (h : r.Within t) (ht : t.Fits) : r.Fits := by
  rw [Within] at h
  rw [Fits] at ht ⊢
  omega

theorem Within.apart (h : r.Within t) (ht : t.Apart u) : r.Apart u := by
  rw [Within] at h
  rw [Apart] at ht ⊢
  omega

theorem span_base_subset_bytes (hn : n ≤ r.len) : span r.base n ⊆ r.bytes := span_mono hn

end Region

/-- `n` addresses at distance `size` from `base` on. -/
def strides (base size : Word) : Nat → List Word
  | 0 => []
  | n + 1 => base :: strides (base + size) size n

variable {base size c : Word} {n : Nat}

@[simp] theorem length_strides (base size : Word) (n : Nat) : (strides base size n).length = n := by
  induction n generalizing base with
  | zero => rfl
  | succ n ih => rw [strides, List.length_cons, ih]

theorem mem_strides (hsize : 0 < size.toNat) (hfits : base.toNat + size.toNat * n ≤ 2 ^ 64) :
    c ∈ strides base size n ↔ ∃ k < n, c.toNat = base.toNat + size.toNat * k := by
  induction n generalizing base with
  | zero => simp [strides]
  | succ n ih =>
    rw [Nat.mul_succ] at hfits
    rw [strides, List.mem_cons]
    by_cases hn : n = 0
    · subst hn
      constructor
      · rintro (rfl | h)
        · exact ⟨0, by omega, by simp⟩
        · simp [strides] at h
      · rintro ⟨k, hk, he⟩
        obtain rfl : k = 0 := by omega
        exact Or.inl (BitVec.eq_of_toNat_eq (by simpa using he))
    · have hpos : 0 < size.toNat * n := Nat.mul_pos hsize (by omega)
      have hnext : (base + size).toNat = base.toNat + size.toNat := by bv_omega
      rw [ih (by omega), hnext]
      constructor
      · rintro (rfl | ⟨k, hk, he⟩)
        · exact ⟨0, by omega, by simp⟩
        · exact ⟨k + 1, by omega, by rw [he, Nat.mul_succ]; omega⟩
      · rintro ⟨k, hk, he⟩
        cases k with
        | zero => exact Or.inl (BitVec.eq_of_toNat_eq (by simpa using he))
        | succ k => exact Or.inr ⟨k, by omega, by rw [he, Nat.mul_succ]; omega⟩

theorem strides_within (hsize : 0 < size.toNat) (hfits : base.toNat + size.toNat * n ≤ 2 ^ 64)
    (hc : c ∈ strides base size n) :
    (Region.mk c size.toNat).Within ⟨base, size.toNat * n⟩ := by
  obtain ⟨k, hk, he⟩ := (mem_strides hsize hfits).mp hc
  have hle : size.toNat * (k + 1) ≤ size.toNat * n := Nat.mul_le_mul_left _ hk
  rw [Nat.mul_succ] at hle
  refine ⟨?_, ?_⟩
  · simp only
    omega
  · simp only
    omega

theorem strides_apart (hsize : 0 < size.toNat) (hfits : base.toNat + size.toNat * n ≤ 2 ^ 64) :
    ((strides base size n).map fun c => Region.mk c size.toNat).Pairwise Region.Apart := by
  induction n generalizing base with
  | zero => exact List.Pairwise.nil
  | succ n ih =>
    rw [Nat.mul_succ] at hfits
    by_cases hn : n = 0
    · subst hn
      simp [strides]
    · have hpos : 0 < size.toNat * n := Nat.mul_pos hsize (by omega)
      have hnext : (base + size).toNat = base.toNat + size.toNat := by bv_omega
      rw [strides, List.map_cons, List.pairwise_cons]
      refine ⟨fun r hr => ?_, ih (by omega)⟩
      obtain ⟨d, hd, rfl⟩ := List.mem_map.mp hr
      obtain ⟨k, -, he⟩ := (mem_strides hsize (by omega)).mp hd
      left
      simp only
      omega

end Mem
