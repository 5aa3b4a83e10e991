import SkipOS.Lib.Memory

/-! A stack of 64-bit words in memory, top first, growing towards lower addresses. -/

namespace Stack

open Mem

/-- The words of `l` lie at `sp`, `sp + 8` and so on. -/
def At (m : Mem) (sp : Word) (l : List Word) : Prop :=
  ∀ i v, l[i]? = some v → m.load64 (sp + BitVec.ofNat 64 (8 * i)) = v

variable {m m' : Mem} {sp v : Word} {l : List Word}

theorem disjoint_slots {i j n : Nat} (hi : i < n) (hj : j < n) (hn : 8 * n ≤ 2 ^ 64)
    (h : i ≠ j) :
    Disjoint (span (sp + BitVec.ofNat 64 (8 * i)) 8) (span (sp + BitVec.ofNat 64 (8 * j)) 8) := by
  rw [Set.disjoint_left]
  intro c hc hc'
  rw [mem_span] at hc hc'
  bv_omega

theorem slot_subset {i : Nat} (hi : i < l.length) (hn : 8 * l.length < 2 ^ 64) :
    span (sp + BitVec.ofNat 64 (8 * i)) 8 ⊆ span sp (8 * l.length) := by
  apply span_offset_subset
  bv_omega

theorem At.congr (h : At m sp l) (hn : 8 * l.length < 2 ^ 64)
    (he : Set.EqOn m' m (span sp (8 * l.length))) : At m' sp l := by
  intro i v hv
  obtain ⟨hi, -⟩ := List.getElem?_eq_some_iff.mp hv
  rw [load64_congr (he.mono (slot_subset hi hn))]
  exact h i v hv

theorem At.store {i : Nat} (h : At m sp l) (hn : 8 * l.length < 2 ^ 64) (hi : i < l.length) :
    At (m.store64 (sp + BitVec.ofNat 64 (8 * i)) v) sp (l.set i v) := by
  intro j w hw
  by_cases hij : i = j
  · subst hij
    rw [List.getElem?_set_self hi, Option.some.injEq] at hw
    rw [load64_store64_self, hw]
  · rw [List.getElem?_set_ne hij] at hw
    obtain ⟨hj, -⟩ := List.getElem?_eq_some_iff.mp hw
    rw [load64_store64_of_disjoint (disjoint_slots hi hj (by omega) hij)]
    exact h j w hw

theorem At.push (h : At m sp l) (hn : 8 * (l.length + 1) < 2 ^ 64) :
    At (m.store64 (sp - 8) v) (sp - 8) (v :: l) := by
  have hold : At m (sp - 8) (m.load64 (sp - 8) :: l) := by
    intro i w hw
    cases i with
    | zero => simpa using hw
    | succ i =>
      have hs : sp - 8 + BitVec.ofNat 64 (8 * (i + 1)) = sp + BitVec.ofNat 64 (8 * i) := by bv_omega
      rw [hs]
      exact h i w (by simpa using hw)
  have hnew := hold.store (v := v) (i := 0) (by simpa using hn) (by simp)
  simpa using hnew

theorem At.pop (h : At m sp (v :: l)) : m.load64 sp = v ∧ At m (sp + 8) l := by
  constructor
  · simpa using h 0 v (by simp)
  · intro i w hw
    have hs : sp + 8 + BitVec.ofNat 64 (8 * i) = sp + BitVec.ofNat 64 (8 * (i + 1)) := by bv_omega
    rw [hs]
    exact h (i + 1) w (by simpa using hw)

theorem At.load {i : Nat} (h : At m sp l) (hv : l[i]? = some v) :
    m.load64 (sp + BitVec.ofNat 64 (8 * i)) = v := h i v hv

end Stack
