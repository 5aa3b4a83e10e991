import Mathlib.Data.List.Chain
import Mathlib.Logic.Function.Iterate

/-! Circular doubly linked lists given by two link functions on arbitrary nodes.
A ring is known by its head and the other members in forward order. -/

namespace Ring

variable {α : Type*} {next prev next' prev' : α → α} {h e : α} {l : List α}

def Linked (next prev : α → α) (x y : α) : Prop := next x = y ∧ prev y = x

/-- The nodes `l` hang on the head `h` in this order, and the last is linked back to it. -/
def IsRing (next prev : α → α) (h : α) (l : List α) : Prop :=
  (h :: l ++ [h]).IsChain (Linked next prev)

theorem isRing_nil : IsRing next prev h [] ↔ next h = h ∧ prev h = h := by
  simp [IsRing, Linked]

theorem isRing_append_singleton :
    IsRing next prev h (l ++ [e]) ↔
      (h :: l ++ [e]).IsChain (Linked next prev) ∧ Linked next prev e h := by
  have hsplit : (h :: l ++ e :: h :: []).IsChain (Linked next prev) ↔ _ :=
    List.isChain_append_cons_cons
  simp only [IsRing, List.cons_append, List.append_assoc, List.nil_append,
    List.isChain_singleton, and_true] at hsplit ⊢
  exact hsplit

theorem IsRing.prev_head (hr : IsRing next prev h l) : prev h = (h :: l).getLast (by simp) := by
  cases l using List.reverseRecOn with
  | nil => exact (isRing_nil.mp hr).2
  | append_singleton l e => simpa using (isRing_append_singleton.mp hr).2.2

theorem IsRing.next_head (hr : IsRing next prev h l) : next h = (l ++ [h]).head (by simp) := by
  cases l with
  | nil => exact (isRing_nil.mp hr).1
  | cons x xs => exact (List.isChain_cons_cons.mp hr).1.1

/-- Two links decide between at most one and at least two further nodes. -/
theorem IsRing.next_eq_prev_iff (hr : IsRing next prev h l) (hnd : (h :: l).Nodup) :
    next h = prev h ↔ l.length ≤ 1 := by
  rw [hr.next_head, hr.prev_head]
  match l, hnd with
  | [], _ => simp
  | [x], _ => simp
  | x :: y :: xs, hnd =>
    have hx : x ∉ y :: xs := (List.nodup_cons.mp (List.nodup_cons.mp hnd).2).1
    have hne : x ≠ (y :: xs).getLast (by simp) := fun he => hx (he ▸ List.getLast_mem _)
    simpa using hne

theorem isChain_linked_congr {l : List α} (hn : ∀ x ∈ l, next' x = next x)
    (hp : ∀ x ∈ l, prev' x = prev x) (hc : l.IsChain (Linked next prev)) :
    l.IsChain (Linked next' prev') :=
  hc.imp_of_mem_imp (fun x y hx hy hl => ⟨(hn x hx).trans hl.1, (hp y hy).trans hl.2⟩)

theorem IsRing.congr (hr : IsRing next prev h l) (hn : ∀ x ∈ h :: l, next' x = next x)
    (hp : ∀ x ∈ h :: l, prev' x = prev x) : IsRing next' prev' h l := by
  have hm : ∀ x ∈ h :: l ++ [h], x ∈ h :: l := by
    intro x hx
    rcases List.mem_append.mp hx with hx | hx
    · exact hx
    · simp only [List.mem_singleton] at hx
      exact hx ▸ List.mem_cons_self
  exact isChain_linked_congr (fun x hx => hn x (hm x hx)) (fun x hx => hp x (hm x hx)) hr

/-- A path whose inner links are untouched survives a change of the forward link of its
last node and of the backward link of its first one. -/
theorem isChain_linked_inner {l : List α} (hnd : (h :: l).Nodup)
    (hn : ∀ x ∈ (h :: l).dropLast, next' x = next x) (hp : ∀ x ∈ l, prev' x = prev x)
    (hc : (h :: l).IsChain (Linked next prev)) : (h :: l).IsChain (Linked next' prev') := by
  induction l generalizing h with
  | nil => exact List.isChain_singleton _
  | cons x xs ih =>
    have hs := List.isChain_cons_cons.mp hc
    have hd : (h :: x :: xs).dropLast = h :: (x :: xs).dropLast := rfl
    refine List.isChain_cons_cons.mpr ⟨⟨?_, ?_⟩, ?_⟩
    · exact (hn h (by rw [hd]; exact List.mem_cons_self)).trans hs.1.1
    · exact (hp x List.mem_cons_self).trans hs.1.2
    · exact ih (List.nodup_cons.mp hnd).2
        (fun y hy => hn y (by rw [hd]; exact List.mem_cons_of_mem _ hy))
        (fun y hy => hp y (List.mem_cons_of_mem _ hy)) hs.2

theorem mem_dropLast_ne_getLast {l : List α} (hnd : (h :: l).Nodup) {x : α}
    (hx : x ∈ (h :: l).dropLast) : x ≠ (h :: l).getLast (by simp) := by
  intro he
  have hd := List.dropLast_append_getLast (l := h :: l) (by simp)
  rw [← hd] at hnd
  exact (List.nodup_append.mp hnd).2.2 x hx _ (List.mem_singleton_self _) he

theorem IsRing.prev_last (hr : IsRing next prev h (l ++ [e])) : prev h = e :=
  (isRing_append_singleton.mp hr).2.2

theorem IsRing.prev_of_last (hr : IsRing next prev h (l ++ [e])) :
    prev e = (h :: l).getLast (by simp) := by
  have hs := (isRing_append_singleton.mp hr).1
  rw [List.isChain_append] at hs
  exact (hs.2.2 _ (by rw [List.getLast?_eq_getLast_of_ne_nil (by simp)]; rfl) e (by simp)).2

/-- A path to the last node `t` and a link from `t` back to the head make a ring. -/
theorem isRing_of_isChain (hc : (h :: l).IsChain (Linked next prev))
    (ht : Linked next prev ((h :: l).getLast (by simp)) h) : IsRing next prev h l := by
  rw [IsRing, List.isChain_append]
  refine ⟨hc, List.isChain_singleton _, ?_⟩
  intro x hx y hy
  rw [List.getLast?_eq_getLast_of_ne_nil (by simp)] at hx
  have hx' := Option.mem_some_iff.mp hx
  have hy' : h = y := by simpa using hy
  exact hx' ▸ hy' ▸ ht

theorem IsRing.push (hr : IsRing next prev h l) (hnd : (h :: l).Nodup)
    (he : next' e = h) (hep : prev' e = prev h) (hlast : next' (prev h) = e) (hh : prev' h = e)
    (hn : ∀ x ∈ h :: l, x ≠ prev h → next' x = next x) (hp : ∀ x ∈ l, prev' x = prev x) :
    IsRing next' prev' h (l ++ [e]) := by
  have hlastEq := hr.prev_head
  have hc : (h :: l).IsChain (Linked next prev) := hr.left_of_append
  have hinner : (h :: l).IsChain (Linked next' prev') := by
    refine isChain_linked_inner hnd (fun x hx => hn x ?_ ?_) hp hc
    · exact List.dropLast_subset _ hx
    · rw [hlastEq]
      exact mem_dropLast_ne_getLast hnd hx
  have hring : (h :: (l ++ [e])).IsChain (Linked next' prev') := by
    rw [← List.cons_append, List.isChain_append]
    refine ⟨hinner, List.isChain_singleton _, ?_⟩
    intro x hx y hy
    rw [List.getLast?_eq_getLast_of_ne_nil (by simp)] at hx
    have hx' := Option.mem_some_iff.mp hx
    have hy' : e = y := by simpa using hy
    subst hy'
    rw [← hx', ← hlastEq]
    exact ⟨hlast, hep⟩
  have hl : (h :: (l ++ [e])).getLast (by simp) = e := by simp
  refine isRing_of_isChain hring ?_
  rw [hl]
  exact ⟨he, hh⟩

theorem IsRing.pop (hr : IsRing next prev h (l ++ [e])) (hnd : (h :: l).Nodup)
    (hlast : next' (prev e) = h) (hh : prev' h = prev e)
    (hn : ∀ x ∈ h :: l, x ≠ prev e → next' x = next x) (hp : ∀ x ∈ l, prev' x = prev x) :
    IsRing next' prev' h l := by
  have hlastEq := hr.prev_of_last
  have hc : (h :: l).IsChain (Linked next prev) :=
    List.IsChain.left_of_append (isRing_append_singleton.mp hr).1
  have hinner : (h :: l).IsChain (Linked next' prev') := by
    refine isChain_linked_inner hnd (fun x hx => hn x ?_ ?_) hp hc
    · exact List.dropLast_subset _ hx
    · rw [hlastEq]
      exact mem_dropLast_ne_getLast hnd hx
  refine isRing_of_isChain hinner ?_
  rw [← hlastEq]
  exact ⟨hlast, hh⟩

/-- Consecutive positions of the walk around the ring, by index. -/
theorem IsRing.linked_getElem? (hr : IsRing next prev h l) {i : Nat} {x y : α}
    (hx : (h :: l ++ [h])[i]? = some x) (hy : (h :: l ++ [h])[i + 1]? = some y) :
    Linked next prev x y := by
  obtain ⟨hi, rfl⟩ := List.getElem?_eq_some_iff.mp hx
  obtain ⟨hi', rfl⟩ := List.getElem?_eq_some_iff.mp hy
  exact List.isChain_iff_getElem.mp hr i hi'

/-- Following `next` from the head visits the members in order and then the head again. -/
theorem IsRing.iterate_next (hr : IsRing next prev h l) {i : Nat} (hi : i < l.length + 2) :
    (h :: l ++ [h])[i]? = some (next^[i] h) := by
  induction i with
  | zero => rfl
  | succ i ih =>
    have hlen : i + 1 < (h :: l ++ [h]).length := by simp; omega
    have hy := List.getElem?_eq_getElem hlen
    have hlink := hr.linked_getElem? (ih (by omega)) hy
    rw [Function.iterate_succ_apply', hlink.1]
    exact hy

theorem IsRing.iterate_length (hr : IsRing next prev h l) : next^[l.length + 1] h = h := by
  have hh := hr.iterate_next (i := l.length + 1) (by omega)
  simpa using hh.symm

theorem IsRing.prev_next (hr : IsRing next prev h l) {x : α} (hx : x ∈ h :: l) :
    prev (next x) = x ∧ next x ∈ h :: l := by
  obtain ⟨i, hi, rfl⟩ := List.getElem_of_mem hx
  have hlen : i + 1 < (h :: l ++ [h]).length := by simp at hi ⊢; omega
  have hget : (h :: l ++ [h])[i]? = some (h :: l)[i] := by
    rw [List.getElem?_append_left hi]
    exact List.getElem?_eq_getElem hi
  have hlink := hr.linked_getElem? hget (List.getElem?_eq_getElem hlen)
  refine ⟨by rw [hlink.1, hlink.2], ?_⟩
  rw [hlink.1]
  have hm : (h :: l ++ [h])[i + 1] ∈ h :: l ++ [h] := List.getElem_mem _
  rcases List.mem_append.mp hm with hm | hm
  · exact hm
  · rw [List.mem_singleton.mp hm]
    exact List.mem_cons_self

theorem IsRing.next_prev (hr : IsRing next prev h l) {x : α} (hx : x ∈ h :: l) :
    next (prev x) = x := by
  have hx' : x ∈ l ++ [h] := by simpa [or_comm] using hx
  obtain ⟨i, hi, rfl⟩ := List.getElem_of_mem hx'
  have hlen : i < (h :: l ++ [h]).length := by simp at hi ⊢; omega
  have hget : (h :: l ++ [h])[i + 1]? = some (l ++ [h])[i] := List.getElem?_eq_getElem hi
  have hlink := hr.linked_getElem? (List.getElem?_eq_getElem hlen) hget
  rw [hlink.2, hlink.1]

/-- The head comes back for the first time after exactly `length + 1` steps. -/
theorem IsRing.length_le {l' : List α} (hr : IsRing next prev h l) (hr' : IsRing next prev h l')
    (hnd : (h :: l').Nodup) : l'.length ≤ l.length := by
  by_contra hlt
  have hback := hr'.iterate_next (i := l.length + 1) (by omega)
  rw [hr.iterate_length, List.getElem?_append_left (by simp; omega), List.getElem?_cons_succ] at hback
  exact (List.nodup_cons.mp hnd).1 (List.mem_of_getElem? hback)

theorem IsRing.unique {l' : List α} (hr : IsRing next prev h l) (hr' : IsRing next prev h l')
    (hnd : (h :: l).Nodup) (hnd' : (h :: l').Nodup) : l = l' := by
  have hlen : l.length = l'.length :=
    Nat.le_antisymm (hr'.length_le hr hnd) (hr.length_le hr' hnd')
  apply List.ext_getElem?
  intro i
  by_cases hi : i < l.length
  · have h1 := hr.iterate_next (i := i + 1) (by omega)
    have h2 := hr'.iterate_next (i := i + 1) (by omega)
    rw [← h2] at h1
    simpa [List.getElem?_append_left, hi, hlen ▸ hi] using h1
  · rw [List.getElem?_eq_none (by omega), List.getElem?_eq_none (by omega)]

end Ring
