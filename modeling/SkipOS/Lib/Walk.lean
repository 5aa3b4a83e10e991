import Mathlib.Data.List.Induction
import Mathlib.Data.Set.Basic

/-! Trees given by their edges: edge `i` of node `n` leads to `next n i`. Paths are
taken from a set closed under prefixes, and one edge is changed at a time. -/

namespace Walk

variable {N I : Type*}

/-- The node at the end of a path from `r`. -/
def walk (next : N → I → Option N) (r : N) : List I → Option N
  | [] => some r
  | i :: p => (next r i).bind fun n => walk next n p

def PrefixClosed (V : Set (List I)) : Prop := ∀ p q, p ++ q ∈ V → p ∈ V

/-- Along `V` only the path `x` leads elsewhere than before, to `v`. -/
def Updates (next next' : N → I → Option N) (r : N) (V : Set (List I)) (x : List I)
    (v : Option N) : Prop :=
  walk next' r x = v ∧ ∀ p ∈ V, p ≠ x → walk next' r p = walk next r p

/-- The nodes of the tree are those of `out`, and each lies on one path. -/
structure Owns (next : N → I → Option N) (r : N) (V : Set (List I)) (out : List N) : Prop where
  mem_iff : ∀ n, n ∈ out ↔ ∃ p ∈ V, walk next r p = some n
  unique : ∀ p ∈ V, ∀ q ∈ V, ∀ n, walk next r p = some n → walk next r q = some n → p = q

variable {next next' : N → I → Option N} {r t f n : N} {V : Set (List I)} {p q x : List I} {i : I}
  {v : Option N} {out : List N}

@[simp] theorem walk_nil : walk next r [] = some r := rfl

theorem walk_singleton : walk next r [i] = next r i := by
  simp [walk]

theorem walk_append (p q : List I) :
    walk next r (p ++ q) = (walk next r p).bind fun n => walk next n q := by
  induction p generalizing r with
  | nil => rfl
  | cons i p ih =>
    cases h : next r i with
    | none => simp [walk, h]
    | some n => simp [walk, h, ih]

theorem walk_snoc (p : List I) (i : I) :
    walk next r (p ++ [i]) = (walk next r p).bind fun n => next n i := by
  rw [walk_append]
  congr 1
  funext n
  simp [walk]

theorem walk_snoc_of_some (h : walk next r q = some t) : walk next r (q ++ [i]) = next t i := by
  rw [walk_snoc, h, Option.bind_some]

/-- A path leads to a node, or a first edge of it is missing. -/
theorem walk_cases (next : N → I → Option N) (r : N) (p : List I) :
    (∃ n, walk next r p = some n) ∨
      ∃ q i rest t, p = q ++ i :: rest ∧ walk next r q = some t ∧ next t i = none := by
  induction p generalizing r with
  | nil => exact Or.inl ⟨r, rfl⟩
  | cons i p ih =>
    cases h : next r i with
    | none => exact Or.inr ⟨[], i, p, r, rfl, rfl, h⟩
    | some n =>
      rcases ih n with ⟨k, hk⟩ | ⟨q, j, rest, t, hp, hq, hj⟩
      · exact Or.inl ⟨k, by simp [walk, h, hk]⟩
      · exact Or.inr ⟨i :: q, j, rest, t, by rw [hp, List.cons_append], by simp [walk, h, hq], hj⟩

theorem walk_prefix_isSome (h : walk next r (p ++ q) = some n) : ∃ t, walk next r p = some t := by
  rw [walk_append] at h
  obtain ⟨t, ht, -⟩ := Option.bind_eq_some_iff.mp h
  exact ⟨t, ht⟩

/-- Paths that avoid the changed edges lead where they did. -/
theorem walk_eq_of_agree {X : Set (List I)} (hV : PrefixClosed V)
    (hagree : ∀ p j n, p ++ [j] ∈ V → walk next r p = some n → p ++ [j] ∉ X →
      next' n j = next n j)
    (hp : p ∈ V) (hX : ∀ x ∈ X, ¬ x <+: p) : walk next' r p = walk next r p := by
  induction p using List.reverseRecOn with
  | nil => rfl
  | append_singleton p j ih =>
    have hh := ih (hV p [j] hp) fun x hx hpre => hX x hx (hpre.trans (List.prefix_append p [j]))
    rw [walk_snoc, walk_snoc, hh]
    cases hn : walk next r p with
    | none => rfl
    | some n =>
      exact hagree p j n hp hn fun hm => hX _ hm List.prefix_rfl

/-- One edge changed, with nothing below it before or after. -/
theorem updates_of_agree (hV : PrefixClosed V) (hq : walk next r q = some t)
    (hagree : ∀ p j n, p ++ [j] ∈ V → walk next r p = some n → p ++ [j] ≠ q ++ [i] →
      next' n j = next n j)
    (hmem : q ∈ V) (hv : next' t i = v)
    (hbelow : ∀ j, q ++ [i] ++ [j] ∈ V →
      (next t i).bind (fun n => next n j) = none ∧ v.bind (fun n => next' n j) = none) :
    Updates next next' r V (q ++ [i]) v := by
  have hself : walk next' r q = some t := by
    rw [← hq]
    refine walk_eq_of_agree (X := {q ++ [i]}) hV hagree hmem ?_
    rintro x rfl hpre
    have hlen := hpre.length_le
    rw [List.length_append, List.length_singleton] at hlen
    omega
  have hx : walk next' r (q ++ [i]) = v := by
    rw [walk_snoc_of_some hself, hv]
  refine ⟨hx, fun p hp hne => ?_⟩
  by_cases hpre : q ++ [i] <+: p
  · obtain ⟨rest, rfl⟩ := hpre
    cases rest with
    | nil => simp at hne
    | cons j rest =>
      have hj : q ++ [i] ++ [j] ∈ V := hV _ rest (by simpa using hp)
      obtain ⟨hold, hnew⟩ := hbelow j hj
      have hsplit : q ++ [i] ++ j :: rest = q ++ [i] ++ [j] ++ rest := by simp
      have hbefore : walk next r (q ++ [i] ++ [j]) = none := by
        rw [walk_snoc, walk_snoc_of_some hq, hold]
      have hafter : walk next' r (q ++ [i] ++ [j]) = none := by
        rw [walk_snoc, hx, hnew]
      rw [hsplit, walk_append, walk_append _ rest, hbefore, hafter]
      rfl
  · refine walk_eq_of_agree (X := {q ++ [i]}) hV hagree hp ?_
    rintro x rfl
    exact hpre

theorem Owns.congr (h : Owns next r V out) (he : ∀ p ∈ V, walk next' r p = walk next r p) :
    Owns next' r V out := by
  constructor
  · intro n
    rw [h.mem_iff]
    constructor
    · rintro ⟨p, hp, hw⟩
      exact ⟨p, hp, (he p hp).trans hw⟩
    · rintro ⟨p, hp, hw⟩
      exact ⟨p, hp, (he p hp).symm.trans hw⟩
  · intro p hp q hq n hpn hqn
    exact h.unique p hp q hq n ((he p hp).symm.trans hpn) ((he q hq).symm.trans hqn)

theorem Owns.link (h : Owns next r V out) (hu : Updates next next' r V x (some f)) (hx : x ∈ V)
    (hold : walk next r x = none) (hf : f ∉ out) : Owns next' r V (f :: out) := by
  have hfresh : ∀ p ∈ V, walk next r p ≠ some f := fun p hp hw => hf ((h.mem_iff f).mpr ⟨p, hp, hw⟩)
  constructor
  · intro n
    rw [List.mem_cons, h.mem_iff]
    constructor
    · rintro (rfl | ⟨p, hp, hw⟩)
      · exact ⟨x, hx, hu.1⟩
      · have hne : p ≠ x := by
          rintro rfl
          simp [hold] at hw
        exact ⟨p, hp, (hu.2 p hp hne).trans hw⟩
    · rintro ⟨p, hp, hw⟩
      by_cases hpx : p = x
      · left
        rw [hpx, hu.1] at hw
        exact (Option.some.inj hw).symm
      · exact Or.inr ⟨p, hp, (hu.2 p hp hpx).symm.trans hw⟩
  · intro p hp q hq n hpn hqn
    by_cases hpx : p = x
    · by_cases hqx : q = x
      · rw [hpx, hqx]
      · rw [hpx, hu.1] at hpn
        rw [hu.2 q hq hqx, ← hpn] at hqn
        exact absurd hqn (hfresh q hq)
    · rw [hu.2 p hp hpx] at hpn
      by_cases hqx : q = x
      · rw [hqx, hu.1, Option.some.injEq] at hqn
        rw [← hqn] at hpn
        exact absurd hpn (hfresh p hp)
      · rw [hu.2 q hq hqx] at hqn
        exact h.unique p hp q hq n hpn hqn

theorem Owns.unlink [DecidableEq N] (h : Owns next r V out) (hnd : out.Nodup)
    (hu : Updates next next' r V x none) (hx : x ∈ V) (hold : walk next r x = some f) :
    Owns next' r V (out.erase f) := by
  have hne : ∀ p n, walk next' r p = some n → p ≠ x := by
    rintro p n hw rfl
    simp [hu.1] at hw
  constructor
  · intro n
    rw [hnd.mem_erase_iff, h.mem_iff]
    constructor
    · rintro ⟨hnf, p, hp, hw⟩
      have hpx : p ≠ x := by
        rintro rfl
        exact hnf (Option.some.inj (hw.symm.trans hold))
      exact ⟨p, hp, (hu.2 p hp hpx).trans hw⟩
    · rintro ⟨p, hp, hw⟩
      have hpx := hne p n hw
      rw [hu.2 p hp hpx] at hw
      refine ⟨?_, p, hp, hw⟩
      rintro rfl
      exact hpx (h.unique p hp x hx n hw hold)
  · intro p hp q hq n hpn hqn
    rw [hu.2 p hp (hne p n hpn)] at hpn
    rw [hu.2 q hq (hne q n hqn)] at hqn
    exact h.unique p hp q hq n hpn hqn

end Walk
