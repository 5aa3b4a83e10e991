import Mathlib.Data.List.Basic

/-! Lists linked through their own elements and ended by a null element. -/

/-- From `h` on, `next` leads through `l` to `null`. -/
def LinkedList {A : Type} (next : A → A) (null : A) : A → List A → Prop
  | h, [] => h = null
  | h, c :: l => h = c ∧ c ≠ null ∧ LinkedList next null (next c) l

namespace LinkedList

variable {A : Type} {next next' : A → A} {null h c : A} {l l' : List A}

theorem congr (hl : LinkedList next null h l) (hc : ∀ c ∈ l, next' c = next c) :
    LinkedList next' null h l := by
  induction l generalizing h with
  | nil => exact hl
  | cons c l ih =>
    obtain ⟨hh, hne, hrest⟩ := hl
    refine ⟨hh, hne, ?_⟩
    rw [hc c List.mem_cons_self]
    exact ih hrest fun d hd => hc d (List.mem_cons_of_mem _ hd)

theorem eq_null_iff (hl : LinkedList next null h l) : h = null ↔ l = [] := by
  cases l with
  | nil => exact iff_of_true hl rfl
  | cons c l =>
    obtain ⟨rfl, hne, -⟩ := hl
    exact iff_of_false hne (List.cons_ne_nil _ _)

theorem unique (hl : LinkedList next null h l) (hl' : LinkedList next null h l') : l = l' := by
  induction l generalizing h l' with
  | nil => exact (hl'.eq_null_iff.mp hl).symm
  | cons c l ih =>
    obtain ⟨rfl, hne, hrest⟩ := hl
    cases l' with
    | nil => exact absurd hl' hne
    | cons d l' =>
      obtain ⟨rfl, -, hrest'⟩ := hl'
      rw [ih hrest hrest']

theorem exists_cons (hl : LinkedList next null h l) (hne : h ≠ null) :
    ∃ rest, l = h :: rest ∧ LinkedList next null (next h) rest := by
  cases l with
  | nil => exact absurd hl hne
  | cons c rest =>
    obtain ⟨rfl, -, hrest⟩ := hl
    exact ⟨rest, rfl, hrest⟩

end LinkedList
