import SkipOS.Kmalloc

/-! The allocator changes what is below it only through the four operations it is given: what
each of them preserves, every run preserves. -/

namespace SkipOS

open Exec

variable {σ α : Type} {R : σ → σ → Prop} {M : Mmu σ}

/-- Every run of an operation moves the state along `R`. -/
structure Mmu.Moves (R : σ → σ → Prop) (M : Mmu σ) : Prop where
  refl : ∀ s, R s s
  trans : ∀ s t u, R s t → R t u → R s u
  load64 : ∀ a, Exec.Moves R (M.load64 a)
  store64 : ∀ a v, Exec.Moves R (M.store64 a v)
  allocPages : ∀ num, Exec.Moves R (M.allocPages num)
  freePages : ∀ vp num, Exec.Moves R (M.freePages vp num)

/-- `R` below the kernel. -/
def Below (R : σ → σ → Prop) (k k' : Kernel σ) : Prop := R k.mmu k'.mmu

theorem moves_onMmu {x : Exec σ α} (hx : Moves R x) : Moves (Below R) (onMmu x) := by
  intro k
  have h := hx k.mmu
  rw [onMmu, zoom]
  cases hr : x k.mmu with
  | ok a s =>
    rw [hr] at h
    exact h
  | error e s =>
    rw [hr] at h
    exact h

namespace Mmu.Moves

variable (h : M.Moves R)

include h

theorem bind {x : Exec (Kernel σ) α} {β : Type} {f : α → Exec (Kernel σ) β}
    (hx : Exec.Moves (Below R) x) (hf : ∀ a, Exec.Moves (Below R) (f a)) :
    Exec.Moves (Below R) (x >>= f) :=
  Exec.Moves.bind (R := Below R) (fun k k' l => h.trans k.mmu k'.mmu l.mmu) hx hf

theorem pure (a : α) : Exec.Moves (Below R) (Pure.pure a : Exec (Kernel σ) α) :=
  Exec.Moves.pure (fun k => h.refl k.mmu) a

theorem get : Exec.Moves (Below R) (MonadState.get : Exec (Kernel σ) (Kernel σ)) :=
  Exec.Moves.get fun k => h.refl k.mmu

theorem assert (c : Prop) [Decidable c] :
    Exec.Moves (Below R) (Exec.assert c : Exec (Kernel σ) Unit) :=
  Exec.Moves.assert (fun k => h.refl k.mmu) c

theorem setPool (i : Fin 7) (f : KmallocPool → KmallocPool) :
    Exec.Moves (Below R) (setPool i f : Exec (Kernel σ) Unit) :=
  fun k => h.refl k.mmu

theorem poolAt (arr : PoolArr) (p : Word) :
    Exec.Moves (Below R) (arr.poolAt p : Exec (Kernel σ) (Fin 7)) := by
  rw [PoolArr.poolAt]
  split
  · exact h.pure _
  · exact Exec.Moves.throw (fun k => h.refl k.mmu) _

theorem linkChunks (size : Word) (n : Nat) (chunk : Word) :
    Exec.Moves (Below R) (linkChunks M size n chunk) := by
  induction n generalizing chunk with
  | zero => exact h.pure chunk
  | succ n ih =>
    refine h.bind (moves_onMmu (h.store64 _ _)) fun _ => ?_
    exact h.bind (moves_onMmu (h.load64 _)) fun c => ih c

theorem addPage (i : Fin 7) : Exec.Moves (Below R) (addPage M i) := by
  refine h.bind (moves_onMmu (h.allocPages 1)) fun newPage => ?_
  refine h.bind (fun k => h.refl k.mmu) fun _ => ?_
  refine h.bind h.get fun s => ?_
  refine h.bind (h.setPool i _) fun _ => ?_
  refine h.bind (h.linkChunks _ _ _) fun chunk => ?_
  refine h.bind (moves_onMmu (h.store64 _ _)) fun _ => ?_
  exact h.setPool i _

theorem initLoop (is : List (Fin 7)) : Exec.Moves (Below R) (initLoop M is) := by
  induction is with
  | nil => exact h.pure ()
  | cons i is ih =>
    refine h.bind (h.setPool i _) fun _ => ?_
    exact h.bind (h.addPage i) fun _ => ih

theorem kmalloc (arr : PoolArr) (size : Word) : Exec.Moves (Below R) (kmalloc M arr size) := by
  refine h.bind (h.assert _) fun _ => ?_
  dsimp only
  split
  · refine h.bind (moves_onMmu (h.allocPages _)) fun newPage => ?_
    refine h.bind (moves_onMmu (h.store64 _ _)) fun _ => ?_
    exact h.bind (moves_onMmu (h.store64 _ _)) fun _ => h.pure _
  · refine h.bind h.get fun s => ?_
    refine h.bind ?_ fun _ => ?_
    · split
      · exact h.addPage _
      · exact h.pure ()
    · refine h.bind h.get fun s => ?_
      refine h.bind (moves_onMmu (h.load64 _)) fun next => ?_
      refine h.bind (h.setPool _ _) fun _ => ?_
      refine h.bind (h.setPool _ _) fun _ => ?_
      refine h.bind (moves_onMmu (h.store64 _ _)) fun _ => ?_
      exact h.bind (moves_onMmu (h.store64 _ _)) fun _ => h.pure _

theorem kfree (arr : PoolArr) (ptr : Word) : Exec.Moves (Below R) (kfree M arr ptr) := by
  refine h.bind (h.assert _) fun _ => ?_
  refine h.bind (moves_onMmu (h.load64 _)) fun size => ?_
  refine h.bind (moves_onMmu (h.load64 _)) fun poolPtr => ?_
  split
  · exact moves_onMmu (h.freePages _ _)
  · refine h.bind (h.poolAt arr _) fun i => ?_
    refine h.bind h.get fun s => ?_
    exact h.bind (moves_onMmu (h.store64 _ _)) fun _ => h.setPool i _

end Mmu.Moves

end SkipOS
