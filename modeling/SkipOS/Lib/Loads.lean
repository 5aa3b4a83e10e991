import SkipOS.Lib.Memory
import SkipOS.Lib.Program

/-! Programs that only read memory, byte by byte: what they return and where they read. -/

/-- The operation `a` returns the byte at `a`. -/
abbrev Loader := Prog Word fun _ => Byte

namespace Loader

open Mem

variable {α β : Type}

def loadByte (a : Word) : Loader Byte := Prog.perform a

def loadLE (a : Word) : Nat → Loader Nat
  | 0 => pure 0
  | n + 1 => do
    let b ← loadByte a
    let rest ← loadLE (a + 1) n
    return b.toNat + 256 * rest

def load32 (a : Word) : Loader (BitVec 32) := do return BitVec.ofNat 32 (← loadLE a 4)

/-- What the program returns when memory is `m`. -/
def run (m : Mem) : Loader α → α
  | .ret v => v
  | .op a k => run m (k (m a))

/-- Every load of the run in `m` is from `R`. -/
def Within (m : Mem) (R : Set Word) : Loader α → Prop
  | .ret _ => True
  | .op a k => a ∈ R ∧ Within m R (k (m a))

variable {m m' : Mem} {R : Set Word} {x : Loader α} {f : α → Loader β} {a : Word} {n : Nat}

@[simp] theorem run_pure (v : α) : run m (pure v) = v := rfl

@[simp] theorem within_pure (v : α) : Within m R (pure v) := trivial

@[simp] theorem run_bind : run m (x >>= f) = run m (f (run m x)) := by
  induction x with
  | ret v => rfl
  | op a k ih => exact ih (m a)

@[simp] theorem within_bind : Within m R (x >>= f) ↔ Within m R x ∧ Within m R (f (run m x)) := by
  induction x with
  | ret v => exact (and_iff_right trivial).symm
  | op a k ih => exact (and_congr_right fun _ => ih (m a)).trans and_assoc.symm

@[simp] theorem run_loadByte : run m (loadByte a) = m a := rfl

@[simp] theorem within_loadByte : Within m R (loadByte a) ↔ a ∈ R := and_iff_left trivial

theorem run_loadLE : run m (loadLE a n) = m.loadLE a n := by
  induction n generalizing a with
  | zero => rfl
  | succ n ih => simp only [loadLE, run_bind, run_loadByte, ih, run_pure, Mem.loadLE]

theorem within_loadLE (hn : n ≤ 2 ^ 64) : Within m R (loadLE a n) ↔ span a n ⊆ R := by
  induction n generalizing a with
  | zero =>
    have hempty : span a 0 = ∅ := Set.eq_empty_of_forall_notMem fun b hb => Nat.not_lt_zero _ hb
    rw [hempty]
    exact iff_of_true trivial (Set.empty_subset R)
  | succ n ih =>
    rw [span_succ (by omega), Set.insert_subset_iff, ← ih (by omega)]
    simp only [loadLE, within_bind, within_loadByte, within_pure, and_true]

@[simp] theorem run_load32 : run m (load32 a) = m.load32 a := by
  rw [load32, run_bind, run_loadLE]
  rfl

@[simp] theorem within_load32 : Within m R (load32 a) ↔ span a 4 ⊆ R := by
  rw [load32, within_bind, within_loadLE (by omega)]
  exact and_iff_left trivial

@[simp] theorem run_ite {c : Prop} [Decidable c] {x y : Loader α} :
    run m (if c then x else y) = if c then run m x else run m y := apply_ite (run m) c x y

theorem within_ite {c : Prop} [Decidable c] {x y : Loader α} :
    Within m R (if c then x else y) ↔ if c then Within m R x else Within m R y :=
  (apply_ite (Within m R) c x y).to_iff

/-- A program that stays in `R` depends on nothing outside. -/
theorem Within.congr (h : Within m R x) (he : Set.EqOn m m' R) :
    run m' x = run m x ∧ Within m' R x := by
  induction x with
  | ret v => exact ⟨rfl, trivial⟩
  | op a k ih =>
    have ha : m' a = m a := (he h.1).symm
    rw [run, run, Within, ha]
    obtain ⟨hrun, hin⟩ := ih (m a) h.2
    exact ⟨hrun, h.1, hin⟩

end Loader
