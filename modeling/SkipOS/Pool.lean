import SkipOS.Lib.Frame
import SkipOS.Lib.Ring
import SkipOS.PfAlloc
import Mathlib.Data.List.Nodup
import Mathlib.Data.List.Perm.Basic

/-! The pool as a list of free pages and a range not yet pooled, and the operations
on physical memory as operations on it. -/

namespace SkipOS

open Mem Exec

/-- Base addresses of `n` consecutive pages. -/
def pagesFrom (base : Word) : Nat → List Word
  | 0 => []
  | n + 1 => base :: pagesFrom (base + pageSize) n

/-- The pages on the pool list in `next` order, and the range still to be pooled. -/
structure Pool where
  pages : List Word
  base : Word
  count : Nat

namespace Pool

def unpooled (P : Pool) : List Word := pagesFrom P.base P.count

def free (P : Pool) : List Word := P.pages ++ P.unpooled

def push (p : Word) (P : Pool) : Pool := { P with pages := P.pages ++ [p] }

def refill (k : Nat) (P : Pool) : Pool :=
  ⟨P.pages ++ pagesFrom P.base k, P.base + BitVec.ofNat 64 (4096 * k), P.count - k⟩

/-- Below two pages the pool counts as empty and is filled up first. -/
def topUp (P : Pool) : Pool := if P.pages.length ≤ 1 then P.refill (min 500 P.count) else P

def drop (P : Pool) : Pool := { P with pages := P.pages.dropLast }

/-- No page for the caller although the allocator has nothing left to add. -/
def Exhausted (P : Pool) : Prop := P.pages.length ≤ 1 ∧ P.count = 0

/-- The free pages are distinct frames other than the head's, in non-wrapping ranges. -/
structure Wf (P : Pool) : Prop where
  nodup : (0 :: P.free).Nodup
  aligned : ∀ p ∈ P.free, Aligned p
  base_aligned : Aligned P.base
  noWrap : P.base.toNat + 4096 * P.count ≤ 2 ^ 64

end Pool

/-- Memory holds the pool `P` under the head at address 0. -/
structure PoolRep (m : Mem) (P : Pool) : Prop where
  ring : Ring.IsRing (llNext m) (llPrev m) 0 P.pages
  base : headBaseAddr m 0 = P.base
  length : headLength m 0 = BitVec.ofNat 64 (4096 * P.count)
  count : headUnpooledPageCnt m 0 = BitVec.ofNat 64 P.count

variable {m m' : Mem} {P : Pool} {p q : Word}

theorem length_pagesFrom (b : Word) (n : Nat) : (pagesFrom b n).length = n := by
  induction n generalizing b with
  | zero => rfl
  | succ n ih => simp [pagesFrom, ih]

theorem pagesFrom_append (b : Word) (k n : Nat) :
    pagesFrom b (k + n) = pagesFrom b k ++ pagesFrom (b + BitVec.ofNat 64 (4096 * k)) n := by
  induction k generalizing b with
  | zero => simp [pagesFrom]
  | succ k ih =>
    have he : b + pageSize + BitVec.ofNat 64 (4096 * k) = b + BitVec.ofNat 64 (4096 * (k + 1)) := by
      rw [pageSize]
      bv_omega
    rw [Nat.add_right_comm, pagesFrom, ih, he, pagesFrom, List.cons_append]

theorem Pool.free_refill (P : Pool) {k : Nat} (hk : k ≤ P.count) : (P.refill k).free = P.free := by
  have hu := pagesFrom_append P.base k (P.count - k)
  rw [Nat.add_sub_cancel' hk] at hu
  simp only [Pool.free, Pool.unpooled, Pool.refill, hu, List.append_assoc]

theorem Pool.free_push (p : Word) (P : Pool) : (P.push p).free.Perm (p :: P.free) := by
  simp only [Pool.free, Pool.push, Pool.unpooled, List.append_assoc, List.singleton_append]
  exact List.perm_middle

theorem Pool.Wf.refill (hP : P.Wf) {k : Nat} (hk : k ≤ P.count) : (P.refill k).Wf := by
  have hb := hP.noWrap
  have ha := hP.base_aligned
  refine ⟨?_, ?_, ?_, ?_⟩
  · rw [P.free_refill hk]
    exact hP.nodup
  · rw [P.free_refill hk]
    exact hP.aligned
  · simp only [Pool.refill, Aligned] at ha ⊢
    bv_omega
  · simp only [Pool.refill]
    bv_omega

theorem Pool.Wf.push (hP : P.Wf) (hp : Aligned p) (h0 : p ≠ 0) (hf : p ∉ P.free) :
    (P.push p).Wf := by
  have hperm := P.free_push p
  have hnd := List.nodup_cons.mp hP.nodup
  refine ⟨?_, ?_, hP.base_aligned, hP.noWrap⟩
  · rw [(hperm.cons 0).nodup_iff, List.nodup_cons, List.nodup_cons, List.mem_cons]
    exact ⟨fun h => h.elim (fun he => h0 he.symm) hnd.1, hf, hnd.2⟩
  · intro q hq
    rcases List.mem_cons.mp (hperm.mem_iff.mp hq) with rfl | hq
    · exact hp
    · exact hP.aligned q hq

theorem Pool.Wf.topUp (hP : P.Wf) : P.topUp.Wf := by
  by_cases h : P.pages.length ≤ 1
  · rw [Pool.topUp, if_pos h]
    exact hP.refill (Nat.min_le_right _ _)
  · rw [Pool.topUp, if_neg h]
    exact hP

theorem Pool.free_topUp (P : Pool) : P.topUp.free = P.free := by
  by_cases h : P.pages.length ≤ 1
  · rw [Pool.topUp, if_pos h]
    exact P.free_refill (Nat.min_le_right _ _)
  · rw [Pool.topUp, if_neg h]

theorem Pool.free_drop (P : Pool) (h : P.pages ≠ []) :
    P.free.Perm (P.pages.getLast h :: P.drop.free) := by
  have hd := List.dropLast_append_getLast h
  conv_lhs => rw [Pool.free, ← hd, List.append_assoc]
  exact List.perm_middle

theorem Pool.Wf.drop (hP : P.Wf) : P.drop.Wf := by
  have hs : P.drop.free.Sublist P.free := (List.dropLast_sublist _).append_right _
  exact ⟨hP.nodup.sublist (hs.cons_cons 0), fun p hp => hP.aligned p (hs.subset hp),
    hP.base_aligned, hP.noWrap⟩

theorem Pool.Wf.pages_aligned (hP : P.Wf) (hp : p ∈ 0 :: P.pages) : Aligned p := by
  rcases List.mem_cons.mp hp with rfl | hp
  · exact aligned_zero
  · exact hP.aligned p (List.mem_append_left _ hp)

theorem Pool.Wf.pages_nodup (hP : P.Wf) : (0 :: P.pages).Nodup :=
  hP.nodup.sublist ((List.sublist_append_left _ _).cons_cons 0)

theorem PoolRep.congr (h : PoolRep m P) (he : Set.EqOn m' m (frames (0 :: P.pages))) :
    PoolRep m' P := by
  have hf : ∀ x ∈ 0 :: P.pages, ∀ d, IsSlot d → m'.field x d = m.field x d :=
    fun x hx d hd => field_congr (he.mono (frame_subset_frames hx)) hd
  have h0 := hf 0 List.mem_cons_self
  refine ⟨h.ring.congr (fun x hx => hf x hx 0 (by decide)) (fun x hx => hf x hx 8 (by decide)),
    ?_, ?_, ?_⟩
  · exact (h0 16 (by decide)).trans h.base
  · exact (h0 24 (by decide)).trans h.length
  · exact (h0 32 (by decide)).trans h.count

end SkipOS
