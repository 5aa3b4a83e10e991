import SkipOS.PoolPartition

/-! Pages given back are handed out again in reverse order, with no refill between. -/

namespace SkipOS

open Mem Exec

variable {managed out ps qs l : List Word} {limit e : Word} {m : Mem} {P : Pool} {k : Nat}

/-- `MMU_pf_free` of each page in turn. -/
def freeEach : List Word → Exec Mem Unit
  | [] => pure ()
  | p :: ps => do
    mmuPfFree p
    freeEach ps

/-- The pages that `n` calls of `MMU_pf_alloc` return. -/
def allocEach : Nat → Exec Mem (List Word)
  | 0 => pure []
  | n + 1 => do
    let p ← mmuPfAlloc
    let ps ← allocEach n
    return p :: ps

/-- Base, length and page count of the range not yet pooled. -/
def unpooledRange (m : Mem) : Word × Word × Word :=
  (headBaseAddr m 0, headLength m 0, headUnpooledPageCnt m 0)

theorem PoolRep.unpooledRange_eq (h : PoolRep m P) :
    unpooledRange m = (P.base, BitVec.ofNat 64 (4096 * P.count), BitVec.ofNat 64 P.count) := by
  rw [unpooledRange, h.base, h.length, h.count]

theorem PoolInv.freeEach (h : PoolInv managed limit m out P) (hnd : ps.Nodup) (hps : ps ⊆ out) :
    ∃ m' out', freeEach ps m = .ok () m' ∧
      PoolInv managed limit m' out' { P with pages := P.pages ++ ps } := by
  induction ps generalizing m out P with
  | nil =>
    rw [List.append_nil]
    exact ⟨m, out, rfl, h⟩
  | cons p ps ih =>
    obtain ⟨hp, hnd⟩ := List.nodup_cons.mp hnd
    obtain ⟨hout, hps⟩ := List.cons_subset.mp hps
    obtain ⟨m1, hfree, h1, -⟩ := h.free hout
    have hrest : ps ⊆ out.erase p := by
      intro q hq
      have hqp : q ≠ p := fun hh => hp (hh ▸ hq)
      exact (List.mem_erase_of_ne hqp).mpr (hps hq)
    obtain ⟨m2, out2, hrun, h2⟩ := ih h1 hnd hrest
    refine ⟨m2, out2, ?_, ?_⟩
    · rw [SkipOS.freeEach, bind_of_ok hfree]
      exact hrun
    · simpa only [Pool.push, List.append_assoc, List.singleton_append] using h2

theorem PoolRep.not_isEmpty (h : PoolRep m P) (hP : P.Wf) (hlen : 1 < P.pages.length) :
    isEmpty m 0 = false := by
  rw [Bool.eq_false_iff]
  intro hempty
  have hle := (isEmpty_iff h hP.pages_nodup).mp hempty
  omega

/-- With two pages on the list an allocation takes the last one and adds none. -/
theorem mmuPfAlloc_last (h : PoolRep m P) (hP : P.Wf) (hpages : P.pages = l ++ [e])
    (hl : l ≠ []) : ∃ m', mmuPfAlloc m = .ok e m' ∧ PoolRep m' P.drop := by
  have htop : P.topUp = P := by
    have hpos := List.length_pos_of_ne_nil hl
    rw [Pool.topUp, if_neg]
    rw [hpages, List.length_append, List.length_singleton]
    omega
  obtain ⟨m', hrun, hrep, -⟩ := mmuPfAlloc_pop h hP (by rw [htop]; exact hpages) hl
  rw [htop] at hrep
  exact ⟨m', hrun, hrep⟩

theorem PoolRep.allocEach (h : PoolRep m { P with pages := l ++ qs })
    (hP : Pool.Wf { P with pages := l ++ qs }) (hl : l ≠ []) (hk : k ≤ qs.length) :
    ∃ m', allocEach k m = .ok (qs.reverse.take k) m' ∧
      PoolRep m' { P with pages := l ++ qs.take (qs.length - k) } ∧
      Pool.Wf { P with pages := l ++ qs.take (qs.length - k) } := by
  induction k generalizing m qs with
  | zero =>
    rw [Nat.sub_zero, List.take_length]
    exact ⟨m, rfl, h, hP⟩
  | succ k ih =>
    rcases List.eq_nil_or_concat qs with rfl | ⟨qs, e, rfl⟩
    · exact absurd hk (Nat.not_succ_le_zero k)
    · rw [List.concat_eq_append] at *
      rw [List.length_append, List.length_singleton] at hk
      rw [← List.append_assoc] at h hP
      have hne : l ++ qs ≠ [] := List.append_ne_nil_of_left_ne_nil hl qs
      obtain ⟨m1, halloc, h1⟩ := mmuPfAlloc_last h hP rfl hne
      have hP1 := hP.drop
      simp only [Pool.drop, List.dropLast_concat] at h1 hP1
      obtain ⟨m2, hrun, h2, hP2⟩ := ih h1 hP1 (by omega)
      have htake : (qs ++ [e]).take ((qs ++ [e]).length - (k + 1)) = qs.take (qs.length - k) := by
        rw [List.length_append, List.length_singleton, Nat.add_sub_add_right,
          List.take_append_of_le_length (Nat.sub_le _ _)]
      rw [htake]
      refine ⟨m2, ?_, h2, hP2⟩
      rw [SkipOS.allocEach, bind_of_ok halloc, bind_of_ok hrun, List.reverse_append,
        List.reverse_singleton, List.singleton_append, List.take_succ_cons]
      rfl

/-- In every reachable state the allocator is a stack: pages given back come out last in,
first out, always from a list that counts as filled, and the pool is then as it was. -/
theorem free_then_alloc (B : BootPool) (hrun : PfRun (B.mem, []) (m, out)) (hnd : ps.Nodup)
    (hps : ps ⊆ out) :
    ∃ m₁ m₂ l, freeEach ps m = .ok () m₁ ∧ allocEach ps.length m₁ = .ok ps.reverse m₂ ∧
      (∀ k < ps.length, ∃ m', allocEach k m₁ = .ok (ps.reverse.take k) m' ∧
        isEmpty m' 0 = false ∧ unpooledRange m' = unpooledRange m) ∧
      CircularList m l ∧ CircularList m₂ l ∧ unpooledRange m₂ = unpooledRange m := by
  obtain ⟨P, h, hne⟩ := hrun.stocked
  obtain ⟨m₁, out', hfree, h₁⟩ := h.freeEach hnd hps
  by_cases hnil : ps = []
  · subst hnil
    obtain rfl : m = m₁ := (pure_eq_ok.mp hfree).2
    exact ⟨m, m, P.pages, hfree, rfl, fun k hk => absurd hk (Nat.not_lt_zero k), h.circular,
      h.circular, rfl⟩
  · have hout : out ≠ [] := by
      rintro rfl
      exact hnil (List.subset_nil.mp hps)
    have hpages : P.pages ≠ [] := hne hout
    obtain ⟨m₂, halloc, h₂, hP₂⟩ := h₁.rep.allocEach h₁.wf hpages (Nat.le_refl ps.length)
    rw [Nat.sub_self, List.take_zero, List.append_nil] at h₂ hP₂
    rw [← List.length_reverse, List.take_length, List.length_reverse] at halloc
    refine ⟨m₁, m₂, P.pages, hfree, halloc, ?_, h.circular, h₂.circular hP₂, ?_⟩
    · intro k hk
      obtain ⟨m', hrun', h', hP'⟩ := h₁.rep.allocEach h₁.wf hpages (Nat.le_of_lt hk)
      have hpos := List.length_pos_of_ne_nil hpages
      have hrange := h'.unpooledRange_eq.trans h.rep.unpooledRange_eq.symm
      refine ⟨m', hrun', h'.not_isEmpty hP' ?_, hrange⟩
      rw [List.length_append, List.length_take]
      omega
    · exact h₂.unpooledRange_eq.trans h.rep.unpooledRange_eq.symm

theorem free_then_alloc_small : ∃ m₁ m₂,
    freeEach [0x3000, 0x2000] (smallAfter 2) = .ok () m₁ ∧
      allocEach 2 m₁ = .ok [0x2000, 0x3000] m₂ ∧ unpooledRange m₂ = unpooledRange (smallAfter 2) := by
  obtain ⟨m₁, m₂, l, hfree, halloc, -, -, -, hrange⟩ :=
    free_then_alloc smallBoot smallAfter_two (show [0x3000, 0x2000].Nodup by decide) (by decide)
  exact ⟨m₁, m₂, hfree, halloc, hrange⟩

end SkipOS
