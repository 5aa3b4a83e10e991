import SkipOS.PoolRun

/-! The pages of the pool in every reachable state: the partition into free,
outstanding and unpooled pages, and when an allocation gives what it should. -/

namespace SkipOS

open Mem Exec

variable {managed out : List Word} {limit p : Word} {m : Mem} {P : Pool}

/-- Following `next` from the head visits the pages `l`, all distinct, and comes back to
the head, with `prev` the inverse of `next` on the way. -/
def CircularList (m : Mem) (l : List Word) : Prop :=
  (0 :: l).Nodup ∧ (∀ i < l.length + 2, (0 :: l ++ [0])[i]? = some ((llNext m)^[i] 0)) ∧
    ∀ x ∈ 0 :: l, llPrev m (llNext m x) = x ∧ llNext m (llPrev m x) = x

theorem PoolRep.circular (h : PoolRep m P) (hP : P.Wf) : CircularList m P.pages :=
  ⟨hP.pages_nodup, fun _ hi => h.ring.iterate_next hi,
    fun _ hx => ⟨(h.ring.prev_next hx).1, h.ring.next_prev hx⟩⟩

theorem PoolInv.circular (h : PoolInv managed limit m out P) : CircularList m P.pages :=
  h.rep.circular h.wf

theorem PoolInv.headLength_toNat (h : PoolInv managed limit m out P) :
    (headLength m 0).toNat = 4096 * P.count := by
  have hlt : 4096 * P.count < 2 ^ 64 := by
    have hnw := h.wf.noWrap
    by_contra hge
    have hb : P.base = 0 := by
      apply BitVec.eq_of_toNat_eq
      have h0 : (0 : Word).toNat = 0 := rfl
      omega
    have hm : P.base ∈ P.free := by
      refine List.mem_append_right _ ?_
      obtain ⟨n, hn⟩ : ∃ n, P.count = n + 1 := ⟨P.count - 1, by omega⟩
      rw [Pool.unpooled, hn, pagesFrom]
      exact List.mem_cons_self
    exact h.free_page_ne_zero hm hb
  rw [h.rep.length, toNat_ofNat_of_lt hlt]

theorem PoolInv.upperRange_eq (h : PoolInv managed limit m out P) : upperRange m = P.unpooled := by
  rw [upperRange, h.headLength_toNat, h.rep.base, Pool.unpooled]
  congr 1
  omega

theorem PoolInv.partition (h : PoolInv managed limit m out P) :
    CircularList m P.pages ∧ (P.pages ++ out ++ upperRange m).Perm managed := by
  refine ⟨h.circular, ?_⟩
  rw [h.upperRange_eq, List.append_assoc]
  refine (List.perm_append_comm.append_left P.pages).trans ?_
  rw [← List.append_assoc]
  exact h.perm

/-- In every run from a pool set up by `init_pool` the list stays circular, the pages on
it, the outstanding pages and the unpooled ones partition the managed pages, and length
and limit of the unpooled range stay consistent. -/
theorem pool_partition (B : BootPool) (hrun : PfRun (B.mem, []) (m, out)) :
    ∃ l, CircularList m l ∧
      (l ++ out ++ upperRange m).Perm B.managed ∧ B.managed.Nodup ∧
      (∀ p ∈ B.managed, Aligned p ∧ p ≠ 0) ∧
      (headLength m 0).toNat = (headUnpooledPageCnt m 0).toNat * pageSize.toNat ∧
      headBaseAddr m 0 + headLength m 0 = headBaseAddr B.mem 0 + headLength B.mem 0 := by
  obtain ⟨P, h⟩ := hrun.inv
  refine ⟨P.pages, h.circular, h.partition.2, h.nodup, fun p hp => ⟨h.aligned p hp, ?_⟩, ?_, ?_⟩
  · rintro rfl
    exact h.zero hp
  · have hc := h.wf.count_le
    have hp : pageSize.toNat = 4096 := rfl
    rw [h.headLength_toNat, h.rep.count, toNat_ofNat_of_lt (by omega), hp]
    omega
  · rw [h.rep.base, h.rep.length]
    exact h.limit_eq

/-- Memory after the first `n` allocations of the small machine. -/
def smallAfter : Nat → Mem
  | 0 => smallBoot.mem
  | n + 1 => final (mmuPfAlloc (smallAfter n))

theorem smallAfter_one : PfRun (smallBoot.mem, []) (smallAfter 1, [0x3000]) :=
  .single (.alloc (eq_ok_of_returned (by decide +kernel)) (by decide))

theorem smallAfter_two : PfRun (smallBoot.mem, []) (smallAfter 2, [0x2000, 0x3000]) :=
  smallAfter_one.tail (.alloc (eq_ok_of_returned (by decide +kernel)) (by decide))

theorem pool_partition_small : ∃ l, CircularList (smallAfter 2) l ∧
    (l ++ [0x2000, 0x3000] ++ upperRange (smallAfter 2)).Perm smallBoot.managed := by
  obtain ⟨l, hl, hp, -⟩ := pool_partition smallBoot smallAfter_two
  exact ⟨l, hl, hp⟩

/-- What a caller expects of the next `MMU_pf_alloc`: it returns, and with NULL exactly
when every managed page is outstanding. -/
def AllocExact (managed out : List Word) (m : Mem) : Prop :=
  (∃ p m', mmuPfAlloc m = .ok p m') ∧
    ((∃ m', mmuPfAlloc m = .ok 0 m') ↔ ∀ p ∈ managed, p ∈ out)

theorem PoolInv.length_eq (h : PoolInv managed limit m out P) :
    P.free.length + out.length = managed.length := by
  rw [← h.perm.length_eq, List.length_append]

theorem PoolInv.all_out_iff (h : PoolInv managed limit m out P) :
    (∀ p ∈ managed, p ∈ out) ↔ P.free = [] := by
  constructor
  · intro hall
    rw [List.eq_nil_iff_forall_not_mem]
    intro p hp
    exact h.out_not_free (hall p (h.mem_managed.mpr (Or.inl hp))) hp
  · intro hnil p hp
    rcases h.mem_managed.mp hp with hf | ho
    · rw [hnil] at hf
      exact absurd hf List.not_mem_nil
    · exact ho

theorem Pool.free_length (P : Pool) : P.free.length = P.pages.length + P.count := by
  rw [Pool.free, List.length_append, Pool.unpooled, length_pagesFrom]

theorem PoolInv.allocExact_iff (h : PoolInv managed limit m out P) :
    AllocExact managed out m ↔ P.free.length ≠ 1 := by
  have hlen := P.free_length
  rw [AllocExact, h.all_out_iff, ← List.length_eq_zero_iff]
  rcases P.alloc_cases with he | ⟨hp, hc⟩ | ⟨l, e, hl, hne⟩
  · have hok := mmuPfAlloc_exhausted h.rep h.wf he
    have hle := he.1
    have hc := he.2
    have hnull : ∃ m', mmuPfAlloc m = .ok 0 m' := ⟨m, hok⟩
    have hret : ∃ p m', mmuPfAlloc m = .ok p m' := ⟨0, m, hok⟩
    simp only [hret, hnull, true_and, true_iff]
    omega
  · obtain ⟨m1, hfail⟩ := mmuPfAlloc_single h.rep h.wf hp hc
    simp only [hfail, reduceCtorEq, exists_false, false_and, false_iff, not_not]
    simp [hlen, hp, hc]
  · obtain ⟨m1, hok, -⟩ := mmuPfAlloc_pop h.rep h.wf hl hne
    have htop := P.topUp_pages_length
    have hpos := List.length_pos_of_ne_nil hne
    rw [hl, List.length_append, List.length_singleton] at htop
    have hef : e ∈ P.free := by
      rw [← P.free_topUp, Pool.free, hl]
      simp
    have he0 : e ≠ 0 := h.free_page_ne_zero hef
    have hnull : ¬ ∃ m', mmuPfAlloc m = .ok 0 m' := by
      rintro ⟨m', hz⟩
      rw [hok, EStateM.Result.ok.injEq] at hz
      exact he0 hz.1
    have hret : ∃ p m', mmuPfAlloc m = .ok p m' := ⟨e, m1, hok⟩
    simp only [hret, hnull, true_and, false_iff]
    split at htop <;> omega

/-- In every reachable state the next allocation is exact unless just one managed page is
not outstanding: that page is never handed out. -/
theorem alloc_exact_iff (B : BootPool) (hrun : PfRun (B.mem, []) (m, out)) :
    AllocExact B.managed out m ↔ out.length + 1 ≠ B.managed.length := by
  obtain ⟨P, h⟩ := hrun.inv
  have hlen := h.length_eq
  rw [h.allocExact_iff]
  omega

theorem alloc_exact_small : AllocExact smallBoot.managed [0x3000] (smallAfter 1) :=
  (alloc_exact_iff smallBoot smallAfter_one).mpr (by decide +kernel)

/-- With one of three pages left the small machine answers NULL. -/
theorem alloc_not_exact : PfRun (smallBoot.mem, []) (smallAfter 2, [0x2000, 0x3000]) ∧
    ¬ AllocExact smallBoot.managed [0x2000, 0x3000] (smallAfter 2) := by
  refine ⟨smallAfter_two, ?_⟩
  rintro ⟨-, hnull⟩
  have hz : mmuPfAlloc (smallAfter 2) = .ok 0 _ := eq_ok_of_returned (by decide +kernel)
  have hall := hnull.mp ⟨_, hz⟩
  rw [smallBoot_managed] at hall
  exact absurd (hall 0x1000 (by decide)) (by decide)

end SkipOS
