import SkipOS.PoolLifo
import SkipOS.Strcpy

/-! The system tests of the page frame allocator, run from every state that it can be in: when
`pf_simple_test` passes, and what `pf_stress_test` leaves behind. -/

namespace SkipOS

open Mem Exec

def numAddrs : Nat := 5

/-- The second inner loop of `pf_simple_test`, over the pages that are expected back. -/
def reallocEach : List Word → Exec Mem (List Word)
  | [] => pure []
  | cpyAddr :: cpyAddrs => do
    let addr ← mmuPfAlloc
    assert (addr = cpyAddr)
    let addrs ← reallocEach cpyAddrs
    return addr :: addrs

/-- The rounds from `i` on of the second loop of `pf_simple_test`. -/
def simpleTestLoop (cpyAddrs : List Word) : Nat → Nat → List Word → Exec Mem (List Word)
  | 0, _, addrs => pure addrs
  | n + 1, i, addrs => do
    freeEach (addrs.take (i + 1)).reverse
    let first ← reallocEach (cpyAddrs.take (i + 1))
    simpleTestLoop cpyAddrs n (i + 1) (first ++ addrs.drop (i + 1))

def pfSimpleTest : Exec Mem Unit := do
  let addrs ← allocEach numAddrs
  let addrs ← simpleTestLoop addrs numAddrs 0 addrs
  freeEach addrs

/-- The first `n` words of the array `filler` are set. -/
def fillFiller (filler newPage : Word) : Nat → Mem → Mem
  | 0, m => m
  | n + 1, m => (fillFiller filler newPage n m).store64 (filler + 8 * BitVec.ofNat 64 n) newPage

/-- The first `n` bytes are compared. -/
def compareBytes (newPage filler : Word) : Nat → Exec Mem Unit
  | 0 => pure ()
  | n + 1 => do
    compareBytes newPage filler n
    let m ← get
    assert (m (newPage + BitVec.ofNat 64 n) = m (filler + BitVec.ofNat 64 n))

/-- The loop of `pf_stress_test`, with its counter. -/
def stressLoop (filler : Word) : Nat → Word → Exec Mem Word
  | 0, _ => throw .fuel
  | fuel + 1, pageCnt => do
    let newPage ← mmuPfAlloc
    if newPage ≠ 0 then do
      modify (fillFiller filler newPage 512)
      let _ ← StringC.memcpy 4097 newPage filler pageSize
      compareBytes newPage filler 4096
      stressLoop filler fuel (pageCnt + 1)
    else return pageCnt

/-- `pf_stress_test`, with its array at `filler`; `fuel` bounds the number of pages. -/
def pfStressTest (filler : Word) (fuel : Nat) : Exec Mem Word := stressLoop filler fuel 0

variable {managed out ps qs l : List Word} {limit e p filler : Word} {m m' : Mem} {P Q : Pool}
  {n i j k : Nat} {B : BootPool}

/-! Single allocations. -/

/-- With two pages left one of them is handed out. -/
theorem PoolInv.alloc_of_two (h : PoolInv managed limit m out P) (hn : 2 ≤ P.free.length) :
    ∃ p m' Q, mmuPfAlloc m = .ok p m' ∧ PoolInv managed limit m' (p :: out) Q ∧ p ∈ P.free ∧
      Q.free.length + 1 = P.free.length ∧ Q.pages ≠ [] ∧
      Set.EqOn m' m (frames (0 :: P.free))ᶜ := by
  have hlen := P.free_length
  rcases P.alloc_cases with he | ⟨hp, hc⟩ | ⟨l, e, hl, hne⟩
  · have := he.1
    have := he.2
    omega
  · rw [hp, List.length_nil] at hlen
    omega
  · obtain ⟨m1, hok, -⟩ := mmuPfAlloc_pop h.rep h.wf hl hne
    rcases h.alloc hok with ⟨he, -⟩ | ⟨hmem, Q, hQ, hperm, hpages, heq⟩
    · have := he.1
      have := he.2
      omega
    · have hlen' := hperm.length_eq
      rw [List.length_cons] at hlen'
      exact ⟨e, m1, Q, hok, hQ, hmem, hlen'.symm, hpages, heq⟩

/-- The last page stays on the list. -/
theorem PoolInv.alloc_null (h : PoolInv managed limit m out P) (hn : P.free.length ≤ 1)
    (hpages : P.pages ≠ [] ∨ P.count ≠ 1) : mmuPfAlloc m = .ok 0 m := by
  have hlen := P.free_length
  have hcount : P.count = 0 := by
    rcases hpages with hne | hone
    · have := List.length_pos_of_ne_nil hne
      omega
    · omega
  exact mmuPfAlloc_exhausted h.rep h.wf ⟨by omega, hcount⟩

theorem PoolInv.alloc_last (h : PoolInv managed limit m out P) (hpages : P.pages = l ++ [e])
    (hl : l ≠ []) :
    ∃ m', mmuPfAlloc m = .ok e m' ∧ PoolInv managed limit m' (e :: out) { P with pages := l } := by
  obtain ⟨m', hok, hrep⟩ := mmuPfAlloc_last h.rep h.wf hpages hl
  have hdrop : P.drop = { P with pages := l } := by rw [Pool.drop, hpages, List.dropLast_concat]
  have hne : P.pages ≠ [] := by simp [hpages]
  have hfree := P.free_drop hne
  simp only [hpages, List.getLast_append_singleton] at hfree
  have hwf := h.wf.drop
  rw [hdrop] at hrep hfree hwf
  refine ⟨m', hok, hrep, hwf, ?_, h.nodup, h.aligned, h.zero, h.limit_eq⟩
  exact (List.perm_middle.trans (hfree.symm.append_right out)).trans h.perm

/-! `pf_simple_test` -/

/-- All free pages but one are handed out, then NULL. -/
theorem PoolInv.allocEach (h : PoolInv managed limit m out P)
    (hpages : P.pages ≠ [] ∨ P.count ≠ 1) :
    ∃ ps m' Q, allocEach k m = .ok (ps ++ List.replicate (k - ps.length) 0) m' ∧
      PoolInv managed limit m' (ps.reverse ++ out) Q ∧
      ps.length = min k (P.free.length - 1) ∧ (P.pages ≠ [] ∨ ps ≠ [] → Q.pages ≠ []) := by
  induction k generalizing m out P with
  | zero => exact ⟨[], m, P, rfl, h, by simp, by simp⟩
  | succ k ih =>
    by_cases hn : P.free.length ≤ 1
    · have hnull := h.alloc_null hn hpages
      obtain ⟨ps, m', Q, hrun, h', hlen, hQ⟩ := ih h hpages
      have hnil : ps = [] := List.length_eq_zero_iff.mp (by omega)
      subst hnil
      refine ⟨[], m', Q, ?_, h', by rw [List.length_nil]; omega, hQ⟩
      rw [SkipOS.allocEach, bind_of_ok hnull, bind_of_ok hrun]
      rfl
    · obtain ⟨p, m₁, Q₁, halloc, h₁, -, hfree, hne, -⟩ := h.alloc_of_two (by omega)
      obtain ⟨ps, m₂, Q₂, hrun, h₂, hlen, hQ₂⟩ := ih h₁ (Or.inl hne)
      refine ⟨p :: ps, m₂, Q₂, ?_, ?_, by rw [List.length_cons]; omega,
        fun _ => hQ₂ (Or.inl hne)⟩
      · rw [SkipOS.allocEach, bind_of_ok halloc, bind_of_ok hrun, List.length_cons,
          Nat.add_sub_add_right]
        rfl
      · rwa [List.reverse_cons, List.append_assoc]

theorem PoolInv.reallocEach (h : PoolInv managed limit m out { P with pages := l ++ qs.reverse })
    (hl : l ≠ []) :
    ∃ m', reallocEach qs m = .ok qs m' ∧
      PoolInv managed limit m' (qs.reverse ++ out) { P with pages := l } := by
  induction qs generalizing m out with
  | nil =>
    rw [List.reverse_nil, List.append_nil] at h
    exact ⟨m, rfl, h⟩
  | cons q qs ih =>
    rw [List.reverse_cons, ← List.append_assoc] at h
    obtain ⟨m1, halloc, h1⟩ := h.alloc_last rfl (List.append_ne_nil_of_left_ne_nil hl _)
    obtain ⟨m2, hrun, h2⟩ := ih h1
    refine ⟨m2, ?_, ?_⟩
    · rw [SkipOS.reallocEach, bind_of_ok halloc, bind_assert_of rfl, bind_of_ok hrun]
      rfl
    · rwa [List.reverse_cons, List.append_assoc]

/-- The outstanding pages are those that the pool does not hold. -/
theorem PoolInv.out_perm {out' : List Word} (h : PoolInv managed limit m out P)
    (h' : PoolInv managed limit m' out' P) : out'.Perm out :=
  (List.perm_append_left_iff P.free).mp (h'.perm.trans h.perm.symm)

theorem PoolInv.out_perm_of_back {out' : List Word}
    (h : PoolInv managed limit m (ps.reverse ++ out) P)
    (h' : PoolInv managed limit m' out' { P with pages := P.pages ++ ps }) : out'.Perm out := by
  have hback : (P.pages ++ (ps ++ P.unpooled)).Perm (P.free ++ ps.reverse) := by
    rw [Pool.free, List.append_assoc]
    exact (List.perm_append_comm.trans (ps.reverse_perm.symm.append_left _)).append_left _
  refine (List.perm_append_left_iff (P.free ++ ps.reverse)).mp ?_
  have hperm := h'.perm
  rw [Pool.free, List.append_assoc P.pages] at hperm
  rw [List.append_assoc _ _ out]
  exact (hback.symm.append_right out').trans (hperm.trans h.perm.symm)

theorem PoolInv.taken_nodup (h : PoolInv managed limit m (ps.reverse ++ out) P) : ps.Nodup := by
  have hnd := (List.nodup_append.mp (h.perm.nodup_iff.mpr h.nodup)).2.1
  exact List.nodup_reverse.mp (List.nodup_append.mp hnd).1

/-- Pages given back in reverse order come back in order, and the pool is as before. -/
theorem PoolInv.round (h : PoolInv managed limit m out P) (hpages : P.pages ≠ []) (hnd : qs.Nodup)
    (hqs : qs ⊆ out) : ∃ m₁ m' out', SkipOS.freeEach qs.reverse m = .ok () m₁ ∧
      SkipOS.reallocEach qs m₁ = .ok qs m' ∧ PoolInv managed limit m' out' P ∧ out'.Perm out := by
  obtain ⟨m₁, out₁, hfree, h₁⟩ := h.freeEach (List.nodup_reverse.mpr hnd)
    (fun q hq => hqs (List.mem_reverse.mp hq))
  obtain ⟨m', hrun, h'⟩ := h₁.reallocEach (P := P) hpages
  exact ⟨m₁, m', _, hfree, hrun, h', h.out_perm h'⟩

theorem PoolInv.simpleTestLoop (h : PoolInv managed limit m out P) (hpages : P.pages ≠ [])
    (hnd : ps.Nodup) (hps : ps ⊆ out) :
    ∃ m' out', simpleTestLoop ps n i ps m = .ok ps m' ∧ PoolInv managed limit m' out' P ∧
      out'.Perm out := by
  induction n generalizing m out i with
  | zero => exact ⟨m, out, rfl, h, List.Perm.refl _⟩
  | succ n ih =>
    obtain ⟨m₁, m₂, out₂, hfree, hrun, h₂, hout⟩ := h.round hpages
      (hnd.sublist (List.take_sublist (i + 1) ps)) (fun q hq => hps (List.mem_of_mem_take hq))
    obtain ⟨m', out', hrest, h', hout'⟩ :=
      ih (i := i + 1) h₂ (fun q hq => hout.mem_iff.mpr (hps hq))
    refine ⟨m', out', ?_, h', hout'.trans hout⟩
    rw [SkipOS.simpleTestLoop, bind_of_ok hfree, bind_of_ok hrun, List.take_append_drop]
    exact hrest

/-- The round that gives NULL back does not come to an end. -/
theorem PoolInv.simpleTestLoop_fails (h : PoolInv managed limit m out P) (qs : List Word)
    (hpages : ps ≠ [] → P.pages ≠ []) (hnd : ps.Nodup) (hps : ps ⊆ out) (hi : i ≤ ps.length)
    (hn : ps.length < i + n) :
    ∃ m', SkipOS.simpleTestLoop (ps ++ 0 :: qs) n i (ps ++ 0 :: qs) m = .error .assert m' := by
  induction n generalizing m out i with
  | zero => omega
  | succ n ih =>
    rcases Nat.lt_or_eq_of_le hi with hlt | rfl
    · have htake : (ps ++ 0 :: qs).take (i + 1) = ps.take (i + 1) :=
        List.take_append_of_le_length hlt
      have hne : ps ≠ [] := List.ne_nil_of_length_pos (by omega)
      obtain ⟨m₁, m₂, out₂, hfree, hrun, h₂, hout⟩ := h.round (hpages hne)
        (hnd.sublist (List.take_sublist (i + 1) ps)) (fun q hq => hps (List.mem_of_mem_take hq))
      obtain ⟨m', hrest⟩ := ih h₂ (fun q hq => hout.mem_iff.mpr (hps hq)) hlt (by omega)
      refine ⟨m', ?_⟩
      rw [SkipOS.simpleTestLoop, htake, bind_of_ok hfree, bind_of_ok hrun, ← htake,
        List.take_append_drop]
      exact hrest
    · have htake : (ps ++ 0 :: qs).take (ps.length + 1) = ps ++ [0] := by
        rw [List.take_append, List.take_of_length_le (Nat.le_succ _), Nat.add_sub_cancel_left]
        rfl
      refine ⟨m, ?_⟩
      rw [SkipOS.simpleTestLoop, htake, List.reverse_append, List.reverse_singleton,
        List.singleton_append, SkipOS.freeEach, mmuPfFree]
      rfl

theorem pfSimpleTest_of_short (h : PoolInv managed limit m out P)
    (hpages : P.pages ≠ [] ∨ P.count ≠ 1) (hfree : P.free.length ≤ 5) :
    ∃ m', pfSimpleTest m = .error .assert m' := by
  obtain ⟨ps, m₁, Q, halloc, h₁, hlen, hQ⟩ := h.allocEach (k := numAddrs) hpages
  have hshort : ps.length < numAddrs := by
    rw [numAddrs] at *
    omega
  obtain ⟨m', hloop⟩ := h₁.simpleTestLoop_fails (n := numAddrs) (i := 0)
    (List.replicate (numAddrs - ps.length - 1) 0) (fun hne => hQ (Or.inr hne)) h₁.taken_nodup
    (fun q hq => List.mem_append_left out (List.mem_reverse.mpr hq)) (Nat.zero_le _) (by omega)
  have hnull : List.replicate (numAddrs - ps.length) (0 : Word) =
      0 :: List.replicate (numAddrs - ps.length - 1) 0 := by
    rw [← List.replicate_succ]
    congr 1
    omega
  rw [hnull] at halloc
  refine ⟨m', ?_⟩
  rw [pfSimpleTest, bind_of_ok halloc, bind_of_error hloop]

/-- The test passes, with the same pages free at the end, exactly when a page is left over after
the five that it takes. -/
theorem pf_simple_test_passes (B : BootPool) (hrun : PfRun (B.mem, []) (m, out)) :
    (out.length + 6 ≤ B.managed.length →
      ∃ m' l, pfSimpleTest m = .ok () m' ∧ CircularList m' l ∧
        (l ++ out ++ upperRange m').Perm B.managed) ∧
    (B.managed.length < out.length + 6 → ∃ m', pfSimpleTest m = .error .assert m') := by
  obtain ⟨P, h⟩ := hrun.inv
  have hfree := h.length_eq
  have hlength := P.free_length
  constructor
  · intro hroom
    have hpages : P.pages ≠ [] ∨ P.count ≠ 1 := by
      refine or_iff_not_imp_left.mpr fun hnil => ?_
      rw [not_not.mp hnil, List.length_nil] at hlength
      omega
    obtain ⟨ps, m₁, Q, halloc, h₁, hlen, hQ⟩ := h.allocEach (k := numAddrs) hpages
    have hps : ps.length = numAddrs := by
      rw [numAddrs] at *
      omega
    have hne : ps ≠ [] := List.ne_nil_of_length_pos (by rw [hps, numAddrs]; decide)
    have hsub : ps ⊆ ps.reverse ++ out :=
      fun q hq => List.mem_append_left out (List.mem_reverse.mpr hq)
    rw [hps, Nat.sub_self, List.replicate_zero, List.append_nil] at halloc
    obtain ⟨m₂, out₂, hloop, h₂, hout₂⟩ := h₁.simpleTestLoop (n := numAddrs) (i := 0)
      (hQ (Or.inr hne)) h₁.taken_nodup hsub
    obtain ⟨m₃, out₃, hback, h₃⟩ :=
      h₂.freeEach h₁.taken_nodup (fun q hq => hout₂.mem_iff.mpr (hsub hq))
    obtain ⟨hcircular, hperm⟩ := h₃.partition
    refine ⟨m₃, _, ?_, hcircular, ?_⟩
    · rw [pfSimpleTest, bind_of_ok halloc, bind_of_ok hloop]
      exact hback
    · have hout := h₁.out_perm_of_back h₃
      exact ((hout.symm.append_left _).append_right _).trans hperm
  · intro hshort
    by_cases hpages : P.pages ≠ [] ∨ P.count ≠ 1
    · exact pfSimpleTest_of_short h hpages (by omega)
    · rw [not_or, not_not, not_not] at hpages
      obtain ⟨m', hfail⟩ := mmuPfAlloc_single h.rep h.wf hpages.1 hpages.2
      refine ⟨m', ?_⟩
      have hfails : SkipOS.allocEach numAddrs m = .error .assert m' := bind_of_error hfail _
      exact bind_of_error hfails _

theorem pf_simple_test_passes_roomy :
    (∃ m' l, pfSimpleTest roomyBoot.mem = .ok () m' ∧ CircularList m' l ∧
      (l ++ [] ++ upperRange m').Perm roomyBoot.managed) ∧
    ∃ m', pfSimpleTest smallBoot.mem = .error .assert m' :=
  ⟨(pf_simple_test_passes roomyBoot .refl).1 (by decide +kernel),
    (pf_simple_test_passes smallBoot .refl).2 (by decide +kernel)⟩

/-! `pf_stress_test` -/

/-- Every word of the page holds the page's own address. -/
def SelfFilled (m : Mem) (p : Word) : Prop := ∀ d, IsSlot d → m.field p d = p

theorem fillFiller_apply (hn : n ≤ 512) (hk : k < 8 * n) :
    fillFiller filler p n m (filler + BitVec.ofNat 64 k) =
      BitVec.ofNat 8 (p.toNat / 256 ^ (k % 8)) := by
  induction n with
  | zero => omega
  | succ n ih =>
    rw [fillFiller, store64, storeLE]
    by_cases hlast : 8 * n ≤ k
    · have hoff : (filler + BitVec.ofNat 64 k - (filler + 8 * BitVec.ofNat 64 n)).toNat = k % 8 := by
        bv_omega
      rw [if_pos (by rw [mem_span, hoff]; omega), hoff]
    · have hout : filler + BitVec.ofNat 64 k ∉ span (filler + 8 * BitVec.ofNat 64 n) 8 := by
        rw [mem_span]
        bv_omega
      rw [if_neg hout]
      exact ih (by omega) (by omega)

theorem fillFiller_eqOn (hn : n ≤ 512) :
    Set.EqOn (fillFiller filler p n m) m (span filler 4096)ᶜ := by
  induction n with
  | zero => exact Set.eqOn_refl _ _
  | succ n ih =>
    have hsub : span (filler + 8 * BitVec.ofNat 64 n) 8 ⊆ span filler 4096 := by
      apply span_offset_subset
      bv_omega
    exact ((store64_eqOn_compl _ _ _).mono (Set.compl_subset_compl.mpr hsub)).trans (ih (by omega))

theorem compareBytes_ok
    (h : ∀ i < n, m (p + BitVec.ofNat 64 i) = m (filler + BitVec.ofNat 64 i)) :
    compareBytes p filler n m = .ok () m := by
  induction n with
  | zero => rfl
  | succ n ih =>
    rw [compareBytes, bind_of_ok (ih fun i hi => h i (by omega)), bind_get, assert,
      if_pos (h n (Nat.lt_succ_self n))]
    rfl

/-- One page: the array is filled with its address and copied there, and the comparison holds. -/
theorem stressLoop_page (hrun : mmuPfAlloc m = .ok p m') (hp : p ≠ 0)
    (hdis : Disjoint (span filler 4096) (frame p)) :
    ∃ m'', (∀ fuel cnt, stressLoop filler (fuel + 1) cnt m = stressLoop filler fuel (cnt + 1) m'') ∧
      SelfFilled m'' p ∧ Set.EqOn m'' m' (span filler 4096 ∪ frame p)ᶜ := by
  obtain ⟨m'', hcopy, hcpy⟩ := StringC.memcpyLoop_run (m := fillFiller filler p 512 m')
    (n := 4096) .refl (StringC.upwards_of_disjoint hdis.symm (by decide)) (Nat.zero_le _) (by decide)
  have hloop : StringC.memcpyLoop p filler pageSize 4097 0 (fillFiller filler p 512 m') =
      .ok () m'' := hcpy 4097 (by omega)
  have hmemcpy : StringC.memcpy 4097 p filler pageSize (fillFiller filler p 512 m') = .ok p m'' :=
    bind_of_ok hloop _
  have hsame : ∀ i < 4096, m'' (p + BitVec.ofNat 64 i) = m'' (filler + BitVec.ofNat 64 i) := by
    intro i hi
    have hsrc : filler + BitVec.ofNat 64 i ∈ (frame p)ᶜ :=
      Set.disjoint_left.mp hdis (add_mem_span hi (by omega))
    rw [hcopy.copied i hi, hcopy.frame hsrc]
  refine ⟨m'', fun fuel cnt => ?_, fun d hd => ?_, ?_⟩
  · rw [stressLoop, bind_of_ok hrun, if_pos hp, bind_modify, bind_of_ok hmemcpy]
    exact bind_of_ok (compareBytes_ok hsame) _
  · have hbytes : m''.loadLE (p + d) 8 = p.toNat % 256 ^ 8 := by
      apply loadLE_of_digits
      intro i hi
      have hoff : p + d + BitVec.ofNat 64 i = p + BitVec.ofNat 64 (d.toNat + i) := by bv_omega
      have hmod : (d.toNat + i) % 8 = i := by
        have := hd.1
        omega
      rw [hoff, hcopy.copied _ (by have := hd.1; have := hd.2; omega),
        fillFiller_apply (Nat.le_refl _) (by have := hd.1; have := hd.2; omega), hmod]
    have hlt := p.isLt
    rw [field, load64, hbytes, Nat.mod_eq_of_lt (by omega), BitVec.ofNat_toNat, BitVec.setWidth_eq]
  · intro a ha
    rw [Set.mem_compl_iff, Set.mem_union, not_or] at ha
    exact (hcopy.frame ha.2).trans (fillFiller_eqOn (Nat.le_refl _) ha.1)

/-- The array is apart from the head of the pool and from its pages. -/
def ArrayApart (managed : List Word) (filler : Word) : Prop :=
  ∀ q ∈ 0 :: managed, Disjoint (span filler 4096) (frame q)

theorem SelfFilled.congr (h : SelfFilled m p) (he : Set.EqOn m' m (frame p)) : SelfFilled m' p := by
  intro d hd
  rw [field_congr he hd]
  exact h d hd

theorem PoolInv.stress_step (h : PoolInv managed limit m out P) (hn : 2 ≤ P.free.length)
    (hfiller : ArrayApart managed filler) :
    ∃ p m' Q, (∀ fuel cnt,
        stressLoop filler (fuel + 1) cnt m = stressLoop filler fuel (cnt + 1) m') ∧
      PoolInv managed limit m' (p :: out) Q ∧ Q.free.length + 1 = P.free.length ∧ Q.pages ≠ [] ∧
      SelfFilled m' p ∧ ∀ q ∈ out, Set.EqOn m' m (frame q) := by
  obtain ⟨p, m₁, Q, halloc, h₁, hp, hlen, hpages, he₁⟩ := h.alloc_of_two hn
  have hpm : p ∈ 0 :: managed := List.mem_cons_of_mem 0 (h.mem_managed.mpr (Or.inl hp))
  obtain ⟨m', hstep, hfilled, he'⟩ :=
    stressLoop_page halloc (h.free_page_ne_zero hp) (hfiller p hpm)
  -- a page apart from the array and from the new page stays as it is
  have hkeep : ∀ q ∈ 0 :: managed, q ≠ p → Set.EqOn m' m₁ (frame q) := by
    intro q hq hqp
    have hal : ∀ x ∈ 0 :: managed, Aligned x := List.forall_mem_cons.mpr ⟨aligned_zero, h.aligned⟩
    refine he'.mono (Set.subset_compl_iff_disjoint_right.mpr (Set.disjoint_union_right.mpr ⟨?_, ?_⟩))
    · exact (hfiller q hq).symm
    · exact disjoint_frame (hal q hq) (hal p hpm) hqp
  have hhead : Set.EqOn m' m₁ (frames (0 :: Q.pages)) := by
    rintro b ⟨q, hq, hb⟩
    have hqm : q ∈ 0 :: managed := by
      rcases List.mem_cons.mp hq with rfl | hq
      · exact List.mem_cons_self
      · exact List.mem_cons_of_mem 0 (h₁.mem_managed.mpr (Or.inl (List.mem_append_left _ hq)))
    have hqp : q ≠ p := by
      rintro rfl
      rcases List.mem_cons.mp hq with rfl | hq
      · exact h.free_page_ne_zero hp rfl
      · exact h₁.out_not_free List.mem_cons_self (List.mem_append_left _ hq)
    exact hkeep q hqm hqp hb
  refine ⟨p, m', Q, hstep, ⟨h₁.rep.congr hhead, h₁.wf, h₁.perm, h₁.nodup, h₁.aligned, h₁.zero,
    h₁.limit_eq⟩, hlen, hpages, hfilled, fun q hq => ?_⟩
  have hqp : q ≠ p := by
    rintro rfl
    exact h.out_not_free hq hp
  have hqf : q ∉ 0 :: P.free := by
    rintro hmem
    rcases List.mem_cons.mp hmem with rfl | hmem
    · exact h.zero (h.mem_managed.mpr (Or.inr hq))
    · exact h.out_not_free hq hmem
  have hfree : ∀ x ∈ 0 :: P.free, Aligned x := List.forall_mem_cons.mpr
    ⟨aligned_zero, fun x hx => h.aligned x (h.mem_managed.mpr (Or.inl hx))⟩
  exact (hkeep q (List.mem_cons_of_mem 0 (h.mem_managed.mpr (Or.inr hq))) hqp).trans
    (he₁.mono (frame_subset_compl_frames (h.out_aligned hq) hfree hqf))

theorem PoolInv.stress_run (h : PoolInv managed limit m out P)
    (hpages : P.pages ≠ [] ∨ P.count ≠ 1) (hfiller : ArrayApart managed filler) :
    ∃ m' ps Q, (∀ fuel > P.free.length - 1, ∀ cnt,
        stressLoop filler fuel cnt m = .ok (cnt + BitVec.ofNat 64 ps.length) m') ∧
      ps.length = P.free.length - 1 ∧ PoolInv managed limit m' (ps ++ out) Q ∧
      mmuPfAlloc m' = .ok 0 m' ∧ (∀ q ∈ ps, SelfFilled m' q) ∧ ∀ q ∈ out, Set.EqOn m' m (frame q) := by
  induction hlen : P.free.length - 1 generalizing m out P with
  | zero =>
    have hnull := h.alloc_null (by omega) hpages
    refine ⟨m, [], P, fun fuel hfuel cnt => ?_, rfl, h, hnull, by simp, fun _ _ => Set.eqOn_refl _ _⟩
    obtain ⟨fuel, rfl⟩ := Nat.exists_eq_succ_of_ne_zero (Nat.ne_of_gt hfuel)
    rw [stressLoop, bind_of_ok hnull, if_neg (not_not_intro rfl), List.length_nil]
    exact congrArg (EStateM.Result.ok · m) (BitVec.add_zero cnt).symm
  | succ n ih =>
    obtain ⟨p, m₁, Q₁, hstep, h₁, hfree, hne, hfilled, hkept⟩ := h.stress_step (by omega) hfiller
    obtain ⟨m', ps, Q, hrun, hps, h', hnull, hall, hkept'⟩ := ih h₁ (Or.inl hne) (by omega)
    refine ⟨m', ps ++ [p], Q, fun fuel hfuel cnt => ?_, ?_, ?_, hnull, ?_, fun q hq => ?_⟩
    · obtain ⟨fuel, rfl⟩ := Nat.exists_eq_succ_of_ne_zero (Nat.ne_zero_of_lt hfuel)
      rw [hstep, hrun fuel (by omega), List.length_append, List.length_singleton, BitVec.ofNat_add,
        BitVec.add_comm (BitVec.ofNat 64 ps.length), ← BitVec.add_assoc]
      rfl
    · rw [List.length_append, List.length_singleton, hps]
    · rwa [List.append_assoc, List.singleton_append]
    · intro q hq
      rcases List.mem_append.mp hq with hq | hq
      · exact hall q hq
      · rw [List.mem_singleton.mp hq]
        exact hfilled.congr (hkept' p List.mem_cons_self)
    · exact (hkept' q (List.mem_cons_of_mem p hq)).trans (hkept q hq)

/-- The stress test takes every free page but the last one, fills each with its own address, and
touches no page that is handed out already. -/
theorem pf_stress_test_takes_all (B : BootPool) (hrun : PfRun (B.mem, []) (m, out))
    (hfiller : ArrayApart B.managed filler) (hone : out.length + 1 ≠ B.managed.length) :
    ∃ m' ps, (∀ fuel > B.managed.length,
        pfStressTest filler fuel m = .ok (BitVec.ofNat 64 ps.length) m') ∧
      ps.length = B.managed.length - out.length - 1 ∧ (ps ++ out).Nodup ∧ ps ++ out ⊆ B.managed ∧
      mmuPfAlloc m' = .ok 0 m' ∧ (∀ q ∈ ps, SelfFilled m' q) ∧ ∀ q ∈ out, Set.EqOn m' m (frame q) := by
  obtain ⟨P, h⟩ := hrun.inv
  have hfree := h.length_eq
  have hlength := P.free_length
  have hpages : P.pages ≠ [] ∨ P.count ≠ 1 := by
    refine or_iff_not_imp_left.mpr fun hnil => ?_
    rw [not_not.mp hnil, List.length_nil] at hlength
    omega
  obtain ⟨m', ps, Q, hstress, hps, h', hnull, hfilled, hkept⟩ := h.stress_run hpages hfiller
  refine ⟨m', ps, fun fuel hfuel => ?_, by omega, ?_, ?_, hnull, hfilled, hkept⟩
  · have hcnt : (0 : Word) + BitVec.ofNat 64 ps.length = BitVec.ofNat 64 ps.length :=
      BitVec.zero_add _
    rw [pfStressTest, hstress fuel (by omega), hcnt]
  · exact (List.nodup_append.mp (h'.perm.nodup_iff.mpr h'.nodup)).2.1
  · exact fun q hq => h'.mem_managed.mpr (Or.inr hq)

theorem arrayApart_small : ArrayApart smallBoot.managed 0x8008 := by
  intro q hq
  rw [smallBoot_managed] at hq
  simp only [List.mem_cons, List.not_mem_nil, or_false] at hq
  have hend : q.toNat + 4096 ≤ (0x8008 : Word).toNat := by
    rcases hq with rfl | rfl | rfl | rfl <;> bv_omega
  exact (span_disjoint hend (by bv_omega)).symm

theorem pf_stress_test_takes_all_small : ∃ (m' : Mem) (ps : List Word),
    pfStressTest 0x8008 4 smallBoot.mem = .ok 2 m' ∧ ps.length = 2 ∧ ∀ q ∈ ps, SelfFilled m' q := by
  have hlen : smallBoot.managed.length = 3 := by rw [smallBoot_managed]; rfl
  obtain ⟨m', ps, hrun, hps, -, -, -, hfilled, -⟩ :=
    pf_stress_test_takes_all smallBoot .refl arrayApart_small (by decide +kernel)
  rw [hlen] at hrun hps
  have hrun4 := hrun 4 (by decide)
  rw [hps] at hrun4
  exact ⟨m', ps, hrun4, hps, hfilled⟩

end SkipOS
