import SkipOS.KmallocRun
import Mathlib.Algebra.Order.Floor.Div

/-! How many pages the pools of the heap take, over any memory. `kfree` does not count the chunks
that it puts back, so that the pages of a pool follow from the calls it has served. -/

namespace SkipOS

open Mem Exec

section

variable {σ α : Type}

/-- The pages added to a pool. -/
def Kernel.pagesOf (k : Kernel σ) (i : Fin 7) : Nat := (k.added.map Prod.fst).count i

/-- The calls of `kmalloc` that each pool has served, after one more. -/
def servedAfter (served : Fin 7 → Nat) (size : Word) : Fin 7 → Nat :=
  match getBestPool (size + sizeofHeader) with
  | some i => Function.update served i (served i + 1)
  | none => served

/-- Calls that return, with any arguments and over any memory, and anything else that happens to
memory. -/
inductive ServeStep (arr : PoolArr) :
    Kernel σ × (Fin 7 → Nat) → Kernel σ × (Fin 7 → Nat) → Prop
  | kmalloc {k k' : Kernel σ} {served : Fin 7 → Nat} {ptr : Word} (M : Mmu σ) (size : Word)
      (hrun : kmalloc M arr size k = .ok ptr k') :
      ServeStep arr (k, served) (k', servedAfter served size)
  | kfree {k k' : Kernel σ} {served : Fin 7 → Nat} (M : Mmu σ) (ptr : Word)
      (hrun : kfree M arr ptr k = .ok () k') : ServeStep arr (k, served) (k', served)
  | other {k : Kernel σ} {served : Fin 7 → Nat} (s : σ) :
      ServeStep arr (k, served) ({ k with mmu := s }, served)

abbrev ServeRun (σ : Type) (arr : PoolArr) := Relation.ReflTransGen (ServeStep (σ := σ) arr)

/-- Counters and pages are as before. -/
structure SameCounts (k k' : Kernel σ) : Prop where
  avail : ∀ i, (k'.pools i).avail = (k.pools i).avail
  added : k'.added = k.added

/-- The chunks of the pages of a pool are those counted and those handed out so far, and a page is
added only when no chunk is counted. -/
structure PoolCounts (k : Kernel σ) (served : Fin 7 → Nat) (i : Fin 7) : Prop where
  total : (k.pools i).avail.toNat + served i = (numChunks i).toNat * k.pagesOf i
  pages : 0 < k.pagesOf i
  below : (k.pools i).avail.toNat < (numChunks i).toNat ∨
    (k.pools i).avail = numChunks i ∧ served i = 0

variable {M : Mmu σ} {arr : PoolArr} {k k' k0 : Kernel σ} {served served' : Fin 7 → Nat}
  {i j : Fin 7} {ptr size : Word} {x : Exec (Kernel σ) α} {a : α} {u : Unit}

theorem SameCounts.refl (k : Kernel σ) : SameCounts k k := ⟨fun _ => rfl, rfl⟩

theorem SameCounts.trans {k₁ k₂ k₃ : Kernel σ} (h : SameCounts k₁ k₂) (h' : SameCounts k₂ k₃) :
    SameCounts k₁ k₃ :=
  ⟨fun i => (h'.avail i).trans (h.avail i), h'.added.trans h.added⟩

theorem SameCounts.of_ok (hx : Moves SameCounts x) (h : x k = .ok a k') : SameCounts k k' := by
  have hm := hx k
  rwa [h] at hm

theorem sameCounts_onMmu (x : Exec σ α) : Moves SameCounts (onMmu x) := by
  intro k
  cases h : x k.mmu with
  | ok a s => simpa only [onMmu, zoom, h] using ⟨fun _ => rfl, rfl⟩
  | error e s => simpa only [onMmu, zoom, h] using ⟨fun _ => rfl, rfl⟩

theorem sameCounts_setHead (i : Fin 7) (c : Word) :
    Moves SameCounts (setPool i fun p => { p with head := c } : Exec (Kernel σ) Unit) := by
  refine Moves.modify fun k => ⟨fun j => ?_, rfl⟩
  by_cases hj : j = i
  · subst hj
    simp
  · simp [Function.update_of_ne hj]

theorem sameCounts_bind {β : Type} {f : α → Exec (Kernel σ) β} (hx : Moves SameCounts x)
    (hf : ∀ a, Moves SameCounts (f a)) : Moves SameCounts (x >>= f) :=
  Moves.bind (R := SameCounts) (fun _ _ _ => SameCounts.trans) hx hf

theorem sameCounts_linkChunks (size : Word) (n : Nat) (chunk : Word) :
    Moves SameCounts (linkChunks M size n chunk) := by
  induction n generalizing chunk with
  | zero => exact Moves.pure SameCounts.refl chunk
  | succ n ih =>
    refine sameCounts_bind (sameCounts_onMmu _) fun _ => ?_
    exact sameCounts_bind (sameCounts_onMmu _) fun chunk => ih chunk

theorem sameCounts_kfree (ptr : Word) : Moves SameCounts (kfree M arr ptr) := by
  refine sameCounts_bind (Moves.assert SameCounts.refl _) fun _ => ?_
  refine sameCounts_bind (sameCounts_onMmu _) fun size => ?_
  refine sameCounts_bind (sameCounts_onMmu _) fun poolPtr => ?_
  split
  · exact sameCounts_onMmu _
  · have hat : Moves SameCounts (arr.poolAt poolPtr : Exec (Kernel σ) (Fin 7)) := by
      rw [PoolArr.poolAt]
      split
      · exact Moves.pure SameCounts.refl _
      · exact Moves.throw SameCounts.refl _
    refine sameCounts_bind hat fun i => ?_
    refine sameCounts_bind (Moves.get SameCounts.refl) fun k => ?_
    exact sameCounts_bind (sameCounts_onMmu _) fun _ => sameCounts_setHead i _

theorem SameCounts.pagesOf (h : SameCounts k k') (i : Fin 7) : k'.pagesOf i = k.pagesOf i := by
  rw [Kernel.pagesOf, Kernel.pagesOf, h.added]

theorem PoolCounts.congr (h : PoolCounts k served i)
    (havail : (k'.pools i).avail = (k.pools i).avail) (hpages : k'.pagesOf i = k.pagesOf i)
    (hserved : served' i = served i) : PoolCounts k' served' i := by
  obtain ⟨htotal, hpos, hbelow⟩ := h
  rw [← havail, ← hpages, ← hserved] at htotal
  rw [← hpages] at hpos
  rw [← havail, ← hserved] at hbelow
  exact ⟨htotal, hpos, hbelow⟩

/-- `add_page` counts the chunks of one page more, for its pool only. -/
structure PageCounted (i : Fin 7) (k k' : Kernel σ) : Prop where
  self : (k'.pools i).avail = (k.pools i).avail + numChunks i
  others : ∀ j, j ≠ i → (k'.pools j).avail = (k.pools j).avail
  pages : ∀ j, k'.pagesOf j = k.pagesOf j + if j = i then 1 else 0

theorem addPage_counts (h : addPage M i k = .ok u k') : PageCounted i k k' := by
  obtain ⟨page, k₁, halloc, h⟩ := bind_eq_ok.mp h
  have h₁ := SameCounts.of_ok (sameCounts_onMmu _) halloc
  rw [bind_modify, bind_get] at h
  obtain ⟨_, k₂, hhead, h⟩ := bind_eq_ok.mp h
  have h₂ := SameCounts.of_ok (sameCounts_setHead i page) hhead
  obtain ⟨chunk, k₃, hlink, h⟩ := bind_eq_ok.mp h
  have h₃ := h₂.trans (SameCounts.of_ok (sameCounts_linkChunks _ _ _) hlink)
  obtain ⟨_, k₄, hstore, h⟩ := bind_eq_ok.mp h
  have h₄ := h₃.trans (SameCounts.of_ok (sameCounts_onMmu _) hstore)
  rw [setPool, modify_apply, EStateM.Result.ok.injEq] at h
  obtain ⟨-, rfl⟩ := h
  have havail : ∀ j, (k₄.pools j).avail = (k.pools j).avail :=
    fun j => (h₄.avail j).trans (h₁.avail j)
  have hadded : k₄.added = (i, page) :: k.added := by
    rw [h₄.added, h₁.added]
  refine ⟨?_, fun j hj => ?_, fun j => ?_⟩
  · simp [havail]
  · simp [Function.update_of_ne hj, havail]
  · have hsame : (i == j) = true ↔ j = i := by
      rw [beq_iff_eq]
      exact eq_comm
    rw [Kernel.pagesOf, Kernel.pagesOf, hadded, List.map_cons, List.count_cons]
    exact congrArg _ (if_congr hsame rfl rfl)

/-- One call of `kmalloc`. -/
theorem kmalloc_counts (h : kmalloc M arr size k = .ok ptr k') :
    (getBestPool (size + sizeofHeader) = none ∧ SameCounts k k') ∨
    ∃ i k₁, getBestPool (size + sizeofHeader) = some i ∧
      ((k.pools i).avail ≠ 0 ∧ k₁ = k ∨ (k.pools i).avail = 0 ∧ PageCounted i k k₁) ∧
      (k'.pools i).avail = (k₁.pools i).avail - 1 ∧
      (∀ j, j ≠ i → (k'.pools j).avail = (k₁.pools j).avail) ∧ k'.added = k₁.added := by
  obtain ⟨_, k₀, hassert, h⟩ := bind_eq_ok.mp h
  obtain rfl := (assert_eq_ok.mp hassert).2
  cases hbest : getBestPool (size + sizeofHeader) with
  | none =>
    left
    simp only [hbest] at h
    have hrest : Moves SameCounts (onMmu (M.allocPages (newPageCnt (size + sizeofHeader))) >>=
        fun newPage => onMmu (M.store64 newPage 0) >>= fun _ =>
          onMmu (M.store64 (newPage + 8) (newPageCnt (size + sizeofHeader) * pageSize)) >>=
            fun _ => pure (newPage + sizeofHeader) : Exec (Kernel σ) Word) := by
      refine sameCounts_bind (sameCounts_onMmu _) fun newPage => ?_
      refine sameCounts_bind (sameCounts_onMmu _) fun _ => ?_
      exact sameCounts_bind (sameCounts_onMmu _) fun _ => Moves.pure SameCounts.refl _
    exact ⟨rfl, SameCounts.of_ok hrest h⟩
  | some i =>
    right
    simp only [hbest, bind_get] at h
    obtain ⟨_, k₁, hadd, h⟩ := bind_eq_ok.mp h
    rw [bind_get] at h
    obtain ⟨next, k₂, hload, h⟩ := bind_eq_ok.mp h
    obtain ⟨_, k₃, hhead, h⟩ := bind_eq_ok.mp h
    have h₃ := (SameCounts.of_ok (sameCounts_onMmu _) hload).trans
      (SameCounts.of_ok (sameCounts_setHead i next) hhead)
    rw [setPool, bind_modify] at h
    have hrest : Moves SameCounts (onMmu (M.store64 (k₁.pools i).head (arr.ptr i)) >>= fun _ =>
        onMmu (M.store64 ((k₁.pools i).head + 8) (size + sizeofHeader)) >>= fun _ =>
          pure ((k₁.pools i).head + sizeofHeader) : Exec (Kernel σ) Word) := by
      refine sameCounts_bind (sameCounts_onMmu _) fun _ => ?_
      exact sameCounts_bind (sameCounts_onMmu _) fun _ => Moves.pure SameCounts.refl _
    have h₄ := SameCounts.of_ok hrest h
    refine ⟨i, k₁, rfl, ?_, ?_, fun j hj => ?_, h₄.added.trans h₃.added⟩
    · by_cases havail : (k.pools i).avail = 0
      · rw [if_pos havail] at hadd
        exact Or.inr ⟨havail, addPage_counts hadd⟩
      · rw [if_neg havail, pure_apply, EStateM.Result.ok.injEq] at hadd
        exact Or.inl ⟨havail, hadd.2.symm⟩
    · rw [h₄.avail i]
      simp [h₃.avail]
    · rw [h₄.avail j]
      simp [Function.update_of_ne hj, h₃.avail]

/-- A chunk of the pool is handed out, after a page has been added if none was counted. -/
theorem PoolCounts.take {k₁ : Kernel σ} (h : PoolCounts k served i)
    (hadd : (k.pools i).avail ≠ 0 ∧ k₁ = k ∨ (k.pools i).avail = 0 ∧ PageCounted i k k₁)
    (hself : (k'.pools i).avail = (k₁.pools i).avail - 1) (hadded : k'.added = k₁.added)
    (hserved : served' i = served i + 1) : PoolCounts k' served' i := by
  obtain ⟨htotal, hpos, hbelow⟩ := h
  obtain ⟨-, hchunks, -⟩ := numChunks_bounds i
  have hpages : k'.pagesOf i = k₁.pagesOf i := by rw [Kernel.pagesOf, Kernel.pagesOf, hadded]
  rcases hadd with ⟨hne, rfl⟩ | ⟨hzero, hpage⟩
  · have hle : (k₁.pools i).avail.toNat ≤ (numChunks i).toNat := by
      rcases hbelow with hlt | ⟨heq, -⟩
      · exact Nat.le_of_lt hlt
      · rw [heq]
    have hsub : (k'.pools i).avail.toNat + 1 = (k₁.pools i).avail.toNat := by
      rw [hself]
      bv_omega
    refine ⟨?_, by rw [hpages]; exact hpos, Or.inl (by omega)⟩
    rw [hserved, hpages]
    omega
  · have hsub : (k'.pools i).avail.toNat + 1 = (numChunks i).toNat := by
      rw [hself, hpage.self, hzero]
      bv_omega
    have hz : (0 : Word).toNat = 0 := rfl
    rw [hzero, hz, Nat.zero_add] at htotal
    refine ⟨?_, by rw [hpages, hpage.pages, if_pos rfl]; exact Nat.succ_pos _, Or.inl (by omega)⟩
    rw [hserved, hpages, hpage.pages, if_pos rfl, Nat.mul_add, ← htotal]
    omega

theorem ServeStep.counts {x y : Kernel σ × (Fin 7 → Nat)} (hstep : ServeStep arr x y)
    (h : ∀ i, PoolCounts x.1 x.2 i) (j : Fin 7) : PoolCounts y.1 y.2 j := by
  cases hstep with
  | @kmalloc k k' served ptr M size hrun =>
    rcases kmalloc_counts hrun with ⟨hnone, hsame⟩ | ⟨i, k₁, hsome, hadd, hself, hother, hadded⟩
    · exact (h j).congr (hsame.avail j) (hsame.pagesOf j) (by simp only [servedAfter, hnone])
    · by_cases hj : j = i
      · subst hj
        refine (h j).take hadd hself hadded ?_
        simp only [servedAfter, hsome, Function.update_self]
      · have havail := hother j hj
        have hserved : servedAfter served size j = served j := by
          simp only [servedAfter, hsome, Function.update_of_ne hj]
        have hpages : k'.pagesOf j = k₁.pagesOf j := by
          rw [Kernel.pagesOf, Kernel.pagesOf, hadded]
        rcases hadd with ⟨-, rfl⟩ | ⟨-, hpage⟩
        · exact (h j).congr havail hpages hserved
        · rw [hpage.others j hj] at havail
          rw [hpage.pages, if_neg hj, Nat.add_zero] at hpages
          exact (h j).congr havail hpages hserved
  | kfree M ptr hrun =>
    have hsame := SameCounts.of_ok (sameCounts_kfree ptr) hrun
    exact (h j).congr (hsame.avail j) (hsame.pagesOf j) rfl
  | other s => exact (h j).congr rfl rfl rfl

/-- The loop of `kmalloc_init` gives each of its pools one page, all of whose chunks count. -/
theorem initLoop_counts {is : List (Fin 7)} (hnd : is.Nodup) (h : initLoop M is k = .ok u k')
    (i : Fin 7) :
    (k'.pools i).avail = (if i ∈ is then numChunks i else (k.pools i).avail) ∧
      k'.pagesOf i = k.pagesOf i + if i ∈ is then 1 else 0 := by
  induction is generalizing k with
  | nil =>
    obtain ⟨-, rfl⟩ : u = () ∧ k = k' := by simpa [SkipOS.initLoop] using h
    simp
  | cons j is ih =>
    obtain ⟨hj, hnd⟩ := List.nodup_cons.mp hnd
    rw [initLoop, setPool, bind_modify] at h
    obtain ⟨_, k₁, hadd, hrest⟩ := bind_eq_ok.mp h
    have hpage := addPage_counts hadd
    obtain ⟨havail, hpages⟩ := ih hnd hrest
    rw [hpage.pages] at hpages
    by_cases hi : i = j
    · subst hi
      rw [if_neg hj, hpage.self] at havail
      rw [if_neg hj, if_pos rfl] at hpages
      rw [if_pos List.mem_cons_self, if_pos List.mem_cons_self, havail, hpages]
      simp [Kernel.pagesOf]
    · rw [hpage.others i hi] at havail
      rw [if_neg hi] at hpages
      rw [havail, hpages]
      simp [hi, Kernel.pagesOf]

theorem ServeRun.counts (hadded : k0.added = []) (hinit : kmallocInit M k0 = .ok () k)
    (hrun : ServeRun σ arr (k, fun _ => 0) (k', served)) (i : Fin 7) : PoolCounts k' served i := by
  have hstart : ∀ i, PoolCounts k (fun _ => 0) i := by
    intro i
    obtain ⟨havail, hpages⟩ := initLoop_counts (List.nodup_finRange 7) hinit i
    rw [if_pos (List.mem_finRange i)] at havail hpages
    have hnone : k0.pagesOf i = 0 := by
      rw [Kernel.pagesOf, hadded]
      rfl
    rw [hnone] at hpages
    rw [Nat.zero_add] at hpages
    refine ⟨?_, by omega, Or.inr ⟨havail, rfl⟩⟩
    rw [havail, hpages, Nat.mul_one, Nat.add_zero]
  have hall : ∀ x : Kernel σ × (Fin 7 → Nat), ServeRun σ arr (k, fun _ => 0) x →
      ∀ i, PoolCounts x.1 x.2 i := by
    intro x hrun
    induction hrun with
    | refl => exact hstart
    | tail _ hstep ih => exact hstep.counts ih
  exact hall _ hrun i

theorem PoolCounts.pagesOf_eq (h : PoolCounts k served i) :
    k.pagesOf i = max 1 (served i ⌈/⌉ (numChunks i).toNat) := by
  obtain ⟨htotal, hpos, hbelow⟩ := h
  obtain ⟨-, hchunks, -⟩ := numChunks_bounds i
  set n := (numChunks i).toNat
  rw [Nat.ceilDiv_eq_add_pred_div]
  rcases hbelow with hlt | ⟨heq, hzero⟩
  · have hdiv : (served i + n - 1) / n = k.pagesOf i := by
      refine (Nat.div_eq_iff (by omega)).mpr ?_
      rw [Nat.mul_comm]
      omega
    rw [hdiv]
    omega
  · rw [hzero, heq] at htotal
    have hone : k.pagesOf i = 1 := by
      refine Nat.eq_of_mul_eq_mul_left (show 0 < n by omega) ?_
      rw [← htotal]
      simp [n]
    rw [hone, hzero, Nat.div_eq_of_lt (by omega)]
    rfl

/-- Whatever is given back in between, a pool takes one page at first and from then on one for
every `numChunks` calls that it serves: `kfree` never saves a page. -/
theorem heap_pages_exact (hadded : k0.added = []) (hinit : kmallocInit M k0 = .ok () k)
    (hrun : ServeRun σ arr (k, fun _ => 0) (k', served)) (i : Fin 7) :
    k'.pagesOf i = max 1 (served i ⌈/⌉ (numChunks i).toNat) :=
  (ServeRun.counts hadded hinit hrun i).pagesOf_eq

end

/-! Two blocks of the largest chunks, the first of them given back, and a third one. -/

@[irreducible] def firstTaken : Kernel Flat :=
  final (kmalloc (flatMmu pagesUpwards) samplePools 1500 readyKernel)

@[irreducible] def bothTaken : Kernel Flat :=
  final (kmalloc (flatMmu pagesUpwards) samplePools 1500 firstTaken)

@[irreducible] def firstFreed : Kernel Flat :=
  final (kfree (flatMmu pagesUpwards) samplePools 0x10000006010 bothTaken)

@[irreducible] def thirdTaken : Kernel Flat :=
  final (kmalloc (flatMmu pagesUpwards) samplePools 1500 firstFreed)

theorem thirdTaken_run : ServeRun Flat samplePools (readyKernel, fun _ => 0)
    (thirdTaken, servedAfter (servedAfter (servedAfter (fun _ => 0) 1500) 1500) 1500) := by
  have hfirst : kmalloc (flatMmu pagesUpwards) samplePools 1500 readyKernel =
      .ok 0x10000006010 firstTaken := by
    delta firstTaken
    exact eq_ok_of_returned (by decide +kernel)
  have hboth : kmalloc (flatMmu pagesUpwards) samplePools 1500 firstTaken =
      .ok 0x10000006810 bothTaken := by
    delta bothTaken
    exact eq_ok_of_returned (by decide +kernel)
  have hfree : kfree (flatMmu pagesUpwards) samplePools 0x10000006010 bothTaken =
      .ok () firstFreed := by
    delta firstFreed
    exact eq_ok_of_returned (by decide +kernel)
  have hthird : kmalloc (flatMmu pagesUpwards) samplePools 1500 firstFreed =
      .ok 0x10000007010 thirdTaken := by
    delta thirdTaken
    exact eq_ok_of_returned (by decide +kernel)
  exact (((Relation.ReflTransGen.single (.kmalloc _ _ hfirst)).tail (.kmalloc _ _ hboth)).tail
    (.kfree _ _ hfree)).tail (.kmalloc _ _ hthird)

/-- The chunk given back does not save the second page. -/
theorem heap_pages_taken : thirdTaken.pagesOf 6 = 2 := by
  have hadded : zeroKernel.added = [] := rfl
  exact (heap_pages_exact hadded readyKernel_returned thirdTaken_run 6).trans (by decide)

end SkipOS
