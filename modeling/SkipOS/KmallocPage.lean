import SkipOS.KmallocInv

/-! Pages that are handed out fresh, and `add_page`, which cuts one into linked chunks. -/

namespace SkipOS

open Mem Exec

/-- The state after `num` pages have been handed out. -/
def Kernel.withRange (s : Kernel Flat) (p : Placement) (num : Word) : Kernel Flat :=
  { s with mmu :=
    { mem := fun a => if a ∈ (rangeRegion (p.base, num)).bytes then p.contents a else s.mmu.mem a
      ranges := (p.base, num) :: s.mmu.ranges } }

def Kernel.withMem (s : Kernel Flat) (m : Mem) : Kernel Flat :=
  { s with mmu := { s.mmu with mem := m } }

def Kernel.withPool (s : Kernel Flat) (i : Fin 7) (p : KmallocPool) : Kernel Flat :=
  { s with pools := Function.update s.pools i p }

/-- Memory after the loop of `add_page`. -/
def linksMem (size : Word) : Nat → Word → Mem → Mem
  | 0, _, m => m
  | n + 1, c, m => linksMem size n (c + size) (m.store64 c (c + size))

def lastChunk (size : Word) : Nat → Word → Word
  | 0, c => c
  | n + 1, c => lastChunk size n (c + size)

/-- Memory after `add_page`, with the old head linked behind the last chunk. -/
def pageMem (size : Word) (n : Nat) (c old : Word) (m : Mem) : Mem :=
  (linksMem size n c m).store64 (lastChunk size n c) old

variable {arr : PoolArr} {s s' : Kernel Flat} {out : List Alloc} {freed : Fin 7 → Nat}
  {free : FreeLists} {a : Alloc} {i : Fin 7} {c v num size : Word} {l : List Word} {r t : Region}
  {m m' : Mem} {n : Nat} {p : Placement} {place : Flat → Word → Placement}

/-! Single operations. -/

@[simp] theorem load_apply (place : Flat → Word → Placement) (a : Word) (s : Kernel Flat) :
    onMmu ((flatMmu place).load64 a) s = .ok (s.mmu.mem.load64 a) s := rfl

@[simp] theorem store_apply (place : Flat → Word → Placement) (a v : Word) (s : Kernel Flat) :
    onMmu ((flatMmu place).store64 a v) s = .ok ⟨⟩ (s.withMem (s.mmu.mem.store64 a v)) := rfl

@[simp] theorem setPool_apply (i : Fin 7) (f : KmallocPool → KmallocPool) (s : Kernel Flat) :
    setPool i f s = .ok ⟨⟩ (s.withPool i (f (s.pools i))) := rfl

theorem allocPages_eq_ok (h : onMmu ((flatMmu place).allocPages num) s = .ok v s') :
    ∃ p : Placement, v = p.base ∧ s.mmu.Fresh p.base num ∧ s' = s.withRange p num := by
  obtain ⟨f, hf, rfl⟩ := zoom_eq_ok.mp h
  simp only [flatMmu, bind_get] at hf
  obtain ⟨_, f1, hassert, hrest⟩ := bind_eq_ok.mp hf
  obtain ⟨hfresh, rfl⟩ := assert_eq_ok.mp hassert
  obtain ⟨_, f2, hset, hret⟩ := bind_eq_ok.mp hrest
  rw [set_apply, EStateM.Result.ok.injEq] at hset
  rw [pure_apply, EStateM.Result.ok.injEq] at hret
  obtain ⟨rfl, rfl⟩ := hret
  obtain ⟨-, rfl⟩ := hset
  exact ⟨_, rfl, hfresh, rfl⟩

theorem freePages_of_mem (h : (v, num) ∈ s.mmu.ranges) :
    onMmu ((flatMmu place).freePages v num) s =
      .ok ⟨⟩ { s with mmu := { s.mmu with ranges := s.mmu.ranges.erase (v, num) } } := by
  refine zoom_of_ok ?_
  simp only [flatMmu, bind_get]
  rw [bind_assert_of h, set_apply]

theorem linkChunks_apply (place : Flat → Word → Placement) (size : Word) (n : Nat) (c : Word)
    (s : Kernel Flat) : linkChunks (flatMmu place) size n c s =
      .ok (lastChunk size n c) (s.withMem (linksMem size n c s.mmu.mem)) := by
  induction n generalizing c s with
  | zero => rfl
  | succ n ih =>
    rw [linkChunks, bind_of_ok (store_apply _ _ _ _), bind_of_ok (load_apply _ _ _)]
    have hload : (s.withMem (s.mmu.mem.store64 c (c + size))).mmu.mem.load64 c = c + size :=
      load64_store64_self _ _ _
    rw [hload, ih]
    rfl

theorem PoolArr.ptr_ne_zero (arr : PoolArr) (i : Fin 7) : arr.ptr i ≠ 0 := arr.ne_null i

theorem PoolArr.ptr_inj {i j : Fin 7} (h : arr.ptr i = arr.ptr j) : i = j := by
  have hoff : ∀ i j : Fin 7, sizeofPool * BitVec.ofNat 64 i = sizeofPool * BitVec.ofNat 64 j → i = j := by
    decide
  exact hoff i j ((BitVec.add_right_inj _).mp h)

theorem PoolArr.poolAt_ptr {σ : Type} (arr : PoolArr) (i : Fin 7) (s : Kernel σ) :
    arr.poolAt (arr.ptr i) s = .ok i s := by
  have hfind : (List.finRange 7).find? (fun j => arr.ptr j = arr.ptr i) = some i := by
    cases hf : (List.finRange 7).find? (fun j => arr.ptr j = arr.ptr i) with
    | none => simpa using List.find?_eq_none.mp hf i (List.mem_finRange i)
    | some j =>
      have hj := List.find?_some hf
      rw [PoolArr.ptr_inj (of_decide_eq_true hj)]
  rw [PoolArr.poolAt, hfind]
  rfl

/-! The chain that `add_page` builds. -/

theorem pageMem_succ (size : Word) (n : Nat) (c old : Word) (m : Mem) :
    pageMem size (n + 1) c old m = pageMem size n (c + size) old (m.store64 c (c + size)) := rfl

theorem toNat_next (hsize : 8 ≤ size.toNat) (hfits : c.toNat + size.toNat * (n + 2) ≤ 2 ^ 64) :
    (c + size).toNat = c.toNat + size.toNat ∧
      (c + size).toNat + size.toNat * (n + 1) ≤ 2 ^ 64 := by
  have hn : size.toNat * (n + 2) = size.toNat + size.toNat * (n + 1) := by
    rw [Nat.mul_succ, Nat.add_comm]
  have hpos : 0 < size.toNat * (n + 1) := Nat.mul_pos (by omega) (by omega)
  have hnext : (c + size).toNat = c.toNat + size.toNat := by bv_omega
  exact ⟨hnext, by omega⟩

theorem pageMem_eqOn (hsize : 8 ≤ size.toNat) (old : Word)
    (hfits : c.toNat + size.toNat * (n + 1) ≤ 2 ^ 64) :
    Set.EqOn (pageMem size n c old m) m (span c (size.toNat * (n + 1)))ᶜ := by
  have hfirst : ∀ k, span c 8 ⊆ span c (size.toNat * (k + 1)) := fun k =>
    span_mono (le_trans hsize (Nat.le_mul_of_pos_right _ (by omega)))
  induction n generalizing c m with
  | zero =>
    exact (store64_eqOn_compl m c old).mono (Set.compl_subset_compl.mpr (hfirst 0))
  | succ n ih =>
    obtain ⟨hnext, hfits'⟩ := toNat_next hsize hfits
    have hrest : span (c + size) (size.toNat * (n + 1)) ⊆ span c (size.toNat * (n + 1 + 1)) :=
      span_offset_subset (by rw [Nat.mul_succ size.toNat (n + 1)]; omega)
    have hlater : Set.EqOn (pageMem size n (c + size) old (m.store64 c (c + size)))
        (m.store64 c (c + size)) (span (c + size) (size.toNat * (n + 1)))ᶜ := by
      refine ih hfits' fun k => ?_
      exact span_mono (le_trans hsize (Nat.le_mul_of_pos_right _ (by omega)))
    rw [pageMem_succ]
    intro b hb
    rw [hlater fun hm => hb (hrest hm), store64_eqOn_compl _ _ _ fun hm => hb (hfirst (n + 1) hm)]

theorem pageMem_linked {old : Word} (hsize : 8 ≤ size.toNat) (hc : c ≠ 0)
    (hfits : c.toNat + size.toNat * (n + 1) ≤ 2 ^ 64) (hold : LinkedList m.load64 0 old l)
    (hl : ∀ d ∈ l, Disjoint (span d 8) (span c (size.toNat * (n + 1)))) :
    LinkedList (pageMem size n c old m).load64 0 c (strides c size (n + 1) ++ l) := by
  have hkeep : ∀ {c : Word} {m m' : Mem} {k : Nat}, LinkedList m.load64 0 old l →
      (∀ d ∈ l, Disjoint (span d 8) (span c k)) → Set.EqOn m' m (span c k)ᶜ →
      LinkedList m'.load64 0 old l := fun hold hl hm =>
    hold.congr fun d hd => load64_congr (hm.mono (Set.subset_compl_iff_disjoint_right.mpr (hl d hd)))
  induction n generalizing c m with
  | zero =>
    refine ⟨rfl, hc, ?_⟩
    have hself : (pageMem size 0 c old m).load64 c = old := load64_store64_self _ _ _
    rw [hself]
    exact hkeep hold hl (pageMem_eqOn hsize old hfits)
  | succ n ih =>
    obtain ⟨hnext, hfits'⟩ := toNat_next hsize hfits
    have hrest : span (c + size) (size.toNat * (n + 1)) ⊆ span c (size.toNat * (n + 1 + 1)) :=
      span_offset_subset (by rw [Nat.mul_succ size.toNat (n + 1)]; omega)
    have hfirst : span c 8 ⊆ span c (size.toNat * (n + 1 + 1)) :=
      span_mono (le_trans hsize (Nat.le_mul_of_pos_right _ (by omega)))
    have hold' : LinkedList (m.store64 c (c + size)).load64 0 old l :=
      hkeep hold (fun d hd => (hl d hd).mono_right hfirst) (store64_eqOn_compl _ _ _)
    have hne : c + size ≠ 0 := by
      intro he
      rw [he] at hnext
      have hz : (0 : Word).toNat = 0 := rfl
      omega
    have htail := ih hne hfits' hold' fun d hd => (hl d hd).mono_right hrest
    have hlink : (pageMem size (n + 1) c old m).load64 c = c + size := by
      rw [pageMem_succ, load64_congr ((pageMem_eqOn hsize old hfits').mono
        (Set.subset_compl_iff_disjoint_right.mpr (span_disjoint (by omega) hfits'))),
        load64_store64_self]
    refine ⟨rfl, hc, ?_⟩
    rw [hlink]
    exact htail

/-! Pages for the heap. -/

theorem withRange_eqOn (s : Kernel Flat) (p : Placement) (num : Word) :
    Set.EqOn (s.withRange p num).mmu.mem s.mmu.mem (rangeRegion (p.base, num)).bytesᶜ := by
  intro b hb
  exact if_neg hb

theorem HeapInv.withRange (h : HeapInv arr s out freed free) (hfresh : s.mmu.Fresh p.base num) :
    HeapInv arr (s.withRange p num) out freed free ∧
      Hole (s.withRange p num) out free (rangeRegion (p.base, num)) := by
  obtain ⟨-, -, hfits, hothers⟩ := hfresh
  have hapart : ∀ b ∈ blocks out free, (rangeRegion (p.base, num)).Apart b := by
    intro b hb
    obtain ⟨x, hx, -, hw⟩ := h.housed b hb
    exact (hw.apart (hothers x hx)).symm
  have hmono : s.mmu.ranges ⊆ (s.withRange p num).mmu.ranges := List.subset_cons_self _ _
  have hkept : ∀ b ∈ blocks out free, Set.EqOn (s.withRange p num).mmu.mem s.mmu.mem b.bytes := by
    intro b hb
    refine (withRange_eqOn s p num).mono (Set.subset_compl_iff_disjoint_left.mpr ?_)
    exact (hapart b hb).disjoint hfits (h.housed b hb).fits
  refine ⟨⟨fun i => ?_, h.count, h.apart, fun r hr => (h.housed r hr).mono hmono, h.free_on_page,
    h.out_on_page, fun a ha ho => ?_, h.added_ok, fun a ha => ?_⟩,
    ⟨(p.base, num), List.mem_cons_self, hfits, Region.Within.refl _⟩, hapart⟩
  · exact linked_of_eqOn (h.linked i) fun c hc => hkept _ (chunk_mem hc)
  · obtain ⟨hmem, hne⟩ := h.large a ha ho
    exact ⟨hmono hmem, hne⟩
  · exact (h.header a ha).of_eqOn (hkept _ (block_mem ha))

theorem Hole.within (h : Hole s out free r) (hw : t.Within r) : Hole s out free t := by
  obtain ⟨x, hx, hfits, hr⟩ := h.housed
  refine ⟨⟨x, hx, hfits, hr.1.trans hw.1, hw.2.trans hr.2⟩, fun b hb => hw.apart (h.apart b hb)⟩

/-- The state after a page has been added to pool `i`. -/
def pageAdded (s : Kernel Flat) (i : Fin 7) (p : Placement) : Kernel Flat :=
  { pools := Function.update s.pools i ⟨(s.pools i).avail + numChunks i, p.base⟩
    mmu :=
      { mem := pageMem (maxSize i) (numChunks i - 1).toNat p.base (s.pools i).head
          (s.withRange p 1).mmu.mem
        ranges := (p.base, 1) :: s.mmu.ranges }
    added := (i, p.base) :: s.added }

theorem addPage_eq_ok {u : Unit} (h : addPage (flatMmu place) i s = .ok u s') :
    ∃ p : Placement, s.mmu.Fresh p.base 1 ∧ s' = pageAdded s i p := by
  obtain ⟨v, s1, halloc, hrest⟩ := bind_eq_ok.mp h
  obtain ⟨p, rfl, hfresh, rfl⟩ := allocPages_eq_ok halloc
  rw [bind_modify, bind_get] at hrest
  dsimp only at hrest
  rw [bind_of_ok (setPool_apply _ _ _), bind_of_ok (linkChunks_apply _ _ _ _ _),
    bind_of_ok (store_apply _ _ _ _), setPool_apply, EStateM.Result.ok.injEq] at hrest
  obtain ⟨-, rfl⟩ := hrest
  refine ⟨p, hfresh, ?_⟩
  simp [pageAdded, Kernel.withPool, Kernel.withMem, Kernel.withRange, pageMem]

theorem numChunks_bounds (i : Fin 7) : (numChunks i - 1).toNat + 1 = (numChunks i).toNat ∧
    2 ≤ (numChunks i).toNat ∧ 8 ≤ (maxSize i).toNat := by
  revert i
  decide

theorem HeapInv.addPage (h : HeapInv arr s out freed free) (havail : (s.pools i).avail = 0)
    (hfresh : s.mmu.Fresh p.base 1) :
    HeapInv arr (pageAdded s i p) out freed
      (Function.update free i (strides p.base (maxSize i) (numChunks i).toNat ++ free i)) := by
  obtain ⟨hinv, hhole⟩ := h.withRange hfresh
  obtain ⟨hne, hal, hfits, -⟩ := hfresh
  obtain ⟨hn, -, hsize⟩ := numChunks_bounds i
  have hpage : (maxSize i).toNat * (numChunks i).toNat = 4096 := (maxSize_bounds i).2.2
  have hregion : rangeRegion (p.base, 1) = ⟨p.base, (maxSize i).toNat * (numChunks i).toNat⟩ := by
    rw [hpage]
    rfl
  rw [hregion] at hhole hfits
  have hfits' : p.base.toNat + (maxSize i).toNat * (numChunks i).toNat ≤ 2 ^ 64 := hfits
  set m := pageMem (maxSize i) (numChunks i - 1).toNat p.base (s.pools i).head
    (s.withRange p 1).mmu.mem with hm
  have heq : Set.EqOn m (s.withRange p 1).mmu.mem
      (Region.mk p.base ((maxSize i).toNat * (numChunks i).toNat)).bytesᶜ := by
    have hpm := pageMem_eqOn (n := (numChunks i - 1).toNat) (m := (s.withRange p 1).mmu.mem) hsize
      (s.pools i).head (by rw [hn]; exact hfits')
    rwa [hn] at hpm
  have hlinked : LinkedList m.load64 0 p.base
      (strides p.base (maxSize i) (numChunks i).toNat ++ free i) := by
    have hpl := pageMem_linked (n := (numChunks i - 1).toNat) (l := free i) hsize hne
      (by rw [hn]; exact hfits') (hinv.linked i) fun d hd => by
        rw [hn]
        have hdis := (hhole.apart _ (chunk_mem hd)).symm.disjoint (hinv.housed _ (chunk_mem hd)).fits
          hfits
        exact hdis.mono_left (span_chunk_subset i d)
    rwa [hn] at hpl
  have hwritten := hinv.write_hole hhole heq
  have hrecorded : HeapInv arr
      { (s.withRange p 1) with
        mmu := { (s.withRange p 1).mmu with mem := m }
        added := (i, p.base) :: s.added } out freed free := by
    refine ⟨hwritten.linked, hwritten.count, hwritten.apart, hwritten.housed, fun j c hc => ?_,
      fun a ha j hj => ?_, hwritten.large, List.forall_mem_cons.mpr ⟨⟨hne, hal⟩, h.added_ok⟩,
      hwritten.header⟩
    · obtain ⟨page, k, hmem, hk⟩ := h.free_on_page j c hc
      exact ⟨page, k, List.mem_cons_of_mem _ hmem, hk⟩
    · obtain ⟨page, k, hmem, hk⟩ := h.out_on_page a ha j hj
      exact ⟨page, k, List.mem_cons_of_mem _ hmem, hk⟩
  have hput := hrecorded.put_chunks (i := i) (n := freed i)
    (p := ⟨(s.pools i).avail + numChunks i, p.base⟩) hlinked ?_ ?_ ?_ ?_
  · rw [Function.update_eq_self] at hput
    exact hput
  · have hcount := h.count i
    rw [havail] at hcount ⊢
    rw [List.length_append, length_strides]
    have hz : (0 : Word).toNat = 0 := rfl
    bv_omega
  · exact strides_apart (by omega) hfits'
  · intro c hc
    have hpiece := hhole.within (strides_within (by omega) hfits' hc)
    exact ⟨hpiece.housed, hpiece.apart⟩
  · intro c hc
    obtain ⟨k, hk, hck⟩ := (mem_strides (by omega) hfits').mp hc
    exact ⟨p.base, k, List.mem_cons_self, hk, hck⟩

end SkipOS
