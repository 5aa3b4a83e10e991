import SkipOS.VmAlloc

/-! `MMU_free_pages`: a present page gives its frame back, a reserved one only loses its
reservation, and the range freed is no longer live. -/

namespace SkipOS

open Mem Exec Walk

variable {managed : List Word} {limit t f va vp : Word} {s s' : Machine} {P : Pool} {m : Mem}
  {live : Set Word} {prev : Option Word}

theorem PagesInv.node_eq_none (h : PagesInv s live) (hva : IsPage va) (hm : va ∉ live) :
    s.node (pathOf va) = none := by
  rw [pathOf_eq]
  cases ht : s.node (tablePath va) with
  | none => exact (walk_snoc _ _).trans (by rw [← Machine.node, ht, Option.bind_none])
  | some t =>
    refine (walk_snoc_of_some ht).trans (child_eq_none_iff.mpr (not_present_of_flags ?_))
    have hfl := h.dead_flags va hva hm
    rw [leafFlags_of_node ht] at hfl
    have hz : flags (s.mem.load64 (entryPtr t (l1Index va))) = 0 := by simpa using hfl
    rw [hz]
    decide

theorem PagesInv.remove (h : PagesInv s live) (htop : s'.kernHeapTop = s.kernHeapTop)
    (hself : s'.leafFlags va = some 0) (hother : PagesKept {va} s s') :
    PagesInv s' (live \ {va}) := by
  refine ⟨?_, ?_, ?_, ?_, ?_, ?_⟩
  · rw [htop]
    exact h.top_aligned
  · rw [htop]
    exact h.base_le
  · rw [htop]
    exact h.top_le
  · rw [htop]
    exact fun vb hm => h.range vb hm.1
  · intro vb hm
    exact (hother vb (h.range vb hm.1).1 hm.2).live_flags (h.live_flags vb hm.1)
  · intro vb hp hm
    by_cases he : vb = va
    · exact Or.inr (he ▸ hself)
    · exact (hother vb hp he).dead_flags (h.dead_flags vb hp fun hl => hm ⟨hl, he⟩)

/-- What the loop leaves of an entry it takes the frame from. -/
def unlinked (entry : Word) : Word := entry &&& ~~~(presentMask ||| writeableMask)

/-- The state after a present page has been freed, the pool then being in `m`. -/
def freedPresent (s : Machine) (m : Mem) (f ptr vp : Word) : Machine :=
  { s with
    mem := m
    tlb := fun page => if page = vp - vp % pageSize then none else s.tlb page
    events := .pfFree f :: .setEntry ptr (unlinked (s.mem.load64 ptr)) :: s.events }

/-- The state after a reserved page has been freed. -/
def freedReserved (s : Machine) (ptr : Word) : Machine :=
  { s with
    mem := s.mem.store64 ptr (s.mem.load64 ptr &&& ~~~demandMask)
    events := .setEntry ptr (s.mem.load64 ptr &&& ~~~demandMask) :: s.events }

theorem VmInv.freePresent (h : VmInv managed limit s live P) (hva : IsPage va)
    (ht : s.node (tablePath va) = some t) (hf : child s.mem t (l1Index va) = some f)
    (hfl : flags (s.mem.load64 (entryPtr t (l1Index va))) = 3) (vp : Word) :
    ∃ m, mmuPfFree f (s.mem.store64 (entryPtr t (l1Index va))
        (unlinked (s.mem.load64 (entryPtr t (l1Index va))))) = .ok () m ∧
      VmInv managed limit (freedPresent s m f (entryPtr t (l1Index va)) vp) (live \ {va}) (P.push f) ∧
      Safely s (freedPresent s m f (entryPtr t (l1Index va)) vp) ∧
      PagesKept {va} s (freedPresent s m f (entryPtr t (l1Index va)) vp) := by
  set ptr := entryPtr t (l1Index va) with hptr
  set m1 := s.mem.store64 ptr (unlinked (s.mem.load64 ptr)) with hm1
  have hx : tablePath va ++ [l1Index va] ∈ Paths := hva.pathOf_mem
  have hnode : s.node (tablePath va ++ [l1Index va]) = some f := (walk_snoc_of_some ht).trans hf
  have hta := h.tables.node_aligned hva.tablePath_mem ht
  have ht0 := h.tables.node_ne_zero hva.tablePath_mem ht
  have hpool1 : PoolInv managed limit m1 (outstanding s.events) P := by
    refine h.tables.pool.of_eqOn ((store64_eqOn_compl _ _ _).mono (Set.compl_subset_compl.mpr ?_))
    exact (span_entryPtr_subset (l1Index_lt va)).trans
      (frame_subset_frames (h.tables.node_mem hva.tablePath_mem ht))
  obtain ⟨m, hrun, hpool, heq⟩ := hpool1.free (h.tables.node_mem hx hnode)
  have hl : ∀ c ∈ 0 :: f :: P.pages, Aligned c ∧ ∀ p ∈ Paths, p.length < 4 → s.node p ≠ some c := by
    intro c hc
    rcases List.mem_cons.mp hc with rfl | hc
    · exact h.tables.free_frames 0 List.mem_cons_self
    · rcases List.mem_cons.mp hc with rfl | hc
      · refine ⟨h.tables.node_aligned hx hnode, fun p hp hlen hn => ?_⟩
        have := h.tables.owns.unique p hp _ hx _ hn hnode
        rw [this] at hlen
        simp [tablePath] at hlen
      · exact h.tables.free_frames c (List.mem_cons_of_mem _ (List.mem_append_left _ hc))
  have hall : Set.EqOn m s.mem (frames (0 :: f :: P.pages) ∪ span ptr 8)ᶜ := by
    intro a ha
    rw [Set.mem_compl_iff, Set.mem_union, not_or] at ha
    exact (heq ha.1).trans (store64_eqOn_compl _ _ _ ha.2)
  have hk : EntriesKept s m {tablePath va ++ [l1Index va]} := h.tables.entriesKept hx ht hl hall
  have htl : t ∉ 0 :: f :: P.pages := fun hm =>
    (hl t hm).2 _ hva.tablePath_mem (by simp [tablePath]) ht
  have hload : m.load64 ptr = unlinked (s.mem.load64 ptr) := by
    have hsub : span ptr 8 ⊆ (frames (0 :: f :: P.pages))ᶜ :=
      (span_entryPtr_subset (l1Index_lt va)).trans
        (frame_subset_compl_frames hta (fun c hc => (hl c hc).1) htl)
    rw [load64_congr (heq.mono hsub), hm1, load64_store64_self]
  have hzero : flags (m.load64 ptr) = 0 := by
    rw [hload, unlinked, flags_and, hfl]
    decide
  have hnone : child m t (l1Index va) = none :=
    child_eq_none_iff.mpr (not_present_of_flags (by rw [hzero]; decide))
  have hpages : (P.push f).pages ≠ [] := by simp [Pool.push]
  obtain ⟨htab, -, hother⟩ := h.tables.unlink (freedPresent s m f ptr vp) hx
    (by simp [tablePath]) ht hf hpool hpages rfl rfl rfl hk hnone
  have hpath : tablePath va ≠ tablePath va ++ [l1Index va] := by
    intro he
    have := congrArg List.length he
    simp [tablePath] at this
  have hkept : PagesKept {va} s (freedPresent s m f ptr vp) := by
    refine PagesKept.of_leaf hk hva hother fun vb n hvb hne hn => ?_
    refine h.tables.contentsKept hva.tablePath_mem (by simp [tablePath]) ht (l1Index_lt va)
      (fun c hc => (hl c hc).1) hall hvb.pathOf_mem (by simp [pathOf]) hn fun hm => ?_
    have hnf : n ≠ f := by
      rintro rfl
      exact hne (pathOf_injOn hvb.1 hva.1 hvb.2.2 hva.2.2
        (h.tables.owns.unique _ hvb.pathOf_mem _ hx n hn hnode))
    refine h.tables.node_not_mem_free hvb.pathOf_mem hn ?_
    rcases List.mem_cons.mp hm with rfl | hm
    · exact List.mem_cons_self
    · exact List.mem_cons_of_mem _ (List.mem_append_left _ (List.mem_of_ne_of_mem hnf hm))
  refine ⟨m, hrun, ⟨htab, h.pages.remove rfl ?_ hkept⟩, ?_, hkept⟩
  · have hself := (hother _ hva.tablePath_mem hpath).trans ht
    rw [leafFlags_of_node hself]
    exact congrArg some hzero
  · refine ⟨[_, _], rfl, ?_⟩
    intro e he
    simp only [List.mem_cons, List.not_mem_nil, or_false] at he
    rcases he with rfl | rfl
    · exact ⟨trivial, by simp⟩
    · refine ⟨safe_setEntry hta ht0 (l1Index_lt va) ?_, by simp⟩
      rw [← hload, not_present_of_flags (by rw [hzero]; decide)]
      simp

theorem VmInv.freeReserved (h : VmInv managed limit s live P) (hva : IsPage va)
    (ht : s.node (tablePath va) = some t)
    (hfl : flags (s.mem.load64 (entryPtr t (l1Index va))) = 0x200) :
    VmInv managed limit (freedReserved s (entryPtr t (l1Index va))) (live \ {va}) P ∧
      Safely s (freedReserved s (entryPtr t (l1Index va))) ∧
      PagesKept {va} s (freedReserved s (entryPtr t (l1Index va))) := by
  have hzero : flags (s.mem.load64 (entryPtr t (l1Index va)) &&& ~~~demandMask) = 0 := by
    rw [flags_and, hfl]
    decide
  have hnp : isNextPagePresent (s.mem.load64 (entryPtr t (l1Index va)) &&& ~~~demandMask) = false :=
    not_present_of_flags (by rw [hzero]; decide)
  have hold : child s.mem t (l1Index va) = none :=
    child_eq_none_iff.mpr (not_present_of_flags (by rw [hfl]; decide))
  obtain ⟨htab, -, hself, hother⟩ := h.tables.setLeaf
    (freedReserved s (entryPtr t (l1Index va))) hva ht hold hnp rfl rfl rfl rfl
  refine ⟨⟨htab, h.pages.remove rfl (by rw [hself, hzero]) hother⟩, ?_, hother⟩
  refine ⟨[_], rfl, ?_⟩
  intro e he
  obtain rfl := List.mem_singleton.mp he
  refine ⟨safe_setEntry (h.tables.node_aligned hva.tablePath_mem ht)
    (h.tables.node_ne_zero hva.tablePath_mem ht) (l1Index_lt va) ?_, by simp⟩
  rw [hnp]
  simp

theorem range_toNat {n : Nat} (hal : ∀ k < n, IsPage (va + BitVec.ofNat 64 (4096 * k))) {k : Nat}
    (hk : k < n) : (va + BitVec.ofNat 64 (4096 * k)).toNat = va.toNat + 4096 * k := by
  induction k with
  | zero => simp
  | succ k ih =>
    have hprev := ih (by omega)
    have hlt := (hal k (by omega)).2.2
    have he : va + BitVec.ofNat 64 (4096 * (k + 1)) =
        va + BitVec.ofNat 64 (4096 * k) + BitVec.ofNat 64 4096 := by bv_omega
    rw [he, BitVec.toNat_add, hprev, BitVec.toNat_ofNat]
    omega

/-- Some page of the range has a frame. -/
def AnyPresent (s : Machine) (va : Word) (n : Nat) : Prop :=
  ∃ k < n, s.leafFlags (va + BitVec.ofNat 64 (4096 * k)) = some 3

theorem anyPresent_succ {n : Nat} : AnyPresent s va (n + 1) ↔
    s.leafFlags va = some 3 ∨ AnyPresent s (va + pageSize) n := by
  constructor
  · rintro ⟨k, hk, hfl⟩
    cases k with
    | zero => exact Or.inl (by simpa using hfl)
    | succ k => exact Or.inr ⟨k, by omega, add_page_succ va k ▸ hfl⟩
  · rintro (hfl | ⟨k, hk, hfl⟩)
    · exact ⟨0, by omega, by simpa using hfl⟩
    · exact ⟨k + 1, by omega, (add_page_succ va k).symm ▸ hfl⟩

/-- The frames of `n` pages from `va` on, of those that have one. -/
def Machine.framesOf (s : Machine) : Nat → Word → List Word
  | 0, _ => []
  | n + 1, va => (s.node (pathOf va)).toList ++ s.framesOf n (va + pageSize)

/-- The frames given back, newest first. -/
def freedFrames (es : List VmEvent) : List Word :=
  es.filterMap fun e => match e with
    | .pfFree p => some p
    | _ => none

def Pool.append (l : List Word) (P : Pool) : Pool := { P with pages := P.pages ++ l }

theorem Pool.append_append (l l' : List Word) (P : Pool) :
    (P.append l).append l' = P.append (l ++ l') := by
  simp only [Pool.append, List.append_assoc]

/-- What freeing the pages of `range` leaves behind: `frames` are back in the pool, and
`invlpg` was given the first page each time. -/
structure Freed (managed : List Word) (limit vp : Word) (live : Set Word) (P : Pool) (present : Prop)
    (frames : List Word) (range : Set Word) (s s' : Machine) : Prop where
  inv : VmInv managed limit s' live (P.append frames)
  safely : Safely s s'
  top : s'.kernHeapTop = s.kernHeapTop
  dropped : present → s'.tlb (vp - vp % pageSize) = none
  kept : ∀ page, page ≠ vp - vp % pageSize ∨ ¬ present → s'.tlb page = s.tlb page
  pages : PagesKept range s s'
  frees : ∃ es, s'.events = es ++ s.events ∧ freedFrames es = frames.reverse

theorem freePagesLoop_reserved {n : Nat} {ptr : Word} {prev' : Option Word}
    (hget : getLowestPresentPage s.pageTable va prev s = .ok (ptr, .l1, prev') s)
    (hfl : flags (s.mem.load64 ptr) = 0x200) :
    freePagesLoop vp (n + 1) va prev s =
      freePagesLoop vp n (va + pageSize) prev' (freedReserved s ptr) := by
  have hd : s.mem.load64 ptr &&& demandMask ≠ 0 := by
    rw [demand_eq_flags, hfl]
    decide
  have hpw : s.mem.load64 ptr &&& (presentMask ||| writeableMask) = 0 := by
    rw [present_writeable_eq_flags, hfl]
    decide
  rw [freePagesLoop, bind_get, bind_of_ok hget]
  dsimp only
  rw [bind_assert_of (Or.inr rfl), if_neg (by decide), bind_get, bind_assert_of hd,
    bind_assert_of hpw, bind_of_ok (updateEntry_apply _ _ _)]
  rfl

theorem freePagesLoop_present {n : Nat} {ptr : Word}
    (hget : getLowestPresentPage s.pageTable va prev s = .ok (f, .physical, some ptr) s)
    (hfree : mmuPfFree f (s.mem.store64 ptr (unlinked (s.mem.load64 ptr))) = .ok () m) :
    freePagesLoop vp (n + 1) va prev s =
      freePagesLoop vp n (va + pageSize) (some ptr) (freedPresent s m f ptr vp) := by
  rw [freePagesLoop, bind_get, bind_of_ok hget]
  dsimp only
  rw [bind_assert_of (Or.inl rfl), if_pos rfl, deref]
  have hstore : updateEntry ptr (· &&& ~~~(presentMask ||| writeableMask)) s = .ok ⟨⟩
      { s with mem := s.mem.store64 ptr (unlinked (s.mem.load64 ptr))
               events := .setEntry ptr (unlinked (s.mem.load64 ptr)) :: s.events } := rfl
  rw [pure_bind, bind_of_ok hstore, bind_of_ok (pfFree_of_ok hfree)]
  rfl

theorem freePagesLoop_live (vp : Word) (h : VmInv managed limit s live P) (hmem : va ∈ live)
    (n : Nat) (prev : Option Word) :
    ∃ s' prev', freePagesLoop vp (n + 1) va prev s = freePagesLoop vp n (va + pageSize) prev' s' ∧
      Freed managed limit vp (live \ {va}) P (s.leafFlags va = some 3)
        (s.node (pathOf va)).toList {va} s s' := by
  have hva : IsPage va := (h.pages.range va hmem).1
  rcases h.pages.live_flags va hmem with hfl | hfl
  · obtain ⟨t, ht, hfl'⟩ := leafFlags_eq_some hfl
    have hold : child s.mem t (l1Index va) = none :=
      child_eq_none_iff.mpr (not_present_of_flags (by rw [hfl']; decide))
    have hget : ∃ prev', getLowestPresentPage s.pageTable va prev s =
        .ok (entryPtr t (l1Index va), .l1, prev') s :=
      getLowestPresentPage_of_missing hva.umod_eq_zero hva.l4Index_ne_zero (pathOf_eq va) ht hold
    obtain ⟨prev', hget⟩ := hget
    obtain ⟨hinv, hsafe, hkept⟩ := h.freeReserved hva ht hfl'
    have hnode : s.node (pathOf va) = none := (walk_snoc_of_some ht).trans hold
    rw [hnode]
    refine ⟨_, prev', freePagesLoop_reserved hget hfl', ?_, hsafe, rfl, ?_, ?_, hkept, [_], rfl, rfl⟩
    · simpa [Pool.append] using hinv
    · rw [hfl]
      simp
    · intro page _
      rfl
  · obtain ⟨t, f, ht, hf, hfl'⟩ := leafFlags_present hfl
    obtain ⟨m, hfree, hinv, hsafe, hkept⟩ := h.freePresent hva ht hf hfl' vp
    have hnode : s.node (pathOf va) = some f := (walk_snoc_of_some ht).trans hf
    rw [hnode]
    have hget : getLowestPresentPage s.pageTable va prev s =
        .ok (f, .physical, some (entryPtr t (l1Index va))) s :=
      getLowestPresentPage_of_mapped hva.umod_eq_zero hva.l4Index_ne_zero ht hf
    refine ⟨_, _, freePagesLoop_present hget hfree, hinv, hsafe, rfl, ?_, ?_, hkept, [_, _], rfl, rfl⟩
    · intro _
      exact if_pos rfl
    · intro page hpage
      exact if_neg (hpage.resolve_right fun hh => hh hfl)

theorem freePagesLoop_dead (h : VmInv managed limit s live P) (hva : IsPage va) (hmem : va ∉ live)
    (n : Nat) (prev : Option Word) :
    freePagesLoop vp (n + 1) va prev s = .error .assert s := by
  have hfl := h.pages.dead_flags va hva hmem
  have hstuck : ∀ q i rest t, pathOf va = q ++ i :: rest → s.node q = some t →
      child s.mem t i = none → freePagesLoop vp (n + 1) va prev s = .error .assert s := by
    intro q i rest t hp hq hi
    have hget : ∃ prev', getLowestPresentPage s.pageTable va prev s =
        .ok (entryPtr t i, levelOf (rest.length + 1), prev') s :=
      getLowestPresentPage_of_missing hva.umod_eq_zero hva.l4Index_ne_zero hp hq hi
    obtain ⟨prev', hget⟩ := hget
    rw [freePagesLoop, bind_get, bind_of_ok hget]
    dsimp only
    by_cases hl1 : levelOf (rest.length + 1) = .l1
    · obtain rfl := eq_nil_of_levelOf hl1
      rw [pathOf_eq] at hp
      obtain ⟨rfl, hi'⟩ := List.append_inj' hp rfl
      obtain rfl : l1Index va = i := by simpa using hi'
      have hzero : flags (s.mem.load64 (entryPtr t (l1Index va))) = 0 := by
        rw [leafFlags_of_node hq] at hfl
        simpa using hfl
      have hd : s.mem.load64 (entryPtr t (l1Index va)) &&& demandMask = 0 := by
        rw [demand_eq_flags, hzero]
        decide
      rw [hl1, bind_assert_of (Or.inr rfl), if_neg (by decide), bind_get]
      exact bind_assert_not (not_not.mpr hd) _ _
    · have hphys : levelOf (rest.length + 1) ≠ .physical := by
        rcases rest with _ | ⟨i1, _ | ⟨i2, _ | ⟨i3, rest⟩⟩⟩ <;> simp [levelOf]
      rw [bind_assert_not]
      simp [hl1, hphys]
  rcases walk_cases (child s.mem) s.pageTable.l4Table (pathOf va) with
    ⟨f, hf⟩ | ⟨q, i, rest, t, hp, hq, hi⟩
  · rw [pathOf_eq] at hf
    obtain ⟨t, ht⟩ := walk_prefix_isSome hf
    have hc : child s.mem t (l1Index va) = some f := (walk_snoc_of_some ht).symm.trans hf
    have hnone : child s.mem t (l1Index va) = none := by
      rw [leafFlags_of_node ht] at hfl
      have hzero : flags (s.mem.load64 (entryPtr t (l1Index va))) = 0 := by simpa using hfl
      exact child_eq_none_iff.mpr (not_present_of_flags (by rw [hzero]; decide))
    rw [hnone] at hc
    simp at hc
  · exact hstuck q i rest t hp hq hi

theorem Machine.framesOf_congr {n : Nat}
    (h : ∀ k < n, s'.node (pathOf (va + BitVec.ofNat 64 (4096 * k))) =
      s.node (pathOf (va + BitVec.ofNat 64 (4096 * k)))) :
    s'.framesOf n va = s.framesOf n va := by
  induction n generalizing va with
  | zero => rfl
  | succ n ih =>
    have hfirst := h 0 (by omega)
    simp only [Nat.mul_zero, BitVec.add_zero] at hfirst
    rw [framesOf, framesOf, hfirst, ih fun k hk => ?_]
    rw [← add_page_succ]
    exact h (k + 1) (by omega)

theorem freedFrames_append (es es' : List VmEvent) :
    freedFrames (es ++ es') = freedFrames es ++ freedFrames es' := List.filterMap_append

theorem freePagesLoop_spec (vp : Word) (prev : Option Word) {n : Nat}
    (h : VmInv managed limit s live P) (hal : ∀ k < n, va + BitVec.ofNat 64 (4096 * k) ∈ live) :
    ∃ s', freePagesLoop vp n va prev s = .ok () s' ∧
      Freed managed limit vp (live \ pageRange va n) P (AnyPresent s va n) (s.framesOf n va)
        (pageRange va n) s s' := by
  induction n generalizing s P live va prev with
  | zero =>
    refine ⟨s, rfl, ?_, Safely.refl s, rfl, ?_, fun _ _ => rfl, PagesKept.refl s, [], rfl, rfl⟩
    · rw [pageRange_zero, Set.sdiff_empty]
      simpa [Pool.append, Machine.framesOf] using h
    · rintro ⟨k, hk, -⟩
      omega
  | succ n ih =>
    have hmem : va ∈ live := by simpa using hal 0 (by omega)
    have hne : ∀ k < n, va + pageSize + BitVec.ofNat 64 (4096 * k) ≠ va := by
      intro k hk he
      have hn := range_toNat (fun j hj => (h.pages.range _ (hal j hj)).1) (k := k + 1) (by omega)
      rw [add_page_succ, he] at hn
      omega
    have hlater : ∀ k < n, va + pageSize + BitVec.ofNat 64 (4096 * k) ∈ live \ {va} := by
      intro k hk
      refine ⟨?_, hne k hk⟩
      rw [← add_page_succ]
      exact hal (k + 1) (by omega)
    have hset : (live \ {va}) \ pageRange (va + pageSize) n = live \ pageRange va (n + 1) := by
      rw [Set.sdiff_sdiff, pageRange_succ, Set.insert_eq]
    obtain ⟨s1, prev', hround, hone⟩ := freePagesLoop_live vp h hmem n prev
    obtain ⟨s', hrun, hrest⟩ := ih prev' hone.inv hlater
    have hkept : ∀ k < n, PageKept s s1 (va + pageSize + BitVec.ofNat 64 (4096 * k)) :=
      fun k hk => hone.pages _ (h.pages.range _ (hlater k hk).1).1 (hne k hk)
    have hsame : AnyPresent s1 (va + pageSize) n ↔ AnyPresent s (va + pageSize) n :=
      exists_congr fun k => and_congr_right fun hk => (hkept k hk).flags_iff (by decide)
    have hframes : s1.framesOf n (va + pageSize) = s.framesOf n (va + pageSize) :=
      Machine.framesOf_congr fun k hk => (hkept k hk).node
    rw [hset, hsame, hframes] at hrest
    refine ⟨s', hround.trans hrun, ?_, hone.safely.trans hrest.safely,
      hrest.top.trans hone.top, ?_, ?_, ?_, ?_⟩
    · have hinv := hrest.inv
      rwa [Pool.append_append] at hinv
    · intro hany
      by_cases hlast : AnyPresent s (va + pageSize) n
      · exact hrest.dropped hlast
      · rw [hrest.kept _ (Or.inr hlast)]
        exact hone.dropped ((anyPresent_succ.mp hany).resolve_right hlast)
    · intro page hpage
      rw [anyPresent_succ, not_or] at hpage
      rw [hrest.kept page (hpage.imp_right And.right), hone.kept page (hpage.imp_right And.left)]
    · rw [pageRange_succ, Set.insert_eq]
      exact hone.pages.trans hrest.pages
    · obtain ⟨es, hes, hfirst⟩ := hone.frees
      obtain ⟨es', hes', hothers⟩ := hrest.frees
      refine ⟨es' ++ es, by rw [hes', hes, List.append_assoc], ?_⟩
      rw [freedFrames_append, hfirst, hothers, Machine.framesOf, List.reverse_append]

end SkipOS
