import SkipOS.VmEvents

/-! `MMU_alloc_pages`: each round of `alloc_virtual_page` links one zeroed table, and a
page is reserved in its L1 table. -/

namespace SkipOS

open Mem Exec Walk

/-- The paths of `T` that lead to no table yet. -/
def missing (s : Machine) (T : Finset (List Word)) : Finset (List Word) := {p ∈ T | s.node p = none}

/-- No table of `T` is missing, or fewer than there are free frames. -/
def Enough (managed : List Word) (T : Finset (List Word)) (s : Machine) : Prop :=
  (missing s T).card = 0 ∨ (missing s T).card + (outstanding s.events).length < managed.length

variable {managed : List Word} {limit t f i j va : Word} {s s' : Machine} {P Q : Pool} {m m' : Mem}
  {p q rest : List Word} {live : Set Word} {T : Finset (List Word)}

theorem TablesInv.length_free (h : TablesInv managed limit s P) :
    P.free.length + (outstanding s.events).length = managed.length := by
  rw [← List.length_append, h.pool.perm.length_eq]

theorem TablesInv.pfAlloc_cases (h : TablesInv managed limit s P) :
    (P.free.length = 1 ∧ pfAlloc s = .ok 0 { s with events := .pfAlloc 0 :: s.events }) ∨
      ∃ f m Q, f ∈ P.free ∧ pfAlloc s = .ok f { s with mem := m, events := .pfAlloc f :: s.events } ∧
        PoolInv managed limit m (f :: outstanding s.events) Q ∧ Q.pages ≠ [] ∧
        Set.EqOn m s.mem (frames (0 :: P.free))ᶜ := by
  rcases P.alloc_cases with he | ⟨hp, -⟩ | ⟨l, e, hl, hne⟩
  · left
    have hone : P.free.length = 1 := by
      have hpos := List.length_pos_of_ne_nil h.pages_ne
      simp only [Pool.free, Pool.unpooled, List.length_append, length_pagesFrom, he.2]
      have := he.1
      omega
    exact ⟨hone, pfAlloc_of_ok (mmuPfAlloc_exhausted h.pool.rep h.pool.wf he)⟩
  · exact absurd hp h.pages_ne
  · right
    obtain ⟨m, hok, -, -⟩ := mmuPfAlloc_pop h.pool.rep h.pool.wf hl hne
    rcases h.pool.alloc hok with ⟨⟨hlen, hc⟩, -, -⟩ | ⟨hf, Q, hQ, -, hpages, heq⟩
    · have htop := P.topUp_pages_length
      have hpos := List.length_pos_of_ne_nil hne
      simp only [hl, hlen, if_true, hc, List.length_append, List.length_singleton] at htop
      omega
    · exact ⟨e, m, Q, hf, pfAlloc_of_ok hok, hQ, hpages, heq⟩

theorem disjoint_frame_poolHead (ha : Aligned f) (h0 : f ≠ 0) : Disjoint (frame f) poolHead :=
  (disjoint_frame ha aligned_zero h0).mono_right (span_mono (by decide))

theorem safe_setEntry (ht : Aligned t) (h0 : t ≠ 0) (hi : i < 512) {v : Word}
    (hv : isNextPagePresent v = true → v &&& ~~~0xFFF ≠ 0) :
    (VmEvent.setEntry (entryPtr t i) v).Safe :=
  ⟨(disjoint_frame_poolHead ht h0).mono_left (span_entryPtr_subset hi), hv⟩

/-- What one entry that is not present may be set to. -/
theorem not_present_of_flags {e : Word} (h : flags e &&& 1 = 0) : isNextPagePresent e = false := by
  rw [← Bool.not_eq_true, present_iff_flags]
  exact not_not.mpr h

/-- Flags elsewhere stay, those of pages whose L1 table is new start at zero. -/
theorem PagesInv.of_leafFlags (h : PagesInv s live) (htop : s'.kernHeapTop = s.kernHeapTop)
    (hl : ∀ va, IsPage va → s'.leafFlags va = s.leafFlags va ∨
      (s.leafFlags va = none ∧ s'.leafFlags va = some 0)) : PagesInv s' live := by
  refine ⟨?_, ?_, ?_, ?_, ?_, ?_⟩
  · rw [htop]
    exact h.top_aligned
  · rw [htop]
    exact h.base_le
  · rw [htop]
    exact h.top_le
  · rw [htop]
    exact h.range
  · intro va hva
    rcases hl va (h.range va hva).1 with he | ⟨hn, -⟩
    · rw [he]
      exact h.live_flags va hva
    · rcases h.live_flags va hva with hh | hh <;> simp [hn] at hh
  · intro va hp hva
    rcases hl va hp with he | ⟨-, hz⟩
    · rw [he]
      exact h.dead_flags va hp hva
    · exact Or.inr hz

/-- The two stores that make the entry at `ptr` point to `f`. -/
def linkedMem (m : Mem) (f ptr : Word) : Mem :=
  (m.store64 ptr f).store64 ptr (f ||| (writeableMask ||| presentMask))

theorem linkedMem_load_self (m : Mem) (f ptr : Word) :
    (linkedMem m f ptr).load64 ptr = f ||| (writeableMask ||| presentMask) :=
  load64_store64_self _ _ _

theorem linkedMem_eqOn (m : Mem) (f ptr : Word) : Set.EqOn (linkedMem m f ptr) m (span ptr 8)ᶜ := by
  intro a ha
  rw [linkedMem, store64_eqOn_compl _ _ _ ha, store64_eqOn_compl _ _ _ ha]

theorem linkedMem_load_of_ne (ht : Aligned t) (hf : Aligned f) (hne : f ≠ t) (hi : i < 512)
    (hj : j < 512) : (linkedMem m f (entryPtr t i)).load64 (entryPtr f j) =
      m.load64 (entryPtr f j) := by
  have hdis : Disjoint (span (entryPtr t i) 8) (span (entryPtr f j) 8) :=
    disjoint_slot ht hf (isSlot_entry hi) (isSlot_entry hj) (Or.inl hne.symm)
  rw [linkedMem, load64_store64_of_disjoint hdis, load64_store64_of_disjoint hdis]

theorem TablesInv.linkFrame (h : TablesInv managed limit s P) (s' : Machine)
    (hx : q ++ [i] ∈ Paths) (hq : s.node q = some t) (hi : child s.mem t i = none)
    (hf : f ∈ P.free) (hpool : PoolInv managed limit m (f :: outstanding s.events) Q)
    (hne : Q.pages ≠ []) (heq : Set.EqOn m s.mem (frames (0 :: P.free))ᶜ)
    (hfill : Set.EqOn m' m (frame f)ᶜ) (hmem : s'.mem = linkedMem m' f (entryPtr t i))
    (hout : outstanding s'.events = f :: outstanding s.events)
    (hpt : s'.pageTable = s.pageTable) (hcr3 : s'.cr3 = s.cr3)
    (hzero : ∀ j, q ++ [i] ++ [j] ∈ Paths → m'.load64 (entryPtr f j) = 0) :
    TablesInv managed limit s' Q ∧ EntriesKept s s'.mem {q ++ [i]} ∧
      s'.node (q ++ [i]) = some f ∧ (∀ p ∈ Paths, p ≠ q ++ [i] → s'.node p = s.node p) ∧
      ∀ va n, IsPage va → s.node (pathOf va) = some n → Set.EqOn s'.mem s.mem (frame n) := by
  have hqp := prefixClosed_paths q [i] hx
  have hi512 := index_lt_of_mem_paths hx
  have hfa := h.pool.wf.aligned f hf
  have hft : f ≠ t := by
    rintro rfl
    exact h.node_not_free hqp hq hf
  have hchange : Set.EqOn s'.mem m (frame f ∪ span (entryPtr t i) 8)ᶜ := by
    intro a ha
    rw [Set.mem_compl_iff, Set.mem_union, not_or] at ha
    rw [hmem, linkedMem_eqOn _ _ _ ha.2, hfill ha.1]
  have hpool' : PoolInv managed limit s'.mem (f :: outstanding s.events) Q := by
    refine hpool.of_eqOn (hchange.mono (Set.compl_subset_compl.mpr (Set.union_subset ?_ ?_)))
    · exact frame_subset_frames List.mem_cons_self
    · exact (span_entryPtr_subset hi512).trans
        (frame_subset_frames (List.mem_cons_of_mem _ (h.node_mem hqp hq)))
  have hall : Set.EqOn s'.mem s.mem (frames (0 :: P.free) ∪ span (entryPtr t i) 8)ᶜ := by
    intro a ha
    rw [Set.mem_compl_iff, Set.mem_union, not_or] at ha
    have hfree : a ∉ frame f := fun hm => ha.1 ⟨f, List.mem_cons_of_mem _ hf, hm⟩
    exact (hchange fun hm => hm.elim hfree ha.2).trans (heq ha.1)
  have hk : EntriesKept s s'.mem {q ++ [i]} := h.entriesKept hx hq h.free_frames hall
  have hnew : child s'.mem t i = some f :=
    child_linked hfa (by rw [hmem, linkedMem_load_self])
  obtain ⟨htab, hnode, hother⟩ := h.link s' hx hq hi hf hpool' hne hout hpt hcr3 hk hnew
    (by
      intro j hj
      rw [child_eq_none_iff, hmem, linkedMem_load_of_ne (h.node_aligned hqp hq) hfa hft hi512
        (index_lt_of_mem_paths hj), hzero j hj]
      rfl)
  refine ⟨htab, hk, hnode, hother, fun va n hva hn => ?_⟩
  exact h.contentsKept hqp (length_lt_of_snoc hx) hq hi512 (fun c hc => (h.free_frames c hc).1) hall
    hva.pathOf_mem (by simp [pathOf]) hn (h.node_not_mem_free hva.pathOf_mem hn)

theorem safe_link (ht : Aligned t) (h0 : t ≠ 0) (hi : i < 512) (hf : Aligned f) (hf0 : f ≠ 0) :
    ∀ e ∈ [VmEvent.setEntry (entryPtr t i) (f ||| (writeableMask ||| presentMask)),
      .setEntry (entryPtr t i) f, .memset f, .pfAlloc f], e.Safe ∧ e ≠ .pfAlloc 0 := by
  intro e he
  simp only [List.mem_cons, List.not_mem_nil, or_false] at he
  rcases he with rfl | rfl | rfl | rfl
  · refine ⟨safe_setEntry ht h0 hi ?_, by simp⟩
    rw [frame_linked hf]
    exact fun _ => hf0
  · refine ⟨safe_setEntry ht h0 hi ?_, by simp⟩
    rw [frame_of_aligned hf]
    exact fun _ => hf0
  · exact ⟨disjoint_frame_poolHead hf hf0, by simp⟩
  · exact ⟨trivial, by simpa using hf0⟩

/-- The state after a round of the loop that got the frame `f`. -/
def linkedTable (s : Machine) (m : Mem) (f ptr : Word) : Machine :=
  { s with
    mem := linkedMem (m.fill f 4096 0) f ptr
    events := .setEntry ptr (f ||| (writeableMask ||| presentMask)) :: .setEntry ptr f ::
      .memset f :: .pfAlloc f :: s.events }

theorem linkTable_apply {α : Type} (k : Exec Machine α) (s : Machine) (m : Mem) (f ptr : Word) :
    (memsetPage f >>= fun _ => setEntry ptr f >>= fun _ =>
      updateEntry ptr (· ||| (writeableMask ||| presentMask)) >>= fun _ => k)
        { s with mem := m, events := .pfAlloc f :: s.events } = k (linkedTable s m f ptr) := by
  rw [bind_of_ok (memsetPage_apply _ _), bind_of_ok (setEntry_apply _ _ _),
    bind_of_ok (updateEntry_apply _ _ _), load64_store64_self]
  rfl

theorem linkedTable_outstanding {ptr : Word} (h0 : f ≠ 0) :
    outstanding (linkedTable s m f ptr).events = f :: outstanding s.events := if_neg h0

theorem VmInv.linkTable (h : VmInv managed limit s live P) (hx : q ++ [i] ∈ Paths)
    (hlen : q.length < 3) (hq : s.node q = some t) (hi : child s.mem t i = none)
    (hf : f ∈ P.free) (hpool : PoolInv managed limit m (f :: outstanding s.events) Q)
    (hne : Q.pages ≠ []) (heq : Set.EqOn m s.mem (frames (0 :: P.free))ᶜ) :
    VmInv managed limit (linkedTable s m f (entryPtr t i)) live Q ∧
      Safely s (linkedTable s m f (entryPtr t i)) ∧
      (linkedTable s m f (entryPtr t i)).node (q ++ [i]) = some f ∧
      (∀ j < 512, child (linkedTable s m f (entryPtr t i)).mem f j = none) ∧
      (∀ p ∈ Paths, p ≠ q ++ [i] → (linkedTable s m f (entryPtr t i)).node p = s.node p) ∧
      PagesKept ∅ s (linkedTable s m f (entryPtr t i)) := by
  set s' := linkedTable s m f (entryPtr t i) with hs'
  have hqp := prefixClosed_paths q [i] hx
  have hi512 := index_lt_of_mem_paths hx
  have hta := h.tables.node_aligned hqp hq
  have ht0 := h.tables.node_ne_zero hqp hq
  have hfa := h.tables.pool.wf.aligned f hf
  have hf0 := h.tables.pool.free_page_ne_zero hf
  have hft : f ≠ t := by
    rintro rfl
    exact h.tables.node_not_free hqp hq hf
  have hfill : ∀ j < 512, (m.fill f 4096 0).load64 (entryPtr f j) = 0 := fun j hj =>
    field_fill_zero (isSlot_entry hj)
  have hzero : ∀ j < 512, s'.mem.load64 (entryPtr f j) = 0 := by
    intro j hj
    rw [hs', linkedTable, linkedMem_load_of_ne hta hfa hft hi512 hj, hfill j hj]
  obtain ⟨htab, hk, hnode, hother, hcontents⟩ := h.tables.linkFrame s' hx hq hi hf hpool hne heq
    (fill_eqOn_compl _ _ _ _) rfl (linkedTable_outstanding hf0) rfl rfl
    fun j hj => hfill j (index_lt_of_mem_paths hj)
  have hlong : ∀ va, pathOf va ≠ q ++ [i] := by
    intro va he
    have := congrArg List.length he
    simp only [pathOf, List.length_append, List.length_cons, List.length_nil] at this
    omega
  have hkept : PagesKept ∅ s s' := by
    intro va hva _
    refine ⟨hother _ hva.pathOf_mem (hlong va), ?_, fun n => hcontents va n hva⟩
    by_cases hpath : tablePath va = q ++ [i]
    · right
      have hold : s.node (tablePath va) = none := by
        rw [hpath]
        exact (walk_snoc_of_some hq).trans hi
      refine ⟨by rw [Machine.leafFlags, hold, Option.map_none], ?_⟩
      rw [leafFlags_of_node (hpath ▸ hnode), hzero _ (l1Index_lt va)]
      rfl
    · exact Or.inl (leafFlags_kept hk hva (hother _ hva.tablePath_mem hpath) (hlong va))
  refine ⟨⟨htab, h.pages.of_leafFlags rfl fun va hva => (hkept va hva (Set.notMem_empty va)).flags⟩,
    ?_, hnode, fun j hj => ?_, hother, hkept⟩
  · exact ⟨[_, _, _, _], rfl, safe_link hta ht0 hi512 hfa hf0⟩
  · rw [child_eq_none_iff, hzero j hj]
    rfl

/-- What a call that may stop midway has kept. -/
structure Kept (managed : List Word) (limit : Word) (T : Finset (List Word)) (live : Set Word)
    (s s' : Machine) : Prop where
  inv : ∃ Q, VmInv managed limit s' live Q
  safely : Safely s s'
  top : s'.kernHeapTop = s.kernHeapTop
  pageTable : s'.pageTable = s.pageTable
  enough : Enough managed T s → Enough managed T s'
  pages : PagesKept ∅ s s'

theorem Kept.refl (h : VmInv managed limit s live P) : Kept managed limit T live s s :=
  ⟨⟨P, h⟩, Safely.refl s, rfl, rfl, id, PagesKept.refl s⟩

theorem Kept.trans {u : Machine} (h : Kept managed limit T live s s')
    (h' : Kept managed limit T live s' u) : Kept managed limit T live s u :=
  ⟨h'.inv, h.safely.trans h'.safely, h'.top.trans h.top, h'.pageTable.trans h.pageTable,
    fun hh => h'.enough (h.enough hh), (h.pages.trans h'.pages).mono (by simp)⟩

theorem Enough.link (hT : p ∈ T) (hp : s.node p = none) (hnew : s'.node p ≠ none)
    (hother : ∀ x ∈ T, x ≠ p → s'.node x = s.node x)
    (hout : (outstanding s'.events).length = (outstanding s.events).length + 1)
    (h : Enough managed T s) : Enough managed T s' := by
  have hmem : p ∈ missing s T := by simp [missing, hT, hp]
  have herase : missing s' T = (missing s T).erase p := by
    ext x
    simp only [missing, Finset.mem_filter, Finset.mem_erase]
    constructor
    · rintro ⟨hx, hn⟩
      have hne : x ≠ p := by
        rintro rfl
        exact hnew hn
      exact ⟨hne, hx, (hother x hx hne).symm.trans hn⟩
    · rintro ⟨hne, hx, hn⟩
      exact ⟨hx, (hother x hx hne).trans hn⟩
  have hcard := Finset.card_erase_of_mem hmem
  have hpos := Finset.card_pos.mpr ⟨p, hmem⟩
  rw [← herase] at hcard
  rcases h with h | h
  · omega
  · exact Or.inr (by omega)

theorem TablesInv.not_enough (h : TablesInv managed limit s P) (hT : p ∈ T)
    (hp : s.node p = none) (hone : P.free.length = 1) : ¬ Enough managed T s := by
  have hpos : 0 < (missing s T).card := Finset.card_pos.mpr ⟨p, by simp [missing, hT, hp]⟩
  have hlen := h.length_free
  rintro (hh | hh) <;> omega

theorem levelOf_ne_l1 (n : Nat) : levelOf (n + 2) ≠ .l1 := by
  rcases n with _ | _ | n <;> simp [levelOf]

/-- The loop runs once for each table that is missing on the way to the L1 entry. -/
theorem allocVirtualPageLoop_spec (hva : IsPage va) (hTp : ∀ p ∈ T, p ∈ Paths)
    (hT : ∀ p, p <+: tablePath va → p ≠ [] → p ∈ T) (rest : List Word) :
    ∀ (fuel : Nat) {s : Machine} {P : Pool} {q : List Word} {i t : Word},
      VmInv managed limit s live P → pathOf va = q ++ i :: rest → s.node q = some t →
      child s.mem t i = none →
      ∀ r, allocVirtualPageLoop s.pageTable va .l1 fuel (entryPtr t i)
        (levelOf (rest.length + 1)) s = r →
      (GotNull s (final r) ∧ ¬ Enough managed T s) ∨
      (Kept managed limit T live s (final r) ∧
        ((∃ c, r = .ok (entryPtr c (l1Index va), .l1) (final r) ∧
          (final r).node (tablePath va) = some c) ∨
          (fuel < rest.length ∧ r = .error .fuel (final r)))) := by
  induction rest with
  | nil =>
    intro fuel s P q i t h hp hq hi r hr
    right
    have hrun : allocVirtualPageLoop s.pageTable va .l1 fuel (entryPtr t i) (levelOf 1) s =
        .ok (entryPtr t i, .l1) s := by
      cases fuel <;> rfl
    rw [List.length_nil, Nat.zero_add, hrun] at hr
    subst hr
    rw [pathOf_eq] at hp
    obtain ⟨hq', hi'⟩ := List.append_inj' hp rfl
    obtain rfl : l1Index va = i := by simpa using hi'
    exact ⟨Kept.refl h, Or.inl ⟨t, rfl, hq' ▸ hq⟩⟩
  | cons j rest ih =>
    intro fuel s P q i t h hp hq hi r hr
    have hlevel : levelOf ((j :: rest).length + 1) ≠ .l1 := levelOf_ne_l1 rest.length
    have hlen4 : q.length + (rest.length + 2) = 4 := by
      have := congrArg List.length hp
      simp only [pathOf, List.length_append, List.length_cons, List.length_nil] at this
      omega
    have hp' : pathOf va = (q ++ [i]) ++ j :: rest := by rw [hp]; simp
    have hx : q ++ [i] ∈ Paths := prefixClosed_paths _ (j :: rest) (hp' ▸ hva.pathOf_mem)
    have hxT : q ++ [i] ∈ T := by
      refine hT _ ?_ (by simp)
      have hpre : q ++ [i] <+: pathOf va := ⟨j :: rest, hp'.symm⟩
      have hpre' : tablePath va <+: pathOf va := ⟨[l1Index va], rfl⟩
      refine List.prefix_of_prefix_length_le hpre hpre' ?_
      simp only [List.length_append, tablePath, List.length_cons, List.length_nil]
      omega
    have hnone : s.node (q ++ [i]) = none := (walk_snoc_of_some hq).trans hi
    cases fuel with
    | zero =>
      right
      rw [allocVirtualPageLoop, if_neg hlevel] at hr
      subst hr
      exact ⟨Kept.refl h, Or.inr ⟨by simp, rfl⟩⟩
    | succ fuel =>
      rw [allocVirtualPageLoop, if_neg hlevel] at hr
      rcases h.tables.pfAlloc_cases with ⟨hone, hrun⟩ | ⟨f, m, Q, hf, hrun, hpool, hne, heq⟩
      · left
        refine ⟨?_, h.tables.not_enough hxT hnone hone⟩
        rw [bind_of_ok hrun] at hr
        have hg : GotNull s { s with events := .pfAlloc 0 :: s.events } :=
          ⟨[.pfAlloc 0], rfl, by simp⟩
        refine hg.grows ?_
        rw [← hr]
        refine grows_of_quiet (quiet_bind (quiet_memsetPage _) fun _ => ?_) _
        refine quiet_bind (quiet_setEntry _ _) fun _ => ?_
        refine quiet_bind (quiet_updateEntry _ _) fun _ => ?_
        exact quiet_bind (quiet_getLowestPresentPage _ _ _) fun r =>
          quiet_allocVirtualPageLoop _ _ _ _ _ _
      · obtain ⟨hinv, hsafe, hnode, hbelow, hother, hpages⟩ :=
          h.linkTable hx (by omega) hq hi hf hpool hne heq
        have hf0 := h.tables.pool.free_page_ne_zero hf
        have hj : j < 512 := hva.pathOf_mem.2.1 j (by simp [hp])
        have hget : ∃ prev, getLowestPresentPage s.pageTable va none
            (linkedTable s m f (entryPtr t i)) =
              .ok (entryPtr f j, levelOf (rest.length + 1), prev) (linkedTable s m f (entryPtr t i)) :=
          getLowestPresentPage_of_missing hva.umod_eq_zero hva.l4Index_ne_zero hp' hnode (hbelow j hj)
        obtain ⟨prev, hget⟩ := hget
        have henough : Enough managed T s → Enough managed T (linkedTable s m f (entryPtr t i)) := by
          refine Enough.link hxT hnone (by simp [hnode]) (fun x hx hne => hother x (hTp x hx) hne) ?_
          rw [linkedTable_outstanding hf0, List.length_cons]
        have hkept : Kept managed limit T live s (linkedTable s m f (entryPtr t i)) :=
          ⟨⟨Q, hinv⟩, hsafe, rfl, rfl, henough, hpages⟩
        rw [bind_of_ok hrun, linkTable_apply, bind_of_ok hget] at hr
        rcases ih fuel hinv hp' hnode (hbelow j hj) r hr with ⟨hnull, hno⟩ | ⟨hk, hout⟩
        · exact Or.inl ⟨hsafe.gotNull hnull, fun hh => hno (henough hh)⟩
        · refine Or.inr ⟨hkept.trans hk, hout.imp_right fun hstop => ⟨?_, hstop.2⟩⟩
          have hlt := hstop.1
          rw [List.length_cons]
          omega

theorem Enough.congr (hn : ∀ p ∈ T, s'.node p = s.node p)
    (hout : outstanding s'.events = outstanding s.events) (h : Enough managed T s) :
    Enough managed T s' := by
  have hm : missing s' T = missing s T :=
    Finset.filter_congr fun p hp => by rw [hn p hp]
  rwa [Enough, hm, hout]

theorem PagesInv.leafFlags_top (h : PagesInv s live) (hva : IsPage va) (htop : s.kernHeapTop = va) :
    s.leafFlags va = none ∨ s.leafFlags va = some 0 := by
  refine h.dead_flags _ hva fun hm => ?_
  have := (h.range _ hm).2
  rw [htop] at this
  omega

/-- The state after the page at the heap top has been reserved. -/
def reserved (s : Machine) (t : Word) : Machine :=
  let ptr := entryPtr t (l1Index s.kernHeapTop)
  { s with
    mem := s.mem.store64 ptr (s.mem.load64 ptr ||| demandMask)
    events := .setEntry ptr (s.mem.load64 ptr ||| demandMask) :: s.events
    kernHeapTop := s.kernHeapTop + pageSize }

theorem VmInv.reserve (h : VmInv managed limit s live P) (hva : IsPage s.kernHeapTop)
    (ht : s.node (tablePath s.kernHeapTop) = some t)
    (hflags : flags (s.mem.load64 (entryPtr t (l1Index s.kernHeapTop))) = 0) :
    VmInv managed limit (reserved s t) (insert s.kernHeapTop live) P ∧ Safely s (reserved s t) ∧
      (∀ p ∈ Paths, (reserved s t).node p = s.node p) ∧
      (reserved s t).leafFlags s.kernHeapTop = some 0x200 ∧
      PagesKept {s.kernHeapTop} s (reserved s t) := by
  have hfl : flags (s.mem.load64 (entryPtr t (l1Index s.kernHeapTop)) ||| demandMask) = 0x200 := by
    rw [flags_or, hflags]
    decide
  have hold : child s.mem t (l1Index s.kernHeapTop) = none :=
    child_eq_none_iff.mpr (not_present_of_flags (by rw [hflags]; decide))
  have hnp : isNextPagePresent (s.mem.load64 (entryPtr t (l1Index s.kernHeapTop)) ||| demandMask) =
      false := not_present_of_flags (by rw [hfl]; decide)
  obtain ⟨htab, hnode, hself, hother⟩ := h.tables.setLeaf (reserved s t) hva ht hold hnp
    rfl rfl rfl rfl
  have htop : (reserved s t).kernHeapTop.toNat = s.kernHeapTop.toNat + 4096 := by
    have := hva.2.2
    simp only [reserved, pageSize]
    bv_omega
  have hpages := h.pages
  refine ⟨⟨htab, ⟨?_, ?_, ?_, ?_, ?_, ?_⟩⟩, ?_, hnode, hself.trans (congrArg some hfl), hother⟩
  · have := hpages.top_aligned
    omega
  · have := hpages.base_le
    omega
  · have := hva.1
    have := hva.2.2
    omega
  · intro va hm
    rcases Set.mem_insert_iff.mp hm with rfl | hm
    · exact ⟨hva, by omega⟩
    · have := hpages.range va hm
      exact ⟨this.1, by omega⟩
  · intro va hm
    by_cases he : va = s.kernHeapTop
    · left
      rw [he, hself, hfl]
    · have hl := Set.mem_of_mem_insert_of_ne hm he
      exact (hother va (hpages.range va hl).1 he).live_flags (hpages.live_flags va hl)
  · intro va hp hm
    rw [Set.mem_insert_iff, not_or] at hm
    exact (hother va hp hm.1).dead_flags (hpages.dead_flags va hp hm.2)
  · refine ⟨[_], rfl, ?_⟩
    intro e he
    obtain rfl := List.mem_singleton.mp he
    refine ⟨safe_setEntry (h.tables.node_aligned hva.tablePath_mem ht)
      (h.tables.node_ne_zero hva.tablePath_mem ht) (l1Index_lt _) ?_, by simp⟩
    rw [hnp]
    simp

/-- The heap top is reserved by one call, unless the call runs out of frames or rounds. -/
theorem allocVirtualPage_spec (fuel : Nat) (h : VmInv managed limit s live P)
    (hva : IsPage s.kernHeapTop) (hTp : ∀ p ∈ T, p ∈ Paths)
    (hT : ∀ p, p <+: tablePath s.kernHeapTop → p ≠ [] → p ∈ T)
    {r : EStateM.Result Stop Machine Unit}
    (hr : allocVirtualPage fuel s.pageTable s.kernHeapTop true s = r) :
    (GotNull s (final r) ∧ ¬ Enough managed T s) ∨
      (Kept managed limit T live s (final r) ∧ fuel < 3 ∧ r = .error .fuel (final r)) ∨
      ∃ s1 t, Kept managed limit T live s s1 ∧ s1.node (tablePath s.kernHeapTop) = some t ∧
        flags (s1.mem.load64 (entryPtr t (l1Index s.kernHeapTop))) = 0 ∧
        r = .ok () { reserved s1 t with kernHeapTop := s.kernHeapTop } := by
  set va := s.kernHeapTop with hvadef
  have hnotp : ∀ s1 : Machine, s1.leafFlags va = none ∨ s1.leafFlags va = some 0 →
      ∀ t, s1.node (tablePath va) = some t →
        flags (s1.mem.load64 (entryPtr t (l1Index va))) = 0 := by
    intro s1 hs1 t ht
    rw [leafFlags_of_node ht] at hs1
    simpa using hs1
  have hdead := h.pages.leafFlags_top hva rfl
  rcases walk_cases (child s.mem) s.pageTable.l4Table (pathOf va) with ⟨n, hn⟩ |
    ⟨q, i, rest, t, hp, hq, hi⟩
  · obtain ⟨t, ht⟩ := walk_prefix_isSome (pathOf_eq va ▸ hn)
    have hc := (walk_snoc_of_some ht).symm.trans (pathOf_eq va ▸ hn)
    have hnone : child s.mem t (l1Index va) = none :=
      child_eq_none_iff.mpr (not_present_of_flags (by rw [hnotp s hdead t ht]; decide))
    rw [hnone] at hc
    simp at hc
  · have hlen : rest.length + 1 ≤ 4 := by
      have := congrArg List.length hp
      simp only [pathOf, List.length_append, List.length_cons, List.length_nil] at this
      omega
    have hget : ∃ prev, getLowestPresentPage s.pageTable va none s =
        .ok (entryPtr t i, levelOf (rest.length + 1), prev) s :=
      getLowestPresentPage_of_missing hva.umod_eq_zero hva.l4Index_ne_zero hp hq hi
    obtain ⟨prev, hget⟩ := hget
    have hlevel : levelOf (rest.length + 1) ≠ .physical := by
      rcases rest.length with _ | _ | _ | n <;> simp [levelOf]
    rw [allocVirtualPage, bind_assert_of hva.umod_eq_zero, bind_of_ok hget] at hr
    dsimp only at hr
    rw [bind_assert_of hlevel] at hr
    simp only [if_true] at hr
    have hspec := allocVirtualPageLoop_spec hva hTp hT rest fuel h hp hq hi _ rfl
    rcases hspec with ⟨hnull, hno⟩ | ⟨hk, ⟨c, hok, hc⟩ | ⟨hlt, herr⟩⟩
    · left
      rw [← hr]
      exact ⟨hnull.bind fun l => grows_of_quiet (quiet_reserveEntry l), hno⟩
    · right; right
      obtain ⟨Q, hQ⟩ := hk.inv
      have hfl := hnotp _ (hQ.pages.leafFlags_top hva hk.top) c hc
      refine ⟨_, c, hk, hc, hfl, ?_⟩
      have hdemand : (final (allocVirtualPageLoop s.pageTable va .l1 fuel (entryPtr t i)
          (levelOf (rest.length + 1)) s)).mem.load64 (entryPtr c (l1Index va)) &&& demandMask = 0 := by
        rw [demand_eq_flags, hfl]
        decide
      rw [← hr, bind_of_ok hok, bind_assert_of rfl, bind_get, bind_assert_of hdemand,
        updateEntry_apply, reserved, hk.top]
    · right; left
      rw [bind_of_error herr] at hr
      subst hr
      exact ⟨hk, by omega, rfl⟩

/-- `n` pages from `base` on. -/
def pageRange (base : Word) (n : Nat) : Set Word :=
  {va | ∃ k < n, va = base + BitVec.ofNat 64 (4096 * k)}

theorem pageRange_zero (base : Word) : pageRange base 0 = ∅ := by
  ext va
  simp [pageRange]

theorem add_page_succ (base : Word) (k : Nat) :
    base + BitVec.ofNat 64 (4096 * (k + 1)) = base + pageSize + BitVec.ofNat 64 (4096 * k) := by
  simp only [pageSize]
  bv_omega

theorem pageRange_succ (base : Word) (n : Nat) :
    pageRange base (n + 1) = insert base (pageRange (base + pageSize) n) := by
  ext va
  rw [Set.mem_insert_iff]
  constructor
  · rintro ⟨k, hk, rfl⟩
    cases k with
    | zero => simp
    | succ k => exact Or.inr ⟨k, by omega, add_page_succ base k⟩
  · rintro (rfl | ⟨k, hk, rfl⟩)
    · exact ⟨0, by omega, by simp⟩
    · exact ⟨k + 1, by omega, (add_page_succ base k).symm⟩

theorem allocVirtualPage_top {fuel : Nat} {pt : PageTable} (hva : va % pageSize = 0)
    (h0 : (va >>> 39) &&& 0x1FF = 0) :
    allocVirtualPage fuel pt va true s = .error .assert s := by
  rw [allocVirtualPage, bind_assert_of hva, bind_of_ok (getLowestPresentPage_of_identity hva h0)]
  exact bind_assert_not (by simp) _ _

/-- `n` pages from the heap top on have been reserved. -/
structure Grown (n : Nat) (s s' : Machine) : Prop where
  top : s'.kernHeapTop.toNat = s.kernHeapTop.toNat + 4096 * n
  reserved : ∀ k < n, s'.leafFlags (s.kernHeapTop + BitVec.ofNat 64 (4096 * k)) = some 0x200
  kept : PagesKept (pageRange s.kernHeapTop n) s s'

theorem Grown.refl (s : Machine) : Grown 0 s s :=
  ⟨by omega, fun k hk => absurd hk (by omega), PagesKept.refl s⟩

/-- The first page, then the others above it. -/
theorem Grown.cons {s1 : Machine} {n : Nat} (hva : IsPage s.kernHeapTop)
    (htop : s1.kernHeapTop = s.kernHeapTop + pageSize)
    (hself : s1.leafFlags s.kernHeapTop = some 0x200) (hk : PagesKept {s.kernHeapTop} s s1)
    (hfits : s1.kernHeapTop.toNat + 4096 * n ≤ 2 ^ 48) (h : Grown n s1 s') : Grown (n + 1) s s' := by
  have hlt := hva.2.2
  have hnat : s1.kernHeapTop.toNat = s.kernHeapTop.toNat + 4096 := by
    rw [htop]
    simp only [pageSize]
    bv_omega
  have hrange : pageRange s.kernHeapTop (n + 1) = {s.kernHeapTop} ∪ pageRange s1.kernHeapTop n := by
    rw [pageRange_succ, htop, Set.insert_eq]
  have hnot : s.kernHeapTop ∉ pageRange s1.kernHeapTop n := by
    rintro ⟨k, hk, he⟩
    have hn := congrArg BitVec.toNat he
    rw [BitVec.toNat_add, BitVec.toNat_ofNat] at hn
    omega
  refine ⟨?_, ?_, ?_⟩
  · rw [h.top, hnat]
    omega
  · intro k hkn
    cases k with
    | zero =>
      have hkeep := (h.kept _ hva hnot).flags_iff (v := 0x200) (by decide)
      simpa using hkeep.mpr hself
    | succ k =>
      rw [add_page_succ, ← htop]
      exact h.reserved k (by omega)
  · rw [hrange]
    exact hk.trans h.kept

/-- Each iteration reserves the page at the heap top and moves the top on. -/
theorem allocPagesLoop_spec (fuel : Nat) (hTp : ∀ p ∈ T, p ∈ Paths) {n : Nat}
    (h : VmInv managed limit s live P)
    (hT : ∀ k < n, s.kernHeapTop.toNat + 4096 * k < 2 ^ 48 →
      ∀ p, p <+: tablePath (s.kernHeapTop + BitVec.ofNat 64 (4096 * k)) → p ≠ [] → p ∈ T)
    {r : EStateM.Result Stop Machine Unit} (hr : allocPagesLoop fuel n s = r) :
    (GotNull s (final r) ∧ ¬ Enough managed T s) ∨
    ∃ live' Q, VmInv managed limit (final r) live' Q ∧ Safely s (final r) ∧
      ((r = .ok () (final r) ∧ live' = live ∪ pageRange s.kernHeapTop n ∧ Grown n s (final r)) ∨
        (∃ e, r = .error e (final r) ∧
          (fuel < 3 ∨ 2 ^ 48 < s.kernHeapTop.toNat + 4096 * n))) := by
  induction n generalizing s P live with
  | zero =>
    subst hr
    exact Or.inr ⟨live, P, h, Safely.refl s,
      Or.inl ⟨rfl, by rw [pageRange_zero, Set.union_empty], Grown.refl s⟩⟩
  | succ n ih =>
    have htop := h.pages.top_le
    by_cases hlt : s.kernHeapTop.toNat < 2 ^ 48
    · have hva : IsPage s.kernHeapTop := by
        have := h.pages.base_le
        exact ⟨h.pages.top_aligned, by omega, hlt⟩
      have hT0 : ∀ p, p <+: tablePath s.kernHeapTop → p ≠ [] → p ∈ T := by
        have := hT 0 (by omega) (by omega)
        simpa using this
      rw [allocPagesLoop, bind_get] at hr
      rcases allocVirtualPage_spec fuel h hva hTp hT0 rfl with
        ⟨hnull, hno⟩ | ⟨hk, hfuel, herr⟩ | ⟨s1, t, hk, ht, hfl, hok⟩
      · left
        rw [← hr]
        exact ⟨hnull.bind fun _ => grows_bind (Moves.modify fun s => List.suffix_rfl)
          fun _ => grows_allocPagesLoop fuel n, hno⟩
      · right
        rw [bind_of_error herr] at hr
        subst hr
        obtain ⟨Q, hQ⟩ := hk.inv
        exact ⟨live, Q, hQ, hk.safely, Or.inr ⟨_, rfl, Or.inl hfuel⟩⟩
      · obtain ⟨Q, hQ⟩ := hk.inv
        rw [← hk.top] at hva ht hfl
        obtain ⟨hres, hsafe, hnode, hself, hpages⟩ := hQ.reserve hva ht hfl
        rw [hk.top] at hva hself hpages
        have hstate : { reserved s1 t with kernHeapTop := s.kernHeapTop + pageSize } =
            reserved s1 t := by
          simp only [reserved, hk.top]
        have htop1 : (reserved s1 t).kernHeapTop = s.kernHeapTop + pageSize := by
          simp only [reserved, hk.top]
        have hnat : (s.kernHeapTop + pageSize).toNat = s.kernHeapTop.toNat + 4096 := by
          simp only [pageSize]
          bv_omega
        rw [bind_of_ok hok, bind_modify] at hr
        dsimp only at hr
        rw [hstate] at hr
        have henough : Enough managed T s → Enough managed T (reserved s1 t) := fun hh =>
          (hk.enough hh).congr (fun p hp => hnode p (hTp p hp)) rfl
        have hT' : ∀ k < n, (reserved s1 t).kernHeapTop.toNat + 4096 * k < 2 ^ 48 →
            ∀ p, p <+: tablePath ((reserved s1 t).kernHeapTop + BitVec.ofNat 64 (4096 * k)) →
              p ≠ [] → p ∈ T := by
          intro k hk' hlt'
          rw [htop1, hnat] at hlt'
          rw [htop1, ← add_page_succ]
          exact hT (k + 1) (by omega) (by omega)
        rcases ih hres hT' hr with ⟨hnull, hno⟩ | ⟨live', Q', hinv, hsafe', hout⟩
        · exact Or.inl ⟨(hk.safely.trans hsafe).gotNull hnull, fun hh => hno (henough hh)⟩
        · right
          refine ⟨live', Q', hinv, (hk.safely.trans hsafe).trans hsafe', ?_⟩
          rcases hout with ⟨hok', hlive, hgrown⟩ | ⟨e, he, hwhy⟩
          · left
            refine ⟨hok', ?_, Grown.cons hva htop1 hself ?_ ?_ hgrown⟩
            · rw [hlive, htop1, hk.top, pageRange_succ, Set.insert_union, Set.union_insert]
            · exact (hk.pages.trans hpages).mono (by simp)
            · have hlast := hinv.pages.top_le
              rwa [hgrown.top] at hlast
          · right
            refine ⟨e, he, hwhy.imp_right fun hbig => ?_⟩
            rw [htop1, hnat] at hbig
            omega
    · right
      have h0 : (s.kernHeapTop >>> 39) &&& 0x1FF = 0 := by
        rw [l4Index_eq_zero]
        omega
      rw [allocPagesLoop, bind_get,
        bind_of_error (allocVirtualPage_top (umod_pageSize_eq_zero.mpr h.pages.top_aligned) h0)] at hr
      subst hr
      exact ⟨live, P, h, Safely.refl s, Or.inr ⟨_, rfl, Or.inr (by omega)⟩⟩

end SkipOS
