import SkipOS.Paging
import SkipOS.PoolRun

/-! What holds of the frames, the page tables and the reserved pages between calls of
the virtual page allocator, and what one changed entry does to it. -/

namespace SkipOS

open Mem Exec Walk

/-- The frames handed out by the page frame allocator and not given back. -/
def outstanding : List VmEvent → List Word
  | [] => []
  | .pfAlloc p :: es => if p = 0 then outstanding es else p :: outstanding es
  | .pfFree p :: es => (outstanding es).erase p
  | .memset _ :: es => outstanding es
  | .setEntry _ _ :: es => outstanding es

/-- The table or frame at the end of a path. -/
def Machine.node (s : Machine) (p : List Word) : Option Word :=
  walk (child s.mem) s.pageTable.l4Table p

/-- The outstanding frames are the nodes of the page tables, each on one path. -/
structure TablesInv (managed : List Word) (limit : Word) (s : Machine) (P : Pool) : Prop where
  pool : PoolInv managed limit s.mem (outstanding s.events) P
  pages_ne : P.pages ≠ []
  cr3 : s.cr3 = s.pageTable.l4Table
  owns : Owns (child s.mem) s.pageTable.l4Table Paths (outstanding s.events)
  identity : ∃ t, s.node [0] = some t ∧ ∀ i < 512, s.mem.load64 (entryPtr t i) = 0x83

/-- In `m'` the entries of the tables are those of `s`, those at the paths `X` excepted. -/
def EntriesKept (s : Machine) (m' : Mem) (X : Set (List Word)) : Prop :=
  ∀ p j n, p ∈ Paths → p.length < 4 → j < 512 → s.node p = some n → p ++ [j] ∉ X →
    m'.load64 (entryPtr n j) = s.mem.load64 (entryPtr n j)

/-- Where the heap can lie: below, addresses are identity mapped, and above, the four
indices repeat. -/
def IsPage (va : Word) : Prop :=
  va.toNat % 4096 = 0 ∧ 2 ^ 39 ≤ va.toNat ∧ va.toNat < 2 ^ 48

/-- The flags of the L1 entry of an address, if its L1 table exists. -/
def Machine.leafFlags (s : Machine) (va : Word) : Option Word :=
  (s.node (tablePath va)).map fun t => flags (s.mem.load64 (entryPtr t (l1Index va)))

/-- The pages of `live` are those allocated and not freed: each is reserved or present,
and no other page is. -/
structure PagesInv (s : Machine) (live : Set Word) : Prop where
  top_aligned : s.kernHeapTop.toNat % 4096 = 0
  base_le : 2 ^ 40 ≤ s.kernHeapTop.toNat
  top_le : s.kernHeapTop.toNat ≤ 2 ^ 48
  range : ∀ va ∈ live, IsPage va ∧ va.toNat < s.kernHeapTop.toNat
  live_flags : ∀ va ∈ live, s.leafFlags va = some 0x200 ∨ s.leafFlags va = some 3
  dead_flags : ∀ va, IsPage va → va ∉ live → s.leafFlags va = none ∨ s.leafFlags va = some 0

structure VmInv (managed : List Word) (limit : Word) (s : Machine) (live : Set Word) (P : Pool) :
    Prop where
  tables : TablesInv managed limit s P
  pages : PagesInv s live

/-- The page keeps its frame, the flags of its L1 entry and its contents. Its L1 table may
be new. -/
structure PageKept (s s' : Machine) (va : Word) : Prop where
  node : s'.node (pathOf va) = s.node (pathOf va)
  flags : s'.leafFlags va = s.leafFlags va ∨ (s.leafFlags va = none ∧ s'.leafFlags va = some 0)
  contents : ∀ f, s.node (pathOf va) = some f → Set.EqOn s'.mem s.mem (frame f)

/-- All pages outside of `X` are kept. -/
def PagesKept (X : Set Word) (s s' : Machine) : Prop := ∀ va, IsPage va → va ∉ X → PageKept s s' va

variable {managed : List Word} {limit t f i j : Word} {s s' : Machine} {P Q : Pool} {m' : Mem}
  {p q l : List Word} {X : Set (List Word)} {n va : Word} {Y Z : Set Word}

theorem TablesInv.node_mem (h : TablesInv managed limit s P) (hp : p ∈ Paths)
    (hn : s.node p = some n) : n ∈ outstanding s.events :=
  (h.owns.mem_iff n).mpr ⟨p, hp, hn⟩

theorem TablesInv.node_aligned (h : TablesInv managed limit s P) (hp : p ∈ Paths)
    (hn : s.node p = some n) : Aligned n :=
  h.pool.out_aligned (h.node_mem hp hn)

theorem TablesInv.node_ne_zero (h : TablesInv managed limit s P) (hp : p ∈ Paths)
    (hn : s.node p = some n) : n ≠ 0 := by
  rintro rfl
  exact h.pool.zero (h.pool.mem_managed.mpr (Or.inr (h.node_mem hp hn)))

theorem TablesInv.node_not_free (h : TablesInv managed limit s P) (hp : p ∈ Paths)
    (hn : s.node p = some n) : n ∉ P.free :=
  h.pool.out_not_free (h.node_mem hp hn)

theorem EntriesKept.child_eq (h : EntriesKept s m' X) (hp : p ++ [j] ∈ Paths)
    (hn : s.node p = some n) (hX : p ++ [j] ∉ X) : child m' n j = child s.mem n j := by
  refine child_congr (h p j n (prefixClosed_paths p [j] hp) ?_ (index_lt_of_mem_paths hp) hn hX)
  have hlen := hp.1
  rw [List.length_append, List.length_singleton] at hlen
  omega

theorem span_entryPtr_subset (hi : i < 512) : span (entryPtr t i) 8 ⊆ frame t :=
  span_slot_subset (isSlot_entry hi)

/-- A change in one entry and in frames that hold no table. -/
theorem TablesInv.entriesKept (h : TablesInv managed limit s P) (hx : q ++ [i] ∈ Paths)
    (hq : s.node q = some t)
    (hl : ∀ c ∈ l, Aligned c ∧ ∀ p ∈ Paths, p.length < 4 → s.node p ≠ some c)
    (he : Set.EqOn m' s.mem (frames l ∪ span (entryPtr t i) 8)ᶜ) :
    EntriesKept s m' {q ++ [i]} := by
  intro p j n hp hlen hj hn hX
  have hqp := prefixClosed_paths q [i] hx
  have hna := h.node_aligned hp hn
  have hnl : n ∉ l := fun hm => (hl n hm).2 p hp hlen hn
  have hne : n ≠ t ∨ 8 * j ≠ 8 * i := by
    by_cases hnt : n = t
    · subst hnt
      obtain rfl := h.owns.unique p hp q hqp n hn hq
      refine Or.inr (entry_slot_ne hj (index_lt_of_mem_paths hx) ?_)
      rintro rfl
      exact hX rfl
    · exact Or.inl hnt
  refine load64_congr (he.mono ?_)
  intro a ha hbad
  rcases hbad with hf | hs
  · exact frame_subset_compl_frames hna (fun c hc => (hl c hc).1) hnl
      (span_entryPtr_subset hj ha) hf
  · exact Set.disjoint_left.mp (disjoint_slot hna (h.node_aligned hqp hq) (isSlot_entry hj)
      (isSlot_entry (index_lt_of_mem_paths hx)) hne) ha hs

/-- The frame of a page is not among those that changed. -/
theorem TablesInv.contentsKept (h : TablesInv managed limit s P) (hqp : q ∈ Paths)
    (hlen : q.length < 4) (hq : s.node q = some t) (hi : i < 512) (hl : ∀ c ∈ l, Aligned c)
    (he : Set.EqOn m' s.mem (frames l ∪ span (entryPtr t i) 8)ᶜ) (hp : p ∈ Paths)
    (h4 : p.length = 4) (hf : s.node p = some f) (hfl : f ∉ l) : Set.EqOn m' s.mem (frame f) := by
  have hfa := h.node_aligned hp hf
  have hne : f ≠ t := by
    rintro rfl
    have := h.owns.unique p hp q hqp f hf hq
    rw [← this] at hlen
    omega
  refine he.mono ?_
  intro a ha hbad
  rcases hbad with hm | hs
  · exact frame_subset_compl_frames hfa hl hfl ha hm
  · exact Set.disjoint_left.mp (disjoint_frame hfa (h.node_aligned hqp hq) hne) ha
      (span_entryPtr_subset hi hs)

theorem TablesInv.free_frames (h : TablesInv managed limit s P) :
    ∀ c ∈ 0 :: P.free, Aligned c ∧ ∀ p ∈ Paths, p.length < 4 → s.node p ≠ some c := by
  intro c hc
  rcases List.mem_cons.mp hc with rfl | hc
  · exact ⟨aligned_zero, fun p hp _ hn => h.node_ne_zero hp hn rfl⟩
  · exact ⟨h.pool.wf.aligned c hc, fun p hp _ hn => h.node_not_free hp hn hc⟩

theorem TablesInv.node_not_mem_free (h : TablesInv managed limit s P) (hp : p ∈ Paths)
    (hn : s.node p = some n) : n ∉ 0 :: P.free := by
  intro hm
  rcases List.mem_cons.mp hm with rfl | hm
  · exact h.node_ne_zero hp hn rfl
  · exact h.node_not_free hp hn hm

theorem length_lt_of_snoc (h : q ++ [i] ∈ Paths) : q.length < 4 := by
  have hlen := h.1
  rw [List.length_append, List.length_singleton] at hlen
  omega

/-- The identity mapping and the root stay; the tree is up to the caller. -/
theorem TablesInv.update (h : TablesInv managed limit s P)
    (hpool : PoolInv managed limit s'.mem (outstanding s'.events) Q) (hne : Q.pages ≠ [])
    (hpt : s'.pageTable = s.pageTable) (hcr3 : s'.cr3 = s.cr3) (hk : EntriesKept s s'.mem X)
    (hX : ∀ x ∈ X, x ∈ Paths ∧ x ≠ [0])
    (howns : Owns (child s'.mem) s.pageTable.l4Table Paths (outstanding s'.events)) :
    TablesInv managed limit s' Q := by
  obtain ⟨t, ht, hid⟩ := h.identity
  refine ⟨hpool, hne, ?_, ?_, t, ?_, fun j hj => ?_⟩
  · rw [hpt, hcr3]
    exact h.cr3
  · rw [hpt]
    exact howns
  · have hroot : child s'.mem s.pageTable.l4Table 0 = child s.mem s.pageTable.l4Table 0 :=
      hk.child_eq (p := []) zero_mem_paths rfl fun hm => (hX _ hm).2 rfl
    rw [Machine.node, walk_singleton] at ht ⊢
    rw [hpt, hroot, ht]
  · have hkept := hk [0] j t zero_mem_paths (by simp) hj ht fun hm => by
      have := (hX _ hm).1.2.2 (by simp)
      simp at this
    rw [hkept]
    exact hid j hj

/-- One changed entry with nothing below it is one changed edge of the tree. -/
theorem TablesInv.updates (hx : q ++ [i] ∈ Paths)
    (hq : s.node q = some t) (hk : EntriesKept s m' {q ++ [i]})
    (hbelow : ∀ j, q ++ [i] ++ [j] ∈ Paths →
      (child s.mem t i).bind (fun n => child s.mem n j) = none ∧
        (child m' t i).bind (fun n => child m' n j) = none) :
    Updates (child s.mem) (child m') s.pageTable.l4Table Paths (q ++ [i]) (child m' t i) :=
  updates_of_agree prefixClosed_paths hq (fun _ _ _ hp hn hne => hk.child_eq hp hn hne)
    (prefixClosed_paths q [i] hx) rfl hbelow

theorem not_mem_paths_of_length (h : 4 ≤ p.length) : p ++ [j] ∉ Paths := by
  intro hp
  have hlen := hp.1
  rw [List.length_append, List.length_singleton] at hlen
  omega

theorem TablesInv.ne_identity (h : TablesInv managed limit s P) (hnone : s.node p = none) :
    p ≠ [0] := by
  rintro rfl
  obtain ⟨t, ht, -⟩ := h.identity
  rw [ht] at hnone
  exact Option.some_ne_none t hnone

theorem TablesInv.link (h : TablesInv managed limit s P) (s' : Machine) (hx : q ++ [i] ∈ Paths)
    (hq : s.node q = some t) (hi : child s.mem t i = none) (hf : f ∈ P.free)
    (hpool : PoolInv managed limit s'.mem (f :: outstanding s.events) Q) (hne : Q.pages ≠ [])
    (hout : outstanding s'.events = f :: outstanding s.events)
    (hpt : s'.pageTable = s.pageTable) (hcr3 : s'.cr3 = s.cr3)
    (hk : EntriesKept s s'.mem {q ++ [i]}) (hnew : child s'.mem t i = some f)
    (hzero : ∀ j, q ++ [i] ++ [j] ∈ Paths → child s'.mem f j = none) :
    TablesInv managed limit s' Q ∧ s'.node (q ++ [i]) = some f ∧
      ∀ p ∈ Paths, p ≠ q ++ [i] → s'.node p = s.node p := by
  have hu : Updates (child s.mem) (child s'.mem) s.pageTable.l4Table Paths (q ++ [i]) (some f) := by
    rw [← hnew]
    refine TablesInv.updates hx hq hk fun j hj => ⟨by rw [hi, Option.bind_none], ?_⟩
    rw [hnew, Option.bind_some]
    exact hzero j hj
  have hold : s.node (q ++ [i]) = none := (walk_snoc_of_some hq).trans hi
  have hfresh : f ∉ outstanding s.events := fun hm => h.pool.out_not_free hm hf
  have howns := h.owns.link hu hx hold hfresh
  rw [← hout] at hpool howns
  refine ⟨h.update hpool hne hpt hcr3 hk ?_ howns, ?_, ?_⟩
  · rintro x rfl
    exact ⟨hx, h.ne_identity hold⟩
  · rw [Machine.node, hpt]
    exact hu.1
  · intro p hp hpx
    rw [Machine.node, hpt]
    exact hu.2 p hp hpx

theorem TablesInv.unlink (h : TablesInv managed limit s P) (s' : Machine) (hx : q ++ [i] ∈ Paths)
    (hlen : q.length = 3) (hq : s.node q = some t) (hi : child s.mem t i = some f)
    (hpool : PoolInv managed limit s'.mem ((outstanding s.events).erase f) Q) (hne : Q.pages ≠ [])
    (hout : outstanding s'.events = (outstanding s.events).erase f)
    (hpt : s'.pageTable = s.pageTable) (hcr3 : s'.cr3 = s.cr3)
    (hk : EntriesKept s s'.mem {q ++ [i]}) (hnew : child s'.mem t i = none) :
    TablesInv managed limit s' Q ∧ s'.node (q ++ [i]) = none ∧
      ∀ p ∈ Paths, p ≠ q ++ [i] → s'.node p = s.node p := by
  have hleaf : ∀ j, q ++ [i] ++ [j] ∉ Paths := fun j => not_mem_paths_of_length (by simp [hlen])
  have hu : Updates (child s.mem) (child s'.mem) s.pageTable.l4Table Paths (q ++ [i]) none := by
    rw [← hnew]
    exact TablesInv.updates hx hq hk fun j hj => absurd hj (hleaf j)
  have hold : s.node (q ++ [i]) = some f := (walk_snoc_of_some hq).trans hi
  have hnd : (outstanding s.events).Nodup :=
    (List.nodup_append.mp (h.pool.perm.nodup_iff.mpr h.pool.nodup)).2.1
  have howns := h.owns.unlink hnd hu hx hold
  rw [← hout] at hpool howns
  refine ⟨h.update hpool hne hpt hcr3 hk ?_ howns, ?_, ?_⟩
  · rintro x rfl
    refine ⟨hx, fun he => ?_⟩
    have := congrArg List.length he
    simp [hlen] at this
  · rw [Machine.node, hpt]
    exact hu.1
  · intro p hp hpx
    rw [Machine.node, hpt]
    exact hu.2 p hp hpx

/-- Entries may change as long as none becomes present or stops being so. -/
theorem TablesInv.of_child_eq (h : TablesInv managed limit s P) (s' : Machine)
    (hpool : PoolInv managed limit s'.mem (outstanding s.events) P)
    (hout : outstanding s'.events = outstanding s.events)
    (hpt : s'.pageTable = s.pageTable) (hcr3 : s'.cr3 = s.cr3)
    (hk : EntriesKept s s'.mem X) (hX : ∀ x ∈ X, x ∈ Paths ∧ x ≠ [0])
    (hc : ∀ p j n, p ++ [j] ∈ X → s.node p = some n → child s'.mem n j = child s.mem n j) :
    TablesInv managed limit s' P ∧ ∀ p ∈ Paths, s'.node p = s.node p := by
  have hw : ∀ p ∈ Paths, walk (child s'.mem) s.pageTable.l4Table p = s.node p := by
    intro p hp
    refine walk_eq_of_agree (X := ∅) prefixClosed_paths (fun p j n hp hn _ => ?_) hp (by simp)
    by_cases hm : p ++ [j] ∈ X
    · exact hc p j n hm hn
    · exact hk.child_eq hp hn hm
  have howns := h.owns.congr hw
  rw [← hout] at hpool howns
  refine ⟨h.update hpool h.pages_ne hpt hcr3 hk hX howns, fun p hp => ?_⟩
  rw [Machine.node, hpt]
  exact hw p hp

/-! Pages. -/

theorem IsPage.l4Index_ne_zero (h : IsPage va) : (va >>> 39) &&& 0x1FF ≠ 0 := by
  obtain ⟨-, hlo, hhi⟩ := h
  rw [Ne, l4Index_eq_zero]
  omega

theorem IsPage.umod_eq_zero (h : IsPage va) : va % pageSize = 0 := umod_pageSize_eq_zero.mpr h.1

theorem IsPage.pathOf_mem (h : IsPage va) : pathOf va ∈ Paths := pathOf_mem_paths h.l4Index_ne_zero

theorem IsPage.tablePath_mem (h : IsPage va) : tablePath va ∈ Paths :=
  prefixClosed_paths _ [l1Index va] h.pathOf_mem

theorem leafFlags_of_node (h : s.node (tablePath va) = some t) :
    s.leafFlags va = some (flags (s.mem.load64 (entryPtr t (l1Index va)))) := by
  rw [Machine.leafFlags, h, Option.map_some]

theorem leafFlags_eq_some {v : Word} (h : s.leafFlags va = some v) :
    ∃ t, s.node (tablePath va) = some t ∧ flags (s.mem.load64 (entryPtr t (l1Index va))) = v :=
  Option.map_eq_some_iff.mp h

theorem leafFlags_present (h : s.leafFlags va = some 3) :
    ∃ t f, s.node (tablePath va) = some t ∧ child s.mem t (l1Index va) = some f ∧
      flags (s.mem.load64 (entryPtr t (l1Index va))) = 3 := by
  obtain ⟨t, ht, hfl⟩ := leafFlags_eq_some h
  refine ⟨t, _, ht, child_of_present ?_, hfl⟩
  rw [present_iff_flags, hfl]
  decide

theorem leafFlags_kept (hk : EntriesKept s s'.mem X) (hva : IsPage va)
    (hn : s'.node (tablePath va) = s.node (tablePath va)) (hX : pathOf va ∉ X) :
    s'.leafFlags va = s.leafFlags va := by
  cases ht : s.node (tablePath va) with
  | none => simp [Machine.leafFlags, hn, ht]
  | some t =>
    have hload := hk (tablePath va) (l1Index va) t hva.tablePath_mem (by simp [tablePath])
      (index_lt _ _) ht hX
    rw [leafFlags_of_node (hn.trans ht), leafFlags_of_node ht, hload]

/-! Pages that a step leaves alone. -/

theorem PageKept.refl (s : Machine) (va : Word) : PageKept s s va :=
  ⟨rfl, Or.inl rfl, fun _ _ => Set.eqOn_refl _ _⟩

theorem PageKept.trans {u : Machine} (h : PageKept s s' va) (h' : PageKept s' u va) :
    PageKept s u va := by
  refine ⟨h'.node.trans h.node, ?_, fun f hf => ?_⟩
  · rcases h'.flags with he' | ⟨hn', hz'⟩
    · rw [he']
      exact h.flags
    · rcases h.flags with he | ⟨-, hz⟩
      · exact Or.inr ⟨he ▸ hn', hz'⟩
      · simp [hn'] at hz
  · exact (h'.contents f (h.node.trans hf)).trans (h.contents f hf)

theorem PageKept.flags_iff (h : PageKept s s' va) {v : Word} (hv : v ≠ 0) :
    s'.leafFlags va = some v ↔ s.leafFlags va = some v := by
  rcases h.flags with he | ⟨hn, hz⟩
  · rw [he]
  · simpa [hn, hz] using hv.symm

theorem PageKept.live_flags (h : PageKept s s' va)
    (hl : s.leafFlags va = some 0x200 ∨ s.leafFlags va = some 3) :
    s'.leafFlags va = some 0x200 ∨ s'.leafFlags va = some 3 :=
  hl.imp (h.flags_iff (by decide)).mpr (h.flags_iff (by decide)).mpr

theorem PageKept.dead_flags (h : PageKept s s' va)
    (hl : s.leafFlags va = none ∨ s.leafFlags va = some 0) :
    s'.leafFlags va = none ∨ s'.leafFlags va = some 0 := by
  rcases h.flags with he | ⟨-, hz⟩
  · rwa [he]
  · exact Or.inr hz

theorem PagesKept.refl (s : Machine) : PagesKept Y s s := fun va _ _ => PageKept.refl s va

theorem PagesKept.trans {u : Machine} (h : PagesKept Y s s') (h' : PagesKept Z s' u) :
    PagesKept (Y ∪ Z) s u := fun va hva hm =>
  (h va hva fun hy => hm (Or.inl hy)).trans (h' va hva fun hz => hm (Or.inr hz))

theorem PagesKept.mono (h : PagesKept Y s s') (hsub : Y ⊆ Z) : PagesKept Z s s' :=
  fun va hva hm => h va hva fun hy => hm (hsub hy)

/-- One L1 entry changed, that of `va`. -/
theorem PagesKept.of_leaf (hk : EntriesKept s s'.mem {pathOf va}) (hva : IsPage va)
    (hnode : ∀ p ∈ Paths, p ≠ pathOf va → s'.node p = s.node p)
    (hc : ∀ vb f, IsPage vb → vb ≠ va → s.node (pathOf vb) = some f →
      Set.EqOn s'.mem s.mem (frame f)) : PagesKept {va} s s' := by
  intro vb hvb hne
  have hpath : pathOf vb ≠ pathOf va := fun he =>
    hne (pathOf_injOn hvb.1 hva.1 hvb.2.2 hva.2.2 he)
  have htable : tablePath vb ≠ pathOf va := by
    intro he
    have := congrArg List.length he
    simp [tablePath, pathOf] at this
  exact ⟨hnode _ hvb.pathOf_mem hpath, Or.inl (leafFlags_kept hk hvb
    (hnode _ hvb.tablePath_mem htable) hpath), fun f => hc vb f hvb hne⟩

theorem TablesInv.setLeaf (h : TablesInv managed limit s P) (s' : Machine) (hva : IsPage va)
    (ht : s.node (tablePath va) = some t) (hold : child s.mem t (l1Index va) = none) {v : Word}
    (hv : isNextPagePresent v = false)
    (hmem : s'.mem = s.mem.store64 (entryPtr t (l1Index va)) v)
    (hout : outstanding s'.events = outstanding s.events)
    (hpt : s'.pageTable = s.pageTable) (hcr3 : s'.cr3 = s.cr3) :
    TablesInv managed limit s' P ∧ (∀ p ∈ Paths, s'.node p = s.node p) ∧
      s'.leafFlags va = some (flags v) ∧ PagesKept {va} s s' := by
  have hx : tablePath va ++ [l1Index va] ∈ Paths := hva.pathOf_mem
  have hnew : s'.mem.load64 (entryPtr t (l1Index va)) = v := by
    rw [hmem, load64_store64_self]
  have heq : Set.EqOn s'.mem s.mem (span (entryPtr t (l1Index va)) 8)ᶜ := by
    rw [hmem]
    exact store64_eqOn_compl _ _ _
  have hpool : PoolInv managed limit s'.mem (outstanding s.events) P := by
    refine h.pool.of_eqOn (heq.mono (Set.compl_subset_compl.mpr ?_))
    exact (span_entryPtr_subset (l1Index_lt va)).trans
      (frame_subset_frames (h.node_mem hva.tablePath_mem ht))
  have hk : EntriesKept s s'.mem {tablePath va ++ [l1Index va]} :=
    h.entriesKept (l := []) hx ht (by simp) (heq.mono fun a ha hs => ha (Or.inr hs))
  have hchild : child s'.mem t (l1Index va) = none := by
    rw [child_eq_none_iff, hnew]
    exact hv
  obtain ⟨htab, hnode⟩ := h.of_child_eq s' hpool hout hpt hcr3 hk
    (by
      rintro x rfl
      refine ⟨hx, fun he => ?_⟩
      simp [tablePath] at he)
    (by
      intro p j n hp hn
      obtain ⟨rfl, hj⟩ := List.append_inj' (Set.mem_singleton_iff.mp hp) rfl
      obtain rfl : j = l1Index va := by simpa using hj
      obtain rfl : t = n := Option.some.inj (ht.symm.trans hn)
      rw [hchild, hold])
  refine ⟨htab, hnode, ?_, PagesKept.of_leaf hk hva (fun p hp _ => hnode p hp) ?_⟩
  · rw [leafFlags_of_node ((hnode _ hva.tablePath_mem).trans ht), hnew]
  · intro vb f hvb _ hf
    exact h.contentsKept (l := []) hva.tablePath_mem (by simp [tablePath]) ht (l1Index_lt va)
      (by simp) (heq.mono fun a ha hs => ha (Or.inr hs)) hvb.pathOf_mem (by simp [pathOf]) hf
      (by simp)

end SkipOS
