import SkipOS.VmFault
import SkipOS.VmFree
import SkipOS.VmInit
import Mathlib.Data.Finset.Union

/-! Runs of the virtual page allocator after `MMU_init_vp`, with page faults anywhere and
clients writing to the pages they have. -/

namespace SkipOS

open Mem Exec Walk

inductive VmCall where
  | allocPages (num : Word)
  | freePages (vp num : Word)
  | pageFault (addr : Word)
  | write (a : Word) (v : Byte)

/-- `fuel` bounds the rounds for each page that is allocated. -/
def VmCall.exec (fuel : Nat) : VmCall → Exec Machine Unit
  | .allocPages num => do
    let _ ← mmuAllocPages fuel num
    return ()
  | .freePages vp num => mmuFreePages vp num
  | .pageFault addr => do
    modify fun s => { s with cr2 := addr }
    pageFaultHandler pfIntNum
  | .write a v => modify fun s => { s with mem := s.mem.storeByte a v }

/-- Ranges that are freed are allocated, and bytes that are written belong to a page. -/
def VmCall.Allowed (s : Machine) (live : Set Word) : VmCall → Prop
  | .allocPages _ => True
  | .freePages vp num => ∀ k < num.toNat, vp + BitVec.ofNat 64 (4096 * k) ∈ live
  | .pageFault _ => True
  | .write a _ => ∃ va ∈ live, ∃ f, s.node (pathOf va) = some f ∧ a ∈ frame f

/-- The pages allocated and not freed after the call. -/
def VmCall.live (s : Machine) (live : Set Word) : VmCall → Set Word
  | .allocPages num => live ∪ pageRange s.kernHeapTop num.toNat
  | .freePages vp num => live \ pageRange vp num.toNat
  | .pageFault _ => live
  | .write _ _ => live

/-- Paths to the tables on the way to a page. -/
def tablePrefixes (va : Word) : Finset (List Word) := (tablePath va).inits.toFinset.erase []

/-- Paths to the tables on the way to `n` pages from `base` on. -/
def rangeTables (base : Word) (n : Nat) : Finset (List Word) :=
  {k ∈ Finset.range n | base.toNat + 4096 * k < 2 ^ 48}.biUnion fun k =>
    tablePrefixes (base + BitVec.ofNat 64 (4096 * k))

/-- The frames the call asks for can be had: fewer tables are missing than frames are free,
and a fault on a reserved page finds more than one free frame. -/
def VmCall.Supplied (managed : List Word) (s : Machine) : VmCall → Prop
  | .allocPages num => Enough managed (rangeTables s.kernHeapTop num.toNat) s
  | .freePages _ _ => True
  | .pageFault addr => s.leafFlags (addr - addr % pageSize) = some 0x200 →
    1 + (outstanding s.events).length < managed.length
  | .write _ _ => True

/-- A call that is allowed and meets `C` returns. -/
inductive VmStep (C : Machine → VmCall → Prop) : Machine × Set Word → Machine × Set Word → Prop
  | call {s s' : Machine} {live : Set Word} (c : VmCall) (fuel : Nat) (hal : c.Allowed s live)
      (hc : C s c) (hrun : c.exec fuel s = .ok () s') : VmStep C (s, live) (s', c.live s live)

abbrev VmRun (C : Machine → VmCall → Prop) := Relation.ReflTransGen (VmStep C)

variable {managed : List Word} {limit f va a vp num : Word} {s s' : Machine} {P Q : Pool}
  {live : Set Word} {p : List Word} {v : Byte} {n : Nat} {c : VmCall}

theorem mem_tablePrefixes : p ∈ tablePrefixes va ↔ p <+: tablePath va ∧ p ≠ [] := by
  rw [tablePrefixes, Finset.mem_erase, List.mem_toFinset, List.mem_inits, and_comm]

theorem mem_rangeTables {base : Word} : p ∈ rangeTables base n ↔
    ∃ k < n, base.toNat + 4096 * k < 2 ^ 48 ∧
      p <+: tablePath (base + BitVec.ofNat 64 (4096 * k)) ∧ p ≠ [] := by
  simp only [rangeTables, Finset.mem_biUnion, Finset.mem_filter, Finset.mem_range,
    mem_tablePrefixes, and_assoc]

theorem PagesInv.rangeTables_subset (h : PagesInv s live) :
    ∀ p ∈ rangeTables s.kernHeapTop n, p ∈ Paths := by
  intro p hp
  obtain ⟨k, -, hlt, ⟨rest, hrest⟩, -⟩ := mem_rangeTables.mp hp
  have hal := h.top_aligned
  have hlo := h.base_le
  have hpage : IsPage (s.kernHeapTop + BitVec.ofNat 64 (4096 * k)) := by
    have hn : (s.kernHeapTop + BitVec.ofNat 64 (4096 * k)).toNat =
        s.kernHeapTop.toNat + 4096 * k := by
      bv_omega
    exact ⟨by omega, by omega, by omega⟩
  exact prefixClosed_paths p rest (hrest ▸ hpage.tablePath_mem)

/-- The invariant does not read `CR2`, the TLB or the record beyond the outstanding frames. -/
theorem VmInv.of_eq (h : VmInv managed limit s live P) (hmem : s'.mem = s.mem)
    (hpt : s'.pageTable = s.pageTable) (htop : s'.kernHeapTop = s.kernHeapTop)
    (hcr3 : s'.cr3 = s.cr3) (hev : s'.events = s.events) : VmInv managed limit s' live P := by
  obtain ⟨m, pt, top, cr2, cr3, tlb, evs⟩ := s
  obtain ⟨m', pt', top', cr2', cr3', tlb', evs'⟩ := s'
  dsimp only at hmem hpt htop hcr3 hev
  subst hmem hpt htop hcr3 hev
  exact ⟨⟨h.tables.pool, h.tables.pages_ne, h.tables.cr3, h.tables.owns, h.tables.identity⟩,
    ⟨h.pages.top_aligned, h.pages.base_le, h.pages.top_le, h.pages.range, h.pages.live_flags,
      h.pages.dead_flags⟩⟩

theorem mmuAllocPages_spec (fuel : Nat) (h : VmInv managed limit s live P)
    {r : EStateM.Result Stop Machine Word} (hr : mmuAllocPages fuel num s = r) :
    (GotNull s (final r) ∧ ¬ Enough managed (rangeTables s.kernHeapTop num.toNat) s) ∨
      ∃ live' Q, VmInv managed limit (final r) live' Q ∧ Safely s (final r) ∧
        ((r = .ok s.kernHeapTop (final r) ∧
            live' = live ∪ pageRange s.kernHeapTop num.toNat ∧ Grown num.toNat s (final r)) ∨
          (∃ e, r = .error e (final r) ∧
            (fuel < 3 ∨ 2 ^ 48 < s.kernHeapTop.toNat + 4096 * num.toNat))) := by
  rw [mmuAllocPages, bind_get] at hr
  have hT : ∀ k < num.toNat, s.kernHeapTop.toNat + 4096 * k < 2 ^ 48 →
      ∀ p, p <+: tablePath (s.kernHeapTop + BitVec.ofNat 64 (4096 * k)) → p ≠ [] →
        p ∈ rangeTables s.kernHeapTop num.toNat :=
    fun k hk hlt p hp hne => mem_rangeTables.mpr ⟨k, hk, hlt, hp, hne⟩
  rcases allocPagesLoop_spec fuel h.pages.rangeTables_subset h hT rfl with
    ⟨hnull, hno⟩ | ⟨live', Q, hinv, hsafe, ⟨hok, hlive⟩ | ⟨e, he, hwhy⟩⟩
  · left
    rw [← hr]
    exact ⟨hnull.bind fun _ => Moves.pure Grows.refl _, hno⟩
  · right
    rw [bind_of_ok hok] at hr
    subst hr
    exact ⟨live', Q, hinv, hsafe, Or.inl ⟨rfl, hlive⟩⟩
  · right
    rw [bind_of_error he] at hr
    subst hr
    exact ⟨live', Q, hinv, hsafe, Or.inr ⟨e, rfl, hwhy⟩⟩

theorem mmuFreePages_spec (h : VmInv managed limit s live P) (hnum : 0 < num)
    (hal : ∀ k < num.toNat, vp + BitVec.ofNat 64 (4096 * k) ∈ live) :
    ∃ s', mmuFreePages vp num s = .ok () s' ∧
      Freed managed limit vp (live \ pageRange vp num.toNat) P (AnyPresent s vp num.toNat)
        (s.framesOf num.toNat vp) (pageRange vp num.toNat) s s' := by
  have hvp : vp ∈ live := by
    have := hal 0 (by bv_omega)
    simpa using this
  obtain ⟨s', hrun, hfreed⟩ := freePagesLoop_spec vp none h hal
  refine ⟨s', ?_, hfreed⟩
  rw [mmuFreePages, bind_assert_of (h.pages.range vp hvp).1.umod_eq_zero, bind_assert_of hnum, hrun]

/-- The frame of one page changed, and no entry. -/
theorem VmInv.writeFrame (h : VmInv managed limit s live P) (hva : IsPage va)
    (hf : s.node (pathOf va) = some f) {m : Mem} (heq : Set.EqOn m s.mem (frame f)ᶜ) :
    VmInv managed limit { s with mem := m } live P ∧
      (∀ p ∈ Paths, Machine.node { s with mem := m } p = s.node p) ∧
      (∀ vb, IsPage vb → Machine.leafFlags { s with mem := m } vb = s.leafFlags vb) := by
  have hk : EntriesKept s m ∅ := by
    intro p j n hp hlen hj hn _
    have hne : n ≠ f := by
      rintro rfl
      have := h.tables.owns.unique p hp _ hva.pathOf_mem n hn hf
      rw [this] at hlen
      simp [pathOf] at hlen
    refine load64_congr (heq.mono ((span_entryPtr_subset hj).trans ?_))
    exact Set.subset_compl_iff_disjoint_right.mpr
      (disjoint_frame (h.tables.node_aligned hp hn) (h.tables.node_aligned hva.pathOf_mem hf) hne)
  have hpool : PoolInv managed limit m (outstanding s.events) P :=
    h.tables.pool.of_eqOn (heq.mono (Set.compl_subset_compl.mpr
      (frame_subset_frames (h.tables.node_mem hva.pathOf_mem hf))))
  obtain ⟨htab, hnode⟩ := h.tables.of_child_eq { s with mem := m } hpool rfl rfl rfl hk (by simp)
    (by simp)
  have hflags : ∀ vb, IsPage vb → Machine.leafFlags { s with mem := m } vb = s.leafFlags vb :=
    fun vb hvb => leafFlags_kept hk hvb (hnode _ hvb.tablePath_mem) (by simp)
  exact ⟨⟨htab, h.pages.of_leafFlags rfl fun vb hvb => Or.inl (hflags vb hvb)⟩, hnode, hflags⟩

theorem VmInv.writeFrame_kept (h : VmInv managed limit s live P) (hva : IsPage va)
    (hf : s.node (pathOf va) = some f) {m : Mem} (heq : Set.EqOn m s.mem (frame f)ᶜ) :
    PagesKept {va} s { s with mem := m } := by
  obtain ⟨-, hnode, hflags⟩ := h.writeFrame hva hf heq
  intro vb hvb hne
  refine ⟨hnode _ hvb.pathOf_mem, Or.inl (hflags vb hvb), fun g hg => heq.mono ?_⟩
  have hgf : g ≠ f := by
    rintro rfl
    exact hne (pathOf_injOn hvb.1 hva.1 hvb.2.2 hva.2.2
      (h.tables.owns.unique _ hvb.pathOf_mem _ hva.pathOf_mem g hg hf))
  exact Set.subset_compl_iff_disjoint_right.mpr
    (disjoint_frame (h.tables.node_aligned hvb.pathOf_mem hg)
      (h.tables.node_aligned hva.pathOf_mem hf) hgf)

theorem storeByte_eqOn_frame (ha : a ∈ frame f) (v : Byte) (m : Mem) :
    Set.EqOn (m.storeByte a v) m (frame f)ᶜ := by
  intro b hb
  have hba : b ≠ a := by
    rintro rfl
    exact hb ha
  simp [storeByte, hba]

theorem VmInv.write (h : VmInv managed limit s live P) (hva : va ∈ live)
    (hf : s.node (pathOf va) = some f) (ha : a ∈ frame f) :
    VmInv managed limit { s with mem := s.mem.storeByte a v } live P := by
  exact (h.writeFrame (h.pages.range va hva).1 hf (storeByte_eqOn_frame ha v s.mem)).1

theorem grows_exec (fuel : Nat) (c : VmCall) : Moves Grows (c.exec fuel) := by
  cases c with
  | allocPages num =>
    exact grows_bind (grows_mmuAllocPages fuel num) fun _ => Moves.pure Grows.refl _
  | freePages vp num => exact (shoots_mmuFreePages vp num).mono fun _ _ h => h.grows
  | pageFault addr =>
    exact grows_bind (Moves.modify fun s => List.suffix_rfl) fun _ =>
      grows_of_quiet (quiet_pageFaultHandler _)
  | write a v => exact Moves.modify fun s => List.suffix_rfl

theorem Safely.of_events_eq (h : s'.events = s.events) : Safely s s' := ⟨[], h, by simp⟩

/-- A call, whether or not it returns: either a frame was wanted that the call was not
supplied with, or the invariant holds afterwards and nothing unsafe was done. -/
theorem VmCall.spec (fuel : Nat) (h : VmInv managed limit s live P) (hal : c.Allowed s live)
    {r : EStateM.Result Stop Machine Unit} (hr : c.exec fuel s = r) :
    (GotNull s (final r) ∧ ¬ c.Supplied managed s) ∨
      ∃ live' Q, VmInv managed limit (final r) live' Q ∧ Safely s (final r) ∧
        (r = .ok () (final r) → live' = c.live s live) := by
  cases c with
  | allocPages num =>
    rw [VmCall.exec] at hr
    rcases mmuAllocPages_spec fuel h rfl with ⟨hnull, hno⟩ | ⟨live', Q, hinv, hsafe, hout⟩
    · left
      rw [← hr]
      exact ⟨hnull.bind fun _ => Moves.pure Grows.refl _, hno⟩
    · right
      rcases hout with ⟨hok, hlive⟩ | ⟨e, he, -⟩
      · rw [bind_of_ok hok] at hr
        subst hr
        exact ⟨live', Q, hinv, hsafe, fun _ => hlive.1⟩
      · rw [bind_of_error he] at hr
        subst hr
        exact ⟨live', Q, hinv, hsafe, by simp⟩
  | freePages vp num =>
    right
    rw [VmCall.exec] at hr
    by_cases hnum : 0 < num
    · obtain ⟨s', hrun, hfreed⟩ := mmuFreePages_spec h hnum hal
      rw [hrun] at hr
      subst hr
      exact ⟨_, _, hfreed.inv, hfreed.safely, fun _ => rfl⟩
    · have herr : r = .error .assert s := by
        rw [← hr, mmuFreePages]
        by_cases hvp : vp % pageSize = 0
        · rw [bind_assert_of hvp, bind_assert_not hnum]
        · rw [bind_assert_not hvp]
      rw [herr]
      exact ⟨live, P, h, Safely.refl s, by simp⟩
  | pageFault addr =>
    have hcr2 : VmInv managed limit { s with cr2 := addr } live P := h.of_eq rfl rfl rfl rfl rfl
    rw [VmCall.exec, bind_modify] at hr
    rcases pageFaultHandler_spec hcr2 hr with ⟨e, he⟩ | ⟨hfl, ⟨hone, hnull⟩ | ⟨hok, f, hfault⟩⟩
    · right
      rw [he]
      exact ⟨live, P, hcr2, Safely.of_events_eq rfl, by simp⟩
    · left
      refine ⟨(Safely.of_events_eq rfl).gotNull hnull, fun hsup => ?_⟩
      have hlen := h.tables.length_free
      have := hsup hfl
      omega
    · obtain ⟨Q, hQ⟩ := hfault.inv
      exact Or.inr ⟨live, Q, hQ, (Safely.of_events_eq rfl).trans hfault.safely, fun _ => rfl⟩
  | write a v =>
    right
    obtain ⟨va, hva, f, hf, ha⟩ := hal
    rw [VmCall.exec, modify_apply] at hr
    subst hr
    exact ⟨live, P, h.write hva hf ha, Safely.of_events_eq rfl, fun _ => rfl⟩

theorem VmStep.grows {C : Machine → VmCall → Prop} {x y : Machine × Set Word} (h : VmStep C x y) :
    Grows x.1 y.1 := by
  cases h with
  | call c fuel hal hc hrun =>
    have hg := grows_exec fuel c
    rename_i s s' live
    have := hg s
    rwa [hrun] at this

theorem VmRun.grows {C : Machine → VmCall → Prop} {x y : Machine × Set Word} (h : VmRun C x y) :
    Grows x.1 y.1 := by
  induction h with
  | refl => exact Grows.refl _
  | tail _ hstep ih => exact ih.trans hstep.grows

theorem VmRun.inv_of_not_null {C : Machine → VmCall → Prop} {s0 : Machine}
    (h0 : ∃ P, VmInv managed limit s0 ∅ P) {x : Machine × Set Word} (hrun : VmRun C (s0, ∅) x)
    (hnull : .pfAlloc 0 ∉ x.1.events) : ∃ Q, VmInv managed limit x.1 x.2 Q := by
  induction hrun with
  | refl => exact h0
  | tail _ hstep ih =>
    obtain ⟨P, h⟩ := ih fun hm => hnull (hstep.grows.subset hm)
    cases hstep with
    | call c fuel hal hc hrun =>
      rcases VmCall.spec fuel h hal hrun with ⟨hgot, -⟩ | ⟨live', Q, hinv, -, hlive⟩
      · exact absurd hgot.mem_events hnull
      · rw [hlive rfl] at hinv
        exact ⟨Q, hinv⟩

theorem VmRun.inv_of_booted {C : Machine → VmCall → Prop} {B : BootPool} {s0 : Machine}
    (hboot : Booted B s0) (hrun : VmRun C (s0, ∅) (s, live))
    (hnull : .pfAlloc 0 ∉ s.events) :
    ∃ limit Q, VmInv B.managed limit s live Q := by
  have hgrow : Grows s0 s := VmRun.grows hrun
  obtain ⟨Q, h⟩ := hrun.inv_of_not_null (hboot.inv fun hm => hnull (hgrow.subset hm)) hnull
  exact ⟨_, Q, h⟩

theorem VmRun.inv_of_supplied {s0 : Machine} (h0 : ∃ P, VmInv managed limit s0 ∅ P)
    {x : Machine × Set Word} (hrun : VmRun (fun s c => c.Supplied managed s) (s0, ∅) x) :
    (∃ Q, VmInv managed limit x.1 x.2 Q) ∧ Safely s0 x.1 := by
  induction hrun with
  | refl => exact ⟨h0, Safely.refl s0⟩
  | tail _ hstep ih =>
    obtain ⟨⟨P, h⟩, hsafe⟩ := ih
    cases hstep with
    | call c fuel hal hc hrun =>
      rcases VmCall.spec fuel h hal hrun with ⟨-, hno⟩ | ⟨live', Q, hinv, hs, hlive⟩
      · exact absurd hc hno
      · rw [hlive rfl] at hinv
        exact ⟨⟨Q, hinv⟩, hsafe.trans hs⟩

/-- The machine after one more call. -/
def afterCall (c : VmCall) (s : Machine) : Machine := final (c.exec 3 s)

theorem VmStep.of_returned {C : Machine → VmCall → Prop} (hal : c.Allowed s live) (hc : C s c)
    (h : returned (c.exec 3 s) = some ()) : VmStep C (s, live) (afterCall c s, c.live s live) :=
  .call c 3 hal hc (eq_ok_of_returned h)

end SkipOS
