import SkipOS.PagedOps

/-! The life of a page of the heap, over whole runs of the virtual page allocator: it is new, then
reserved, then resident in one frame, then gone for good. -/

namespace SkipOS

open Mem Exec Walk

inductive PageState where
  | fresh
  | reserved
  | resident (frame : Word)
  | gone
  deriving DecidableEq

namespace PageState

/-- One or more steps of a life, or none. -/
inductive Leads : PageState → PageState → Prop
  | same (p : PageState) : Leads p p
  | allocated (p : PageState) : Leads .fresh p
  | faulted (frame : Word) : Leads .reserved (.resident frame)
  | freed (p : PageState) : Leads p .gone

/-- What the tables say. -/
def status : PageState → PageStatus
  | .fresh => .unmapped
  | .reserved => .reserved
  | .resident frame => .mapped frame
  | .gone => .unmapped

theorem Leads.trans {p q r : PageState} (h : Leads p q) (h' : Leads q r) : Leads p r := by
  cases h with
  | same => exact h'
  | allocated => exact .allocated r
  | faulted frame =>
    cases h' with
    | same => exact .faulted frame
    | freed => exact .freed _
  | freed =>
    cases h' with
    | same => exact .freed p
    | freed => exact .freed p

/-- Between two times at which a page is resident it is so in one frame throughout. -/
theorem Leads.resident_between {p : PageState} {f g : Word} (h : Leads (.resident f) p)
    (h' : Leads p (.resident g)) : p = .resident f ∧ f = g := by
  cases h with
  | same =>
    cases h' with
    | same => exact ⟨rfl, rfl⟩
  | freed => cases h'

end PageState

/-- A page above the heap top is new. One below that is not allocated is gone. -/
noncomputable def pageState (s : Machine) (live : Set Word) (va : Word) : PageState := by
  classical
  exact if s.kernHeapTop.toNat ≤ va.toNat then .fresh
    else if va ∈ live then (s.node (pathOf va)).elim .reserved .resident
    else .gone

/-- The call is not a write to the frame. -/
def VmCall.Spares (f : Word) : VmCall → Prop
  | .write a _ => a ∉ frame f
  | .allocPages _ => True
  | .freePages _ _ => True
  | .pageFault _ => True

/-- What one call does to a page. -/
inductive PageMove (c : VmCall) (s s' : Machine) : PageState → PageState → Prop
  | kept (p : PageState)
      (h : ∀ f, p = .resident f → c.Spares f → Set.EqOn s'.mem s.mem (frame f)) :
      PageMove c s s' p p
  | allocated (p : PageState) : PageMove c s s' .fresh p
  | faulted (frame : Word) : PageMove c s s' .reserved (.resident frame)
  | freed (p : PageState) : PageMove c s s' p .gone

variable {managed : List Word} {limit va vp num addr f g : Word} {s s' s0 : Machine} {P Q : Pool}
  {live live' : Set Word} {B : BootPool} {fuel n : Nat} {c : VmCall} {p q : PageState}
  {x y : Machine × Set Word} {C : Machine → VmCall → Prop}

theorem PageMove.leads (h : PageMove c s s' p q) : p.Leads q := by
  cases h with
  | kept => exact .same p
  | allocated => exact .allocated q
  | faulted frame => exact .faulted frame
  | freed => exact .freed p

theorem PageMove.contents (h : PageMove c s s' (.resident f) (.resident f)) (hc : c.Spares f) :
    Set.EqOn s'.mem s.mem (frame f) := by
  cases h with
  | kept _ h => exact h f rfl hc

theorem pageState_fresh (h : s.kernHeapTop.toNat ≤ va.toNat) : pageState s live va = .fresh :=
  if_pos h

theorem pageState_live (h : va.toNat < s.kernHeapTop.toNat) (hm : va ∈ live) :
    pageState s live va = (s.node (pathOf va)).elim .reserved .resident := by
  rw [pageState, if_neg (by omega), if_pos hm]

theorem pageState_gone (h : va.toNat < s.kernHeapTop.toNat) (hm : va ∉ live) :
    pageState s live va = .gone := by
  rw [pageState, if_neg (by omega), if_neg hm]

theorem VmInv.pageState_of_live (h : VmInv managed limit s live P) (hm : va ∈ live) :
    pageState s live va = (s.node (pathOf va)).elim .reserved .resident :=
  pageState_live (h.pages.range va hm).2 hm

theorem node_of_resident (h : pageState s live va = .resident f) :
    s.node (pathOf va) = some f := by
  by_cases hfresh : s.kernHeapTop.toNat ≤ va.toNat
  · rw [pageState_fresh hfresh] at h
    cases h
  by_cases hm : va ∈ live
  · rw [pageState_live (by omega) hm] at h
    cases hn : s.node (pathOf va) with
    | some g =>
      rw [hn] at h
      cases h
      rfl
    | none =>
      rw [hn] at h
      cases h
  · rw [pageState_gone (by omega) hm] at h
    cases h

theorem VmInv.pageStatus_eq (h : VmInv managed limit s live P) (hva : IsPage va) :
    s.pageStatus va = (pageState s live va).status := by
  by_cases hm : va ∈ live
  · rw [h.pageState_of_live hm]
    cases hn : s.node (pathOf va) with
    | some f => exact pageStatus_of_node hva.l4Index_ne_zero hn
    | none =>
      refine (pageStatus_eq_reserved_iff hva.l4Index_ne_zero).mpr ?_
      refine (h.pages.live_flags va hm).resolve_right fun hfl => ?_
      obtain ⟨t, f, ht, hc, -⟩ := leafFlags_present hfl
      have hnode : s.node (pathOf va) = some f := by
        rw [pathOf_eq]
        exact (walk_snoc_of_some ht).trans hc
      rw [hnode] at hn
      cases hn
  · rw [h.pages.pageStatus_of_dead hva hm]
    by_cases hfresh : s.kernHeapTop.toNat ≤ va.toNat
    · rw [pageState_fresh hfresh]
      rfl
    · rw [pageState_gone (by omega) hm]
      rfl

/-- A page whose place in the heap and whose frame stay. -/
theorem PageMove.of_kept (htop : s'.kernHeapTop.toNat ≤ va.toNat ↔ s.kernHeapTop.toNat ≤ va.toNat)
    (hlive : va ∈ live' ↔ va ∈ live)
    (hnode : va ∈ live → s'.node (pathOf va) = s.node (pathOf va))
    (hmem : va ∈ live → ∀ f, s.node (pathOf va) = some f → c.Spares f →
      Set.EqOn s'.mem s.mem (frame f)) :
    PageMove c s s' (pageState s live va) (pageState s' live' va) := by
  by_cases hfresh : s.kernHeapTop.toNat ≤ va.toNat
  · rw [pageState_fresh hfresh]
    exact .allocated _
  have hlow' : va.toNat < s'.kernHeapTop.toNat := by omega
  by_cases hm : va ∈ live
  · have hsame : pageState s' live' va = pageState s live va := by
      rw [pageState_live (by omega) hm, pageState_live hlow' (hlive.mpr hm), hnode hm]
    rw [hsame]
    exact .kept _ fun f hf => hmem hm f (node_of_resident hf)
  · rw [pageState_gone hlow' fun h => hm (hlive.mp h)]
    exact .freed _

theorem VmInv.allowed (h : VmInv managed limit s live P) (hal : c.Permitted s live)
    (hrun : c.exec fuel s = .ok () s') : c.Allowed s live := by
  rcases hal with hal | ⟨vp, num, rfl, hheap⟩
  · exact hal
  · exact h.allowed_of_returned hheap hrun

theorem VmInv.pageMove_alloc (h : VmInv managed limit s live P)
    (hrun : (VmCall.allocPages num).exec fuel s = .ok () s') (hnull : .pfAlloc 0 ∉ s'.events)
    (hva : IsPage va) :
    PageMove (.allocPages num) s s' (pageState s live va)
      (pageState s' (live ∪ pageRange s.kernHeapTop num.toNat) va) := by
  obtain ⟨base, s1, halloc, hret⟩ := bind_eq_ok.mp hrun
  obtain ⟨-, rfl⟩ := pure_eq_ok.mp hret
  rcases mmuAllocPages_spec fuel h halloc with ⟨hgot, -⟩ | ⟨live', Q, hinv, -, hcases⟩
  · exact absurd hgot.mem_events hnull
  rcases hcases with ⟨-, -, hgrown⟩ | ⟨e, he, -⟩
  swap
  · cases he
  rw [final_ok] at hinv hgrown
  have hhigh := hinv.pages.top_le
  have htop := hgrown.top
  by_cases hfresh : s.kernHeapTop.toNat ≤ va.toNat
  · rw [pageState_fresh hfresh]
    exact .allocated _
  have hout : va ∉ pageRange s.kernHeapTop num.toNat := by
    intro hm
    have hlow := pageRange_toNat (by omega) hm
    omega
  have hk := hgrown.kept va hva hout
  exact .of_kept (by omega) ⟨fun hc => hc.resolve_right hout, Or.inl⟩ (fun _ => hk.node)
    fun _ f hf _ => hk.contents f hf

theorem VmInv.pageMove_free (h : VmInv managed limit s live P)
    (hal : ∀ k < num.toNat, vp + BitVec.ofNat 64 (4096 * k) ∈ live)
    (hrun : mmuFreePages vp num s = .ok () s') (hva : IsPage va) :
    PageMove (.freePages vp num) s s' (pageState s live va)
      (pageState s' (live \ pageRange vp num.toNat) va) := by
  have hnum : 0 < num := by
    rw [mmuFreePages] at hrun
    obtain ⟨_, s1, -, hrest⟩ := bind_eq_ok.mp hrun
    obtain ⟨_, s2, hpos, -⟩ := bind_eq_ok.mp hrest
    exact (assert_eq_ok.mp hpos).1
  obtain ⟨s1, hfree, hfreed⟩ := mmuFreePages_spec h hnum hal
  obtain ⟨-, rfl⟩ := EStateM.Result.ok.inj (hfree.symm.trans hrun)
  by_cases hin : va ∈ live ∧ va ∈ pageRange vp num.toNat
  · have hlt := (h.pages.range va hin.1).2
    have hgone : pageState s1 (live \ pageRange vp num.toNat) va = .gone :=
      pageState_gone (hfreed.top ▸ hlt) fun hc => hc.2 hin.2
    rw [hgone]
    exact .freed _
  · have hk : va ∈ live → PageKept s s1 va :=
      fun hm => hfreed.pages va hva fun hr => hin ⟨hm, hr⟩
    exact .of_kept (by rw [hfreed.top]) ⟨fun hc => hc.1, fun hm => ⟨hm, fun hr => hin ⟨hm, hr⟩⟩⟩
      (fun hm => (hk hm).node) fun hm f hf _ => (hk hm).contents f hf

theorem VmInv.pageMove_fault (h : VmInv managed limit s live P)
    (hrun : (VmCall.pageFault addr).exec fuel s = .ok () s') (hnull : .pfAlloc 0 ∉ s'.events)
    (hva : IsPage va) :
    PageMove (.pageFault addr) s s' (pageState s live va) (pageState s' live va) := by
  have hcr2 : VmInv managed limit { s with cr2 := addr } live P := h.of_eq rfl rfl rfl rfl rfl
  rw [VmCall.exec, bind_modify] at hrun
  rcases pageFaultHandler_spec hcr2 hrun with ⟨e, he⟩ | ⟨hfl, ⟨-, hgot⟩ | ⟨-, f, hin⟩⟩
  · cases he
  · exact absurd hgot.mem_events hnull
  have htop : s'.kernHeapTop = s.kernHeapTop := hin.top
  by_cases he : va = canonical (faultPage { s with cr2 := addr })
  · have hnone : s.node (pathOf va) = none := by
      rw [he, pathOf_canonical]
      exact node_eq_none_of_reserved (s := s) hfl
    have hm : va ∈ live := by
      by_contra hm
      have hdead := h.pages.dead_flags va hva hm
      rw [he, leafFlags_canonical] at hdead
      rcases hdead with hd | hd <;> exact absurd (hd.symm.trans hfl) (by decide)
    have hlt := (h.pages.range va hm).2
    have hnode : s'.node (pathOf va) = some f := by
      rw [he]
      exact hin.node
    rw [pageState_live hlt hm, pageState_live (htop ▸ hlt) hm, hnone, hnode]
    exact .faulted f
  · have hk := hin.kept va hva he
    exact .of_kept (by rw [htop]) Iff.rfl (fun _ => hk.node) fun _ g hg _ => hk.contents g hg

theorem VmInv.pageMove_write {a : Word} {v : Byte} (h : VmInv managed limit s live P)
    (hal : (VmCall.write a v).Allowed s live) (hva : IsPage va) :
    PageMove (.write a v) s { s with mem := s.mem.storeByte a v } (pageState s live va)
      (pageState { s with mem := s.mem.storeByte a v } live va) := by
  obtain ⟨vb, hvb, g, hg, ha⟩ := hal
  obtain ⟨-, hnode, -⟩ := h.writeFrame (h.pages.range vb hvb).1 hg (storeByte_eqOn_frame ha v s.mem)
  refine .of_kept Iff.rfl Iff.rfl (fun _ => hnode _ hva.pathOf_mem) fun _ f _ hsp b hb => ?_
  have hba : b ≠ a := by
    rintro rfl
    exact hsp hb
  simp [storeByte, hba]

/-- One call takes the page one step further or leaves it. -/
theorem VmInv.pageMove (h : VmInv managed limit s live P) (hal : c.Allowed s live)
    (hrun : c.exec fuel s = .ok () s') (hnull : .pfAlloc 0 ∉ s'.events) (hva : IsPage va) :
    PageMove c s s' (pageState s live va) (pageState s' (c.live s live) va) := by
  cases c with
  | allocPages num => exact h.pageMove_alloc hrun hnull hva
  | freePages vp num => exact h.pageMove_free hal hrun hva
  | pageFault addr => exact h.pageMove_fault hrun hnull hva
  | write a v =>
    obtain rfl := modify_eq_ok.mp hrun
    exact h.pageMove_write hal hva

/-! Runs. -/

theorem PermittedRun.grows (h : PermittedRun x y) : Grows x.1 y.1 := by
  induction h with
  | refl => exact Grows.refl _
  | tail _ hstep ih => exact ih.trans hstep.grows

theorem VmRun.permittedRun (hrun : VmRun C x y) : PermittedRun x y := by
  induction hrun with
  | refl => exact .refl
  | tail _ hstep ih =>
    cases hstep with
    | call c fuel hal hc hexec => exact ih.tail (.call c fuel (Or.inl hal) hexec)

theorem PermittedRun.pageState_leads (hboot : Booted B s0) (h₁ : PermittedRun (s0, ∅) x)
    (h₂ : PermittedRun x y) (hnull : .pfAlloc 0 ∉ y.1.events) (hva : IsPage va) :
    (pageState x.1 x.2 va).Leads (pageState y.1 y.2 va) := by
  induction h₂ with
  | refl => exact .same _
  | tail hrun hstep ih =>
    have hbefore := fun hm => hnull (hstep.grows.subset hm)
    refine (ih hbefore).trans ?_
    cases hstep with
    | call c fuel hal hexec =>
      obtain ⟨limit, P, h⟩ := PermittedRun.inv hboot (h₁.trans hrun) hbefore
      exact (h.pageMove (h.allowed hal hexec) hexec hnull hva).leads

theorem VmInv.fault_halts (h : VmInv managed limit s live P) (hva : IsPage va) (hm : va ∉ live)
    (haddr : pageBase addr = va) :
    pageFaultHandler pfIntNum { s with cr2 := addr } = .error .halt { s with cr2 := addr } := by
  have hcr2 : VmInv managed limit { s with cr2 := addr } live P := h.of_eq rfl rfl rfl rfl rfl
  have hpage : faultPage { s with cr2 := addr } = va := haddr
  have hdead := hcr2.pages.dead_flags va hva hm
  refine pageFaultHandler_halts hcr2 ?_ ?_
  · rw [hpage]
    exact hva.l4Index_ne_zero
  · rw [hpage]
    rcases hdead with hd | hd <;> rw [hd] <;> decide

/-- In every run every page of the heap only ever goes from new to reserved to resident in one frame
to gone, which is what its entry says. A fault on a page that is new or gone halts the machine. -/
theorem page_lives (hboot : Booted B s0) (h₁ : PermittedRun (s0, ∅) (s, live))
    (h₂ : PermittedRun (s, live) (s', live')) (hnull : .pfAlloc 0 ∉ s'.events)
    (hva : IsPage va) :
    (pageState s live va).Leads (pageState s' live' va) ∧
    s'.pageStatus va = (pageState s' live' va).status ∧
    (pageState s' live' va = .fresh ∨ pageState s' live' va = .gone →
      ∀ addr, pageBase addr = va →
        pageFaultHandler pfIntNum { s' with cr2 := addr } =
          .error .halt { s' with cr2 := addr }) := by
  obtain ⟨limit, P, h⟩ := PermittedRun.inv hboot (h₁.trans h₂) hnull
  refine ⟨PermittedRun.pageState_leads hboot h₁ h₂ hnull hva, h.pageStatus_eq hva, ?_⟩
  intro hstate addr haddr
  refine h.fault_halts hva (fun hm => ?_) haddr
  rw [h.pageState_of_live hm] at hstate
  cases hn : s'.node (pathOf va) <;> rw [hn] at hstate <;> simp at hstate

theorem VmRun.contents (hboot : Booted B s0) (h₁ : PermittedRun (s0, ∅) x)
    (h₂ : VmRun (fun _ c => c.Spares f) x y) (hnull : .pfAlloc 0 ∉ y.1.events) (hva : IsPage va)
    (hx : pageState x.1 x.2 va = .resident f) (hy : pageState y.1 y.2 va = .resident g) :
    Set.EqOn y.1.mem x.1.mem (frame f) := by
  induction h₂ generalizing g with
  | refl => exact Set.eqOn_refl _ _
  | tail hrun hstep ih =>
    have hbefore := fun hm => hnull (hstep.grows.subset hm)
    have hleads := PermittedRun.pageState_leads hboot h₁ (VmRun.permittedRun hrun) hbefore hva
    rw [hx] at hleads
    cases hstep with
    | call c fuel hal hc hexec =>
      obtain ⟨limit, P, h⟩ :=
        PermittedRun.inv hboot (h₁.trans (VmRun.permittedRun hrun)) hbefore
      have hmove := h.pageMove hal hexec hnull hva
      obtain ⟨hz, rfl⟩ := hleads.resident_between (hy ▸ hmove.leads)
      have hearlier := ih hbefore hz
      rw [hz, hy] at hmove
      exact (hmove.contents hc).trans hearlier

/-- The page of the roomy machine is freed. -/
def roomyFreed : Machine := afterCall (.freePages 0x10000000000 1) roomyTouched

theorem page_lives_roomy :
    pageFaultHandler pfIntNum { roomyFreed with cr2 := 0x10000000123 } =
      .error .halt { roomyFreed with cr2 := 0x10000000123 } := by
  have htop : (initMachine roomyBoot).kernHeapTop = 0x10000000000 := by decide +kernel
  have hret : returned (VmCall.exec 3 (.freePages 0x10000000000 1) roomyTouched) = some () ∧
      .pfAlloc 0 ∉ roomyFreed.events ∧
      ¬ roomyFreed.kernHeapTop.toNat ≤ (0x10000000000 : Word).toNat := by
    decide +kernel
  obtain ⟨hfree, hnull, hlow⟩ := hret
  have hrun := roomyTouched_run.permitted
  rw [htop] at hrun
  have hlast : PermittedRun (roomyTouched, ∅ ∪ pageRange 0x10000000000 1)
      (roomyFreed, (∅ ∪ pageRange 0x10000000000 1) \ pageRange 0x10000000000 1) :=
    .single (.call (.freePages 0x10000000000 1) 3 (Or.inr ⟨_, _, rfl, by decide, by decide⟩)
      (eq_ok_of_returned hfree))
  have hpage : IsPage 0x10000000000 := by decide
  exact (page_lives roomyBoot_booted hrun hlast hnull hpage).2.2
    (Or.inr (pageState_gone (by omega) fun hm => hm.2 ⟨0, by decide, rfl⟩)) _ (by decide)

end SkipOS
