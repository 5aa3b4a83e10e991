import SkipOS.VmInv
import Mathlib.Data.Finset.Card

/-! What the code does to frames and entries, read off the record of events. -/

namespace SkipOS

open Mem Exec Walk

/-- The bytes of the pool head. -/
def poolHead : Set Word := span 0 40

/-- No byte of the pool head is written, and no present entry has frame 0. -/
def VmEvent.Safe : VmEvent → Prop
  | .pfAlloc _ => True
  | .pfFree _ => True
  | .memset a => Disjoint (span a 4096) poolHead
  | .setEntry p v =>
    Disjoint (span p 8) poolHead ∧ (isNextPagePresent v = true → v &&& ~~~0xFFF ≠ 0)

def Grows (s t : Machine) : Prop := s.events <:+ t.events

/-- Nothing but memory changes and the record grows. -/
structure Quiet (s t : Machine) : Prop where
  grows : Grows s t
  top : t.kernHeapTop = s.kernHeapTop
  tlb : t.tlb = s.tlb

/-- In the TLB at most the translation of `page` is dropped. -/
structure Shoots (page : Word) (s t : Machine) : Prop where
  grows : Grows s t
  top : t.kernHeapTop = s.kernHeapTop
  others : ∀ q, q ≠ page → t.tlb q = s.tlb q
  dropped : s.tlb page = none → t.tlb page = none

/-- From `s` to `t` every event is safe and no allocation gave NULL. -/
def Safely (s t : Machine) : Prop :=
  ∃ es, t.events = es ++ s.events ∧ ∀ e ∈ es, e.Safe ∧ e ≠ .pfAlloc 0

def GotNull (s t : Machine) : Prop := ∃ es, t.events = es ++ s.events ∧ .pfAlloc 0 ∈ es

variable {s t u : Machine} {a p v : Word} {e : VmEvent} {α β : Type}

theorem Safely.refl (s : Machine) : Safely s s := ⟨[], rfl, by simp⟩

theorem Safely.trans (h : Safely s t) (h' : Safely t u) : Safely s u := by
  obtain ⟨es, he, hs⟩ := h
  obtain ⟨es', he', hs'⟩ := h'
  refine ⟨es' ++ es, by rw [he', he, List.append_assoc], fun e hm => ?_⟩
  rcases List.mem_append.mp hm with hm | hm
  · exact hs' e hm
  · exact hs e hm

theorem Safely.gotNull (h : Safely s t) (h' : GotNull t u) : GotNull s u := by
  obtain ⟨es, he, -⟩ := h
  obtain ⟨es', he', hm⟩ := h'
  exact ⟨es' ++ es, by rw [he', he, List.append_assoc], List.mem_append_left _ hm⟩

theorem GotNull.grows (h : GotNull s t) (h' : Grows t u) : GotNull s u := by
  obtain ⟨es, he, hm⟩ := h
  obtain ⟨es', he'⟩ := h'
  exact ⟨es' ++ es, by rw [← he', he, List.append_assoc], List.mem_append_right _ hm⟩

theorem GotNull.mem_events (h : GotNull s t) : .pfAlloc 0 ∈ t.events := by
  obtain ⟨es, he, hm⟩ := h
  rw [he]
  exact List.mem_append_left _ hm

theorem Grows.refl (s : Machine) : Grows s s := List.suffix_rfl

theorem Grows.trans (h : Grows s t) (h' : Grows t u) : Grows s u := List.IsSuffix.trans h h'

theorem Quiet.refl (s : Machine) : Quiet s s := ⟨Grows.refl s, rfl, rfl⟩

theorem Quiet.trans (h : Quiet s t) (h' : Quiet t u) : Quiet s u :=
  ⟨h.grows.trans h'.grows, h'.top.trans h.top, h'.tlb.trans h.tlb⟩

theorem Shoots.trans {page : Word} (h : Shoots page s t) (h' : Shoots page t u) :
    Shoots page s u :=
  ⟨h.grows.trans h'.grows, h'.top.trans h.top, fun q hq => (h'.others q hq).trans (h.others q hq),
    fun hn => h'.dropped (h.dropped hn)⟩

theorem Quiet.shoots (h : Quiet s t) (page : Word) : Shoots page s t :=
  ⟨h.grows, h.top, fun q _ => congrFun h.tlb q, fun hn => (congrFun h.tlb page).trans hn⟩

/-! One operation each. -/

@[simp] theorem memsetPage_apply (a : Word) (s : Machine) : memsetPage a s =
    .ok ⟨⟩ { s with mem := s.mem.fill a 4096 0, events := .memset a :: s.events } := rfl

@[simp] theorem setEntry_apply (p v : Word) (s : Machine) : setEntry p v s =
    .ok ⟨⟩ { s with mem := s.mem.store64 p v, events := .setEntry p v :: s.events } := rfl

@[simp] theorem updateEntry_apply (p : Word) (f : Word → Word) (s : Machine) : updateEntry p f s =
    .ok ⟨⟩ { s with mem := s.mem.store64 p (f (s.mem.load64 p)),
                    events := .setEntry p (f (s.mem.load64 p)) :: s.events } := rfl

theorem pfAlloc_of_ok {m : Mem} (h : mmuPfAlloc s.mem = .ok p m) :
    pfAlloc s = .ok p { s with mem := m, events := .pfAlloc p :: s.events } := by
  have hz : onMem mmuPfAlloc s = .ok p { s with mem := m } := zoom_of_ok h
  rw [pfAlloc, bind_of_ok hz]
  rfl

theorem pfFree_of_ok {m : Mem} (h : mmuPfFree p s.mem = .ok () m) :
    pfFree p s = .ok () { s with mem := m, events := .pfFree p :: s.events } := by
  have hz : onMem (mmuPfFree p) s = .ok () { s with mem := m } := zoom_of_ok h
  rw [pfFree, bind_of_ok hz]
  rfl

theorem pfAlloc_eq_ok (h : pfAlloc s = .ok p t) :
    ∃ m, mmuPfAlloc s.mem = .ok p m ∧ t = { s with mem := m, events := .pfAlloc p :: s.events } := by
  obtain ⟨p', s', hz, hrest⟩ := bind_eq_ok.mp h
  obtain ⟨m, hm, rfl⟩ := zoom_eq_ok.mp hz
  have hr : (EStateM.Result.ok p' { s with mem := m, events := .pfAlloc p' :: s.events } :
      EStateM.Result Stop Machine Word) = .ok p t := hrest
  rw [EStateM.Result.ok.injEq] at hr
  obtain ⟨rfl, rfl⟩ := hr
  exact ⟨m, hm, rfl⟩

/-! What holds of every run, also after the allocator gave NULL. -/

theorem quiet_bind {x : Exec Machine α} {f : α → Exec Machine β} (hx : Moves Quiet x)
    (hf : ∀ a, Moves Quiet (f a)) : Moves Quiet (x >>= f) :=
  Moves.bind (R := Quiet) (fun _ _ _ h h' => Quiet.trans h h') hx hf

theorem grows_bind {x : Exec Machine α} {f : α → Exec Machine β} (hx : Moves Grows x)
    (hf : ∀ a, Moves Grows (f a)) : Moves Grows (x >>= f) :=
  Moves.bind (R := Grows) (fun _ _ _ h h' => Grows.trans h h') hx hf

theorem shoots_bind {page : Word} {x : Exec Machine α} {f : α → Exec Machine β}
    (hx : Moves (Shoots page) x) (hf : ∀ a, Moves (Shoots page) (f a)) :
    Moves (Shoots page) (x >>= f) :=
  Moves.bind (R := Shoots page) (fun _ _ _ h h' => Shoots.trans h h') hx hf

theorem grows_of_quiet {x : Exec Machine α} (h : Moves Quiet x) : Moves Grows x :=
  h.mono fun _ _ hq => hq.grows

theorem shoots_of_quiet {x : Exec Machine α} (h : Moves Quiet x) (page : Word) :
    Moves (Shoots page) x :=
  h.mono fun _ _ hq => hq.shoots page

/-- Once NULL was returned, the record shows it however the run goes on. -/
theorem GotNull.bind {x : Exec Machine α} {f : α → Exec Machine β} (h : GotNull s (final (x t)))
    (hf : ∀ a, Moves Grows (f a)) : GotNull s (final ((x >>= f) t)) := by
  rw [bind_apply]
  cases hx : x t with
  | ok a u =>
    rw [hx] at h
    exact h.grows (hf a u)
  | error e u =>
    rw [hx] at h
    exact h

theorem quiet_assert (c : Prop) [Decidable c] : Moves Quiet (assert c : Exec Machine Unit) :=
  Moves.assert Quiet.refl c

theorem quiet_record (e : VmEvent) : Moves Quiet (record e) :=
  fun s => ⟨List.suffix_cons e s.events, rfl, rfl⟩

theorem quiet_onMem (x : Exec Mem α) : Moves Quiet (onMem x) := by
  intro s
  rw [onMem, zoom]
  cases x s.mem <;> exact ⟨List.suffix_rfl, rfl, rfl⟩

theorem quiet_pfAlloc : Moves Quiet pfAlloc :=
  quiet_bind (quiet_onMem _) fun p => quiet_bind (quiet_record _) fun _ => Moves.pure Quiet.refl p

theorem quiet_pfFree (p : Word) : Moves Quiet (pfFree p) :=
  quiet_bind (quiet_onMem _) fun _ => quiet_record _

theorem quiet_memsetPage (a : Word) : Moves Quiet (memsetPage a) :=
  fun s => ⟨List.suffix_cons _ s.events, rfl, rfl⟩

theorem quiet_setEntry (p v : Word) : Moves Quiet (setEntry p v) :=
  fun s => ⟨List.suffix_cons _ s.events, rfl, rfl⟩

theorem quiet_updateEntry (p : Word) (f : Word → Word) : Moves Quiet (updateEntry p f) :=
  fun s => ⟨List.suffix_cons _ s.events, rfl, rfl⟩

theorem quiet_deref (p : Option Word) : Moves Quiet (deref p : Exec Machine Word) := by
  cases p with
  | none => exact Moves.throw Quiet.refl _
  | some p => exact Moves.pure Quiet.refl p

theorem quiet_getLowestPresentPage (pt : PageTable) (va : Word) (prev : Option Word) :
    Moves Quiet (getLowestPresentPage pt va prev) := by
  refine quiet_bind (quiet_assert _) fun _ => ?_
  intro s
  simp only
  split
  · exact Quiet.refl s
  · rw [bind_get]
    split
    · exact Quiet.refl s
    · split
      · exact Quiet.refl s
      · split
        · exact Quiet.refl s
        · split <;> exact Quiet.refl s

theorem quiet_allocVirtualPageLoop (pt : PageTable) (va : Word) (lowest : PtLevel)
    (fuel : Nat) (ptr : Word) (level : PtLevel) :
    Moves Quiet (allocVirtualPageLoop pt va lowest fuel ptr level) := by
  induction fuel generalizing ptr level with
  | zero =>
    rw [allocVirtualPageLoop]
    split
    · exact Moves.pure Quiet.refl _
    · exact Moves.throw Quiet.refl _
  | succ fuel ih =>
    rw [allocVirtualPageLoop]
    split
    · exact Moves.pure Quiet.refl _
    · refine quiet_bind quiet_pfAlloc fun p => ?_
      refine quiet_bind (quiet_memsetPage p) fun _ => ?_
      refine quiet_bind (quiet_setEntry _ _) fun _ => ?_
      refine quiet_bind (quiet_updateEntry _ _) fun _ => ?_
      exact quiet_bind (quiet_getLowestPresentPage _ _ _) fun r => ih r.1 r.2.1

theorem quiet_reserveEntry (r : Word × PtLevel) : Moves Quiet (do
    assert (r.2 = .l1)
    let s ← get
    assert (s.mem.load64 r.1 &&& demandMask = 0)
    updateEntry r.1 (· ||| demandMask)) := by
  refine quiet_bind (quiet_assert _) fun _ => ?_
  refine quiet_bind (Moves.get Quiet.refl) fun s => ?_
  refine quiet_bind (quiet_assert _) fun _ => ?_
  exact quiet_updateEntry _ _

theorem quiet_allocVirtualPage (fuel : Nat) (pt : PageTable) (va : Word) :
    Moves Quiet (allocVirtualPage fuel pt va true) := by
  refine quiet_bind (quiet_assert _) fun _ => ?_
  refine quiet_bind (quiet_getLowestPresentPage _ _ _) fun r => ?_
  refine quiet_bind (quiet_assert _) fun _ => ?_
  refine quiet_bind (quiet_allocVirtualPageLoop _ _ _ _ _ _) fun l => ?_
  exact quiet_reserveEntry l

theorem quiet_pageFaultHandler (irqIndex : BitVec 8) : Moves Quiet (pageFaultHandler irqIndex) := by
  refine quiet_bind (quiet_assert _) fun _ => ?_
  refine quiet_bind (Moves.get Quiet.refl) fun s => ?_
  refine quiet_bind (quiet_getLowestPresentPage _ _ _) fun r => ?_
  refine quiet_bind (quiet_assert _) fun _ => ?_
  split
  · exact Moves.throw Quiet.refl _
  · refine quiet_bind quiet_pfAlloc fun p => ?_
    exact quiet_bind (quiet_setEntry _ _) fun _ => quiet_updateEntry _ _

theorem grows_allocPagesLoop (fuel n : Nat) : Moves Grows (allocPagesLoop fuel n) := by
  induction n with
  | zero => exact Moves.pure Grows.refl _
  | succ n ih =>
    refine grows_bind (Moves.get Grows.refl) fun s => ?_
    refine grows_bind (grows_of_quiet (quiet_allocVirtualPage _ _ _)) fun _ => ?_
    exact grows_bind (Moves.modify fun s => List.suffix_rfl) fun _ => ih

theorem grows_mmuAllocPages (fuel : Nat) (num : Word) : Moves Grows (mmuAllocPages fuel num) := by
  refine grows_bind (Moves.get Grows.refl) fun s => ?_
  exact grows_bind (grows_allocPagesLoop _ _) fun _ => Moves.pure Grows.refl _

theorem shoots_invlpg (vp : Word) : Moves (Shoots (vp - vp % pageSize)) (invlpg vp) :=
  Moves.modify fun _ => ⟨List.suffix_rfl, rfl, fun _ hq => if_neg hq, fun _ => if_pos rfl⟩

theorem shoots_freePagesLoop (vp : Word) (n : Nat) (va : Word) (prev : Option Word) :
    Moves (Shoots (vp - vp % pageSize)) (freePagesLoop vp n va prev) := by
  induction n generalizing va prev with
  | zero => exact shoots_of_quiet (Moves.pure Quiet.refl _) _
  | succ n ih =>
    refine shoots_bind (shoots_of_quiet (Moves.get Quiet.refl) _) fun s => ?_
    refine shoots_bind (shoots_of_quiet (quiet_getLowestPresentPage _ _ _) _) fun r => ?_
    refine shoots_bind (shoots_of_quiet (quiet_assert _) _) fun _ => ?_
    dsimp only
    split
    · refine shoots_bind (shoots_of_quiet (quiet_deref _) _) fun ptr => ?_
      refine shoots_bind (shoots_of_quiet (quiet_updateEntry _ _) _) fun _ => ?_
      refine shoots_bind (shoots_of_quiet (quiet_pfFree _) _) fun _ => ?_
      exact shoots_bind (shoots_invlpg vp) fun _ => ih _ _
    · refine shoots_bind (shoots_of_quiet (Moves.get Quiet.refl) _) fun s => ?_
      refine shoots_bind (shoots_of_quiet (quiet_assert _) _) fun _ => ?_
      refine shoots_bind (shoots_of_quiet (quiet_assert _) _) fun _ => ?_
      exact shoots_bind (shoots_of_quiet (quiet_updateEntry _ _) _) fun _ => ih _ _

theorem shoots_mmuFreePages (vp num : Word) :
    Moves (Shoots (vp - vp % pageSize)) (mmuFreePages vp num) :=
  shoots_bind (shoots_of_quiet (quiet_assert _) _) fun _ =>
    shoots_bind (shoots_of_quiet (quiet_assert _) _) fun _ => shoots_freePagesLoop _ _ _ _

end SkipOS
