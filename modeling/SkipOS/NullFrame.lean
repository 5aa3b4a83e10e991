import SkipOS.IdentityMap
import SkipOS.PoolPartition
import SkipOS.VmRun

/-! The frame at address 0. The allocator's failure value is the address of the pool head;
calls that are supplied with the frames they ask for never touch it. -/

namespace SkipOS

open Mem Exec Walk

variable {managed out : List Word} {limit p : Word} {s s0 : Machine} {m m' : Mem} {P : Pool}
  {live : Set Word} {B : BootPool}

theorem PoolInv.alloc_ne_zero (h : PoolInv managed limit m out P)
    (hroom : out.length + 1 < managed.length) (hrun : mmuPfAlloc m = .ok p m') : p ≠ 0 := by
  rcases h.alloc hrun with ⟨⟨hlen, hc⟩, -, -⟩ | ⟨hf, -⟩
  · have hfree := P.free_length
    have hall := h.length_eq
    omega
  · exact h.free_page_ne_zero hf

theorem Booted.not_null (h : Booted B s) (hroom : 2 < B.managed.length) :
    .pfAlloc 0 ∉ s.events := by
  obtain ⟨s0, hmem, hev, hrun⟩ := h
  obtain ⟨l4, m1, l3, m2, es, hm1, hm2, hes, -, -, -, -, hevents⟩ := mmuInitVp_eq_ok hrun
  rw [hmem] at hm1
  have hl4 : l4 ≠ 0 := B.inv.alloc_ne_zero (by simpa using by omega) hm1
  obtain ⟨-, -, Q1, hQ1, -⟩ := pfAlloc_pool B.inv hl4 hm1
  have hfill := hQ1.fill_out List.mem_cons_self
  have hl3 : l3 ≠ 0 := hfill.alloc_ne_zero (by simpa using hroom) hm2
  rw [hevents, hev]
  intro hm
  rcases List.mem_append.mp (List.append_nil _ ▸ hm) with hm | hm
  · obtain ⟨p, v, he⟩ := hes _ hm
    simp at he
  · simp only [List.mem_cons, VmEvent.pfAlloc.injEq, reduceCtorEq, List.not_mem_nil, false_or,
      or_false] at hm
    rcases hm with hm | hm
    · exact hl3 hm.symm
    · exact hl4 hm.symm

/-- Where all frames are in the first gigabyte, which the tables take to itself throughout: in every
run whose calls were supplied with frames, and in the middle of a further such call, no store hit
the pool head or made frame 0 present, no allocation gave NULL, the pool is intact and no path leads
to frame 0. -/
theorem supplied_calls_safe (hboot : Booted B s0) (hlow : ∀ f ∈ B.managed, f.toNat < 2 ^ 30)
    (hroom : 2 < B.managed.length)
    (hrun : VmRun (fun s c => c.Supplied B.managed s) (s0, ∅) (s, live)) (c : VmCall) (fuel : Nat)
    (hal : c.Allowed s live) (hsup : c.Supplied B.managed s) :
    (∀ va : Word, va.toNat < 2 ^ 30 →
      hwWalk (final (c.exec fuel s)).mem (final (c.exec fuel s)).cr3 va = some va) ∧
    Safely s0 (final (c.exec fuel s)) ∧
      (∃ l, CircularList (final (c.exec fuel s)).mem l ∧
        (l ++ outstanding (final (c.exec fuel s)).events ++
          upperRange (final (c.exec fuel s)).mem).Perm B.managed) ∧
      ∀ p ∈ Paths, (final (c.exec fuel s)).node p ≠ some 0 := by
  obtain ⟨⟨P, h⟩, hsafe⟩ := hrun.inv_of_supplied (hboot.inv (hboot.not_null hroom))
  rcases VmCall.spec fuel h hal rfl with ⟨-, hno⟩ | ⟨live', Q, hinv, hs, -⟩
  · exact absurd hsup hno
  · have hphys : ∀ f ∈ B.managed, f.toNat < 2 ^ 52 := fun f hf =>
      Nat.lt_trans (hlow f hf) (by decide)
    refine ⟨fun va hva => ?_, hsafe.trans hs, ⟨Q.pages, hinv.tables.pool.partition⟩,
      fun p hp hn => hinv.tables.node_ne_zero hp hn rfl⟩
    rw [hinv.tables.hwWalk_eq hphys (by omega), and_gigabyte_mask_of_lt hva]

instance (managed : List Word) (T : Finset (List Word)) (s : Machine) :
    Decidable (Enough managed T s) := inferInstanceAs (Decidable (_ ∨ _))

theorem roomyBoot_low : ∀ f ∈ roomyBoot.managed, f.toNat < 2 ^ 30 := by
  have hpages : (lowerPages (lowerLengthOf (bootBefore 0x9000) 0x9000)).all
      (fun f => decide (f.toNat < 2 ^ 30)) = true := by
    decide +kernel
  intro f hf
  rw [roomyBoot, bootPool_managed] at hf
  exact of_decide_eq_true (List.all_eq_true.mp hpages f hf)

theorem supplied_calls_safe_roomy :
    Enough roomyBoot.managed (rangeTables (initMachine roomyBoot).kernHeapTop 1)
      (initMachine roomyBoot) ∧
    Safely (initMachine roomyBoot) (afterCall (.allocPages 1) (initMachine roomyBoot)) := by
  have henough : Enough roomyBoot.managed
      (rangeTables (initMachine roomyBoot).kernHeapTop 1) (initMachine roomyBoot) := by
    decide +kernel
  have hsafe := supplied_calls_safe roomyBoot_booted roomyBoot_low (by decide +kernel) .refl
    (.allocPages 1) 3 trivial henough
  exact ⟨henough, hsafe.2.1⟩

/-- The pool head is not written and frame 0 not made present. -/
def Harmless (s t : Machine) : Prop := ∃ es, t.events = es ++ s.events ∧ ∀ e ∈ es, e.Safe

/-- With three frames `MMU_init_vp` leaves one, and the next call zeroes the pool head. -/
theorem null_frame_harmful : ¬ ∀ (B : BootPool) (s0 s : Machine) (live : Set Word) (c : VmCall)
    (fuel : Nat), Booted B s0 → VmRun (fun _ _ => True) (s0, ∅) (s, live) → c.Allowed s live →
      Harmless s (final (c.exec fuel s)) := by
  intro h
  obtain ⟨es, he, hsafe⟩ := h smallBoot _ _ ∅ (.allocPages 1) 1 smallBoot_booted .refl trivial
  have hnew : .memset 0 ∈ (final (VmCall.exec 1 (.allocPages 1) (initMachine smallBoot))).events ∧
      .memset 0 ∉ (initMachine smallBoot).events := by
    decide +kernel
  rw [he] at hnew
  have hmem : .memset 0 ∈ es := (List.mem_append.mp hnew.1).resolve_right hnew.2
  have hdis : Disjoint (span 0 4096) poolHead := hsafe _ hmem
  exact Set.disjoint_left.mp hdis (mem_span_self (by decide)) (mem_span_self (by decide))

end SkipOS
