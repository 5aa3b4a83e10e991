import SkipOS.PoolPartition
import SkipOS.VmRun

/-! Who uses a frame: in every reachable state each outstanding frame is a table or the
target of a page, and one entry refers to it. -/

namespace SkipOS

open Mem Exec Walk

/-- What a frame is in use for, and the entry that refers to it. -/
inductive FrameRole where
  | l4Table
  | identityTable
  | node (table index : Word)
  | page (table index : Word)

/-- A table of the heap, `depth` levels below the L4 table. -/
def Machine.HeapTable (s : Machine) (depth : Nat) (t : Word) : Prop :=
  ∃ p ∈ Paths, p.length = depth ∧ p ≠ [0] ∧ s.node p = some t

/-- Entries of L4, L3 and L2 tables refer to nodes and those of L1 tables to pages. -/
def FrameRole.Holds (s : Machine) (f : Word) : FrameRole → Prop
  | .l4Table => f = s.pageTable.l4Table
  | .identityTable => child s.mem s.pageTable.l4Table 0 = some f
  | .node t i => ∃ depth < 3, s.HeapTable depth t ∧ i < 512 ∧ (depth = 0 → i ≠ 0) ∧
    child s.mem t i = some f
  | .page t i => s.HeapTable 3 t ∧ i < 512 ∧ child s.mem t i = some f

/-- The role of the frame at the end of a path. -/
def Machine.roleOf (s : Machine) (p : List Word) : Option FrameRole :=
  match p.getLast? with
  | none => some .l4Table
  | some i =>
    if p = [0] then some .identityTable
    else (s.node p.dropLast).map fun t => if p.length < 4 then .node t i else .page t i

variable {managed : List Word} {limit f t i va vb : Word} {s : Machine} {P : Pool}
  {live : Set Word} {p q : List Word} {r : FrameRole}

theorem roleOf_snoc (hne : q ++ [i] ≠ [0]) (hq : s.node q = some t) :
    s.roleOf (q ++ [i]) = some (if (q ++ [i]).length < 4 then .node t i else .page t i) := by
  simp only [Machine.roleOf, List.getLast?_append, List.getLast?_singleton, Option.some_or,
    if_neg hne, List.dropLast_concat, hq, Option.map_some]

theorem snoc_mem_paths (hq : q ∈ Paths) (hlen : q.length < 4) (hi : i < 512) (hq0 : q ≠ [0])
    (h0 : q.length = 0 → i ≠ 0) : q ++ [i] ∈ Paths := by
  refine ⟨?_, ?_, ?_⟩
  · rw [List.length_append, List.length_singleton]
    omega
  · intro j hj
    rcases List.mem_append.mp hj with hj | hj
    · exact hq.2.1 j hj
    · exact List.mem_singleton.mp hj ▸ hi
  · intro hh
    cases q with
    | nil => exact absurd (by simpa using hh) (h0 rfl)
    | cons j q =>
      have hj : j = 0 := by simpa using hh
      have hl := hq.2.2 (by simp [hj])
      have hnil : q = [] := by
        rw [List.length_cons] at hl
        exact List.eq_nil_of_length_eq_zero (by omega)
      exact absurd (by rw [hj, hnil]) hq0

theorem FrameRole.Holds.path (h : r.Holds s f) :
    ∃ p ∈ Paths, s.node p = some f ∧ s.roleOf p = some r := by
  have hsnoc : ∀ q t i, q ∈ Paths → q.length < 4 → i < 512 → q ≠ [0] → (q.length = 0 → i ≠ 0) →
      s.node q = some t → child s.mem t i = some f →
      ∃ p ∈ Paths, s.node p = some f ∧
        s.roleOf p = some (if q.length < 3 then .node t i else .page t i) := by
    intro q t i hq hlen hi hq0 h0 hn hc
    refine ⟨q ++ [i], snoc_mem_paths hq hlen hi hq0 h0, (walk_snoc_of_some hn).trans hc, ?_⟩
    have hne : q ++ [i] ≠ [0] := by
      intro he
      have hl := congrArg List.length he
      simp only [List.length_append, List.length_singleton] at hl
      obtain rfl : q = [] := List.eq_nil_of_length_eq_zero (by omega)
      exact h0 rfl (by simpa using he)
    rw [roleOf_snoc hne hn]
    simp only [List.length_append, List.length_singleton, Option.some.injEq]
    by_cases h3 : q.length < 3
    · rw [if_pos h3, if_pos (by omega)]
    · rw [if_neg h3, if_neg (by omega)]
  cases r with
  | l4Table =>
    obtain rfl : f = s.pageTable.l4Table := h
    exact ⟨[], nil_mem_paths, rfl, rfl⟩
  | identityTable => exact ⟨[0], zero_mem_paths, walk_singleton.trans h, rfl⟩
  | node t i =>
    obtain ⟨depth, hd, ⟨q, hq, hl, hq0, hn⟩, hi, h0, hc⟩ := h
    have hp := hsnoc q t i hq (by omega) hi hq0 (fun hz => h0 (by omega)) hn hc
    rwa [if_pos (by omega)] at hp
  | page t i =>
    obtain ⟨⟨q, hq, hl, hq0, hn⟩, hi, hc⟩ := h
    have hp := hsnoc q t i hq (by omega) hi hq0 (fun hz => by omega) hn hc
    rwa [if_neg (by omega)] at hp

theorem exists_role (hp : p ∈ Paths) (hf : s.node p = some f) :
    ∃ r, s.roleOf p = some r ∧ r.Holds s f := by
  rcases List.eq_nil_or_concat p with rfl | ⟨q, i, rfl⟩
  · exact ⟨.l4Table, rfl, (Option.some.inj hf).symm⟩
  · rw [List.concat_eq_append] at hp hf ⊢
    by_cases hne : q ++ [i] = [0]
    · rw [hne] at hf ⊢
      exact ⟨.identityTable, rfl, walk_singleton.symm.trans hf⟩
    · obtain ⟨t, ht⟩ := walk_prefix_isSome hf
      have hc : child s.mem t i = some f := (walk_snoc_of_some ht).symm.trans hf
      have hlen : q.length + 1 ≤ 4 := by simpa using hp.1
      have hq0 : q ≠ [0] := by
        rintro rfl
        have := hp.2.2 rfl
        simp at this
      have hi := index_lt_of_mem_paths hp
      have htab : s.HeapTable q.length t := ⟨q, prefixClosed_paths q [i] hp, rfl, hq0, ht⟩
      refine ⟨_, roleOf_snoc hne ht, ?_⟩
      rw [List.length_append, List.length_singleton]
      by_cases h3 : q.length < 3
      · rw [if_pos (by omega)]
        refine ⟨q.length, h3, htab, hi, fun hz => ?_, hc⟩
        rintro rfl
        exact hne (by rw [List.eq_nil_of_length_eq_zero hz]; rfl)
      · rw [if_neg (by omega)]
        exact ⟨by rwa [show q.length = 3 by omega] at htab, hi, hc⟩

theorem TablesInv.role_unique (h : TablesInv managed limit s P) (hf : f ∈ outstanding s.events) :
    ∃! r : FrameRole, r.Holds s f := by
  obtain ⟨p, hp, hn⟩ := (h.owns.mem_iff f).mp hf
  obtain ⟨r, hr, hh⟩ := exists_role hp hn
  refine ⟨r, hh, fun r' hr' => ?_⟩
  obtain ⟨p', hp', hn', hrole⟩ := hr'.path
  obtain rfl := h.owns.unique p hp p' hp' f hn hn'
  exact Option.some.inj (hrole.symm.trans hr)

/-- In every run in which a frame was always to be had, each outstanding frame has one
role, every frame with a role is outstanding, and no two pages share a frame. -/
theorem frames_owned {B : BootPool} {s0 : Machine} (hboot : Booted B s0)
    (hrun : VmRun (fun _ _ => True) (s0, ∅) (s, live)) (hnull : .pfAlloc 0 ∉ s.events) :
    (∃ l, CircularList s.mem l ∧
      (l ++ outstanding s.events ++ upperRange s.mem).Perm B.managed) ∧
    (∀ f ∈ outstanding s.events, ∃! r : FrameRole, r.Holds s f) ∧
    (∀ f, ∀ r : FrameRole, r.Holds s f → f ∈ outstanding s.events) ∧
    ∀ va vb f, IsPage va → IsPage vb → s.node (pathOf va) = some f → s.node (pathOf vb) = some f →
      va = vb := by
  obtain ⟨limit, Q, h⟩ := hrun.inv_of_booted hboot hnull
  refine ⟨⟨Q.pages, h.tables.pool.partition⟩, fun f hf => h.tables.role_unique hf, ?_, ?_⟩
  · intro f r hr
    obtain ⟨p, hp, hn, -⟩ := hr.path
    exact h.tables.node_mem hp hn
  · intro va vb f hva hvb ha hb
    have hpath := h.tables.owns.unique _ hva.pathOf_mem _ hvb.pathOf_mem f ha hb
    exact pathOf_injOn hva.1 hvb.1 hva.2.2 hvb.2.2 hpath

/-- One page allocated and then touched, on the roomy machine. -/
def roomyReserved : Machine := afterCall (.allocPages 1) (initMachine roomyBoot)

def roomyTouched : Machine := afterCall (.pageFault 0x10000000123) roomyReserved

theorem roomyTouched_returned :
    returned (VmCall.exec 3 (.allocPages 1) (initMachine roomyBoot)) = some () ∧
      returned (VmCall.exec 3 (.pageFault 0x10000000123) roomyReserved) = some () ∧
      .pfAlloc 0 ∉ roomyTouched.events ∧ (outstanding roomyTouched.events).length = 6 := by
  decide +kernel

theorem roomyTouched_run : VmRun (fun _ _ => True) (initMachine roomyBoot, ∅)
    (roomyTouched, ∅ ∪ pageRange (initMachine roomyBoot).kernHeapTop 1) := by
  have halloc : VmStep (fun _ _ => True) (initMachine roomyBoot, ∅)
      (roomyReserved, ∅ ∪ pageRange (initMachine roomyBoot).kernHeapTop 1) :=
    .of_returned trivial trivial roomyTouched_returned.1
  exact (Relation.ReflTransGen.single halloc).tail
    (.of_returned trivial trivial roomyTouched_returned.2.1)

theorem frames_owned_roomy : (outstanding roomyTouched.events).length = 6 ∧
    ∀ f ∈ outstanding roomyTouched.events, ∃! r : FrameRole, r.Holds roomyTouched f := by
  obtain ⟨-, -, hnull, hlen⟩ := roomyTouched_returned
  obtain ⟨-, hroles, -⟩ := frames_owned roomyBoot_booted roomyTouched_run hnull
  exact ⟨hlen, hroles⟩

end SkipOS
