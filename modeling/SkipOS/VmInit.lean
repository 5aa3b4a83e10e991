import SkipOS.VmAlloc

/-! `MMU_init_vp` on a fresh pool: an L4 table whose entry 0 leads to the identity table
and whose other entries are not present. -/

namespace SkipOS

open Mem Exec Walk

/-- `MMU_init_vp` has returned, on the pool of `B` and with no frame handed out before. -/
def Booted (B : BootPool) (s : Machine) : Prop :=
  ∃ s0 : Machine, s0.mem = B.mem ∧ s0.events = [] ∧ mmuInitVp s0 = .ok () s

def identityEntry : Word := presentMask ||| writeableMask ||| pageSize1gbMsk

/-- `n` entries of the identity table from index `i` on. -/
def identityMem (table : Word) : Nat → Word → Mem → Mem
  | 0, _, m => m
  | n + 1, i, m => identityMem table n (i + 1) (m.store64 (entryPtr table i) identityEntry)

variable {managed : List Word} {limit table i j : Word} {s s' : Machine} {m m' : Mem} {n : Nat}
  {out : List Word} {P : Pool}

theorem identityLoop_apply (table : Word) (n : Nat) (i : Word) (s : Machine) :
    ∃ es, identityLoop table n i s =
        .ok () { s with mem := identityMem table n i s.mem, events := es ++ s.events } ∧
      ∀ e ∈ es, ∃ p v, e = .setEntry p v := by
  induction n generalizing i s with
  | zero => exact ⟨[], rfl, by simp⟩
  | succ n ih =>
    obtain ⟨es, hrun, hes⟩ := ih (i + 1)
      { s with mem := s.mem.store64 (entryPtr table i) identityEntry,
               events := .setEntry (entryPtr table i) identityEntry :: s.events }
    refine ⟨es ++ [.setEntry (entryPtr table i) identityEntry], ?_, ?_⟩
    · rw [identityLoop, bind_of_ok (setEntry_apply _ _ _)]
      refine hrun.trans ?_
      rw [List.append_assoc]
      rfl
    · intro e he
      rcases List.mem_append.mp he with he | he
      · exact hes e he
      · exact ⟨_, _, List.mem_singleton.mp he⟩

theorem identityLoop_eq_ok {u : Unit} (h : identityLoop table n i s = .ok u s') :
    ∃ es, s' = { s with mem := identityMem table n i s.mem, events := es ++ s.events } ∧
      ∀ e ∈ es, ∃ p v, e = .setEntry p v := by
  obtain ⟨es, hrun, hes⟩ := identityLoop_apply table n i s
  rw [hrun, EStateM.Result.ok.injEq] at h
  exact ⟨es, h.2.symm, hes⟩

/-- `put` at `n` entries from index `i` on. -/
def putEntries (put : Word → Mem → Mem) : Nat → Word → Mem → Mem
  | 0, _, m => m
  | n + 1, i, m => putEntries put n (i + 1) (put i m)

section PutEntries

variable {put : Word → Mem → Mem} {K : Mem → Prop} {v : Word → Word}

theorem putEntries_eqOn (hput : ∀ i < 512, ∀ m, Set.EqOn (put i m) m (frame table)ᶜ)
    (hn : i.toNat + n ≤ 512) : Set.EqOn (putEntries put n i m) m (frame table)ᶜ := by
  induction n generalizing i m with
  | zero => exact fun _ _ => rfl
  | succ n ih => exact (ih (by bv_omega)).trans (hput i (by bv_omega) m)

theorem putEntries_load (hput : ∀ i < 512, ∀ m, K m → K (put i m) ∧ ∀ j < 512,
      (put i m).load64 (entryPtr table j) = if j = i then v i else m.load64 (entryPtr table j))
    (hm : K m) (hn : i.toNat + n ≤ 512) (hj : j < 512) :
    (putEntries put n i m).load64 (entryPtr table j) =
      if i.toNat ≤ j.toNat ∧ j.toNat < i.toNat + n then v j
      else m.load64 (entryPtr table j) := by
  induction n generalizing i m with
  | zero => rw [putEntries, if_neg (by omega)]
  | succ n ih =>
    have hs : (i + 1).toNat = i.toNat + 1 := by bv_omega
    obtain ⟨hok, hload⟩ := hput i (by bv_omega) m hm
    rw [putEntries, ih hok (by omega), hload j hj]
    by_cases hij : j = i
    · subst hij
      rw [if_neg (by omega), if_pos rfl, if_pos (by omega)]
    · have hne : j.toNat ≠ i.toNat := fun he => hij (BitVec.eq_of_toNat_eq he)
      rw [if_neg hij]
      exact if_congr (by omega) rfl rfl

end PutEntries

theorem identityMem_eq : identityMem table n i m =
    putEntries (fun i m => m.store64 (entryPtr table i) identityEntry) n i m := by
  induction n generalizing i m with
  | zero => rfl
  | succ n ih => exact ih

theorem identityMem_eqOn (hn : i.toNat + n ≤ 512) :
    Set.EqOn (identityMem table n i m) m (frame table)ᶜ := by
  rw [identityMem_eq]
  refine putEntries_eqOn (fun i hi m => (store64_eqOn_compl _ _ _).mono ?_) hn
  exact Set.compl_subset_compl.mpr (span_entryPtr_subset hi)

theorem identityMem_load (ht : Aligned table) (hn : i.toNat + n ≤ 512) (hj : j < 512) :
    (identityMem table n i m).load64 (entryPtr table j) =
      if i.toNat ≤ j.toNat ∧ j.toNat < i.toNat + n then identityEntry
      else m.load64 (entryPtr table j) := by
  rw [identityMem_eq]
  refine putEntries_load (K := fun _ => True) (v := fun _ => identityEntry)
    (fun i hi m _ => ⟨trivial, fun j hj => ?_⟩) trivial hn hj
  by_cases hij : j = i
  · rw [hij, if_pos rfl, load64_store64_self]
  · rw [if_neg hij, load64_store64_of_disjoint (entryPtr_disjoint ht hi hj (Ne.symm hij))]

theorem outstanding_setEntries {es : List VmEvent} (hes : ∀ e ∈ es, ∃ p v, e = .setEntry p v)
    (evs : List VmEvent) : outstanding (es ++ evs) = outstanding evs := by
  induction es with
  | nil => rfl
  | cons e es ih =>
    obtain ⟨p, v, rfl⟩ := hes e List.mem_cons_self
    exact ih fun e he => hes e (List.mem_cons_of_mem _ he)

theorem TablesInv.boot {l4 l3 : Word} {Q : Pool}
    (hpool : PoolInv managed limit s.mem (outstanding s.events) Q) (hne : Q.pages ≠ [])
    (hout : outstanding s.events = [l3, l4]) (hpt : s.pageTable = ⟨l4⟩) (hcr3 : s.cr3 = l4)
    (hroot : ∀ j < 512, s.mem.load64 (entryPtr l4 j) =
      if j = 0 then l3 ||| (writeableMask ||| presentMask) else 0)
    (hid : ∀ j < 512, s.mem.load64 (entryPtr l3 j) = identityEntry) :
    TablesInv managed limit s Q ∧ ∀ p ∈ Paths, p ≠ [] → p ≠ [0] → s.node p = none := by
  have hl3 : Aligned l3 := hpool.out_aligned (by rw [hout]; exact List.mem_cons_self)
  have hnil : s.node [] = some l4 := by
    rw [Machine.node, hpt]
    rfl
  have hzero : s.node [0] = some l3 := by
    rw [Machine.node, walk_singleton, hpt]
    exact child_linked hl3 (hroot 0 (by decide))
  have hnone : ∀ p ∈ Paths, p ≠ [] → p ≠ [0] → s.node p = none := by
    rintro (_ | ⟨i, p⟩) hp hne hne0
    · exact absurd rfl hne
    · have hi : i < 512 := hp.2.1 i List.mem_cons_self
      by_cases hi0 : i = 0
      · subst hi0
        have hlen := hp.2.2 rfl
        obtain rfl : p = [] := by
          rw [List.length_cons] at hlen
          exact List.eq_nil_of_length_eq_zero (by omega)
        exact absurd rfl hne0
      · have hc : child s.mem s.pageTable.l4Table i = none := by
          rw [child_eq_none_iff, hpt, hroot i hi, if_neg hi0]
          rfl
        rw [Machine.node, walk, hc, Option.bind_none]
  have hcases : ∀ p ∈ Paths, ∀ n, s.node p = some n → (p = [] ∧ n = l4) ∨ (p = [0] ∧ n = l3) := by
    intro p hp n hn
    by_cases hp0 : p = []
    · exact Or.inl ⟨hp0, Option.some.inj (hn.symm.trans (hp0 ▸ hnil))⟩
    · by_cases hp1 : p = [0]
      · exact Or.inr ⟨hp1, Option.some.inj (hn.symm.trans (hp1 ▸ hzero))⟩
      · rw [hnone p hp hp0 hp1] at hn
        simp at hn
  have hdist : l3 ≠ l4 := by
    have hnd := (List.nodup_append.mp (hpool.perm.nodup_iff.mpr hpool.nodup)).2.1
    rw [hout] at hnd
    simpa using hnd
  refine ⟨⟨hpool, hne, by rw [hcr3, hpt], ⟨fun n => ?_, ?_⟩, l3, hzero, hid⟩, hnone⟩
  · rw [hout]
    constructor
    · intro hm
      rcases List.mem_cons.mp hm with rfl | hm
      · exact ⟨[0], zero_mem_paths, hzero⟩
      · rw [List.mem_singleton.mp hm]
        exact ⟨[], nil_mem_paths, hnil⟩
    · rintro ⟨p, hp, hn⟩
      rcases hcases p hp n hn with ⟨-, rfl⟩ | ⟨-, rfl⟩ <;> simp
  · intro p hp q hq n hpn hqn
    rcases hcases p hp n hpn with ⟨rfl, rfl⟩ | ⟨rfl, rfl⟩ <;>
      rcases hcases q hq _ hqn with ⟨rfl, h⟩ | ⟨rfl, h⟩
    · rfl
    · exact absurd h.symm hdist
    · exact absurd h hdist
    · rfl

theorem PagesInv.boot (hn : ∀ p ∈ Paths, p ≠ [] → p ≠ [0] → s.node p = none)
    (htop : s.kernHeapTop = kernHeapBase) : PagesInv s ∅ := by
  have htop' : s.kernHeapTop.toNat = 2 ^ 40 := by
    rw [htop]
    rfl
  refine ⟨by omega, by omega, by omega, by simp, by simp, fun va hva _ => Or.inl ?_⟩
  rw [Machine.leafFlags, hn _ hva.tablePath_mem (by simp [tablePath]) (by simp [tablePath]),
    Option.map_none]

theorem PoolInv.fill_out (h : PoolInv managed limit m out P) {p : Word} (hp : p ∈ out) :
    PoolInv managed limit (m.fill p 4096 0) out P :=
  h.of_eqOn ((fill_eqOn_compl _ _ _ _).mono (Set.compl_subset_compl.mpr (frame_subset_frames hp)))

/-- Whatever it returns, an allocation writes to the head and to pages of the pool only. -/
theorem PoolInv.alloc_eqOn (h : PoolInv managed limit m out P) {p : Word}
    (hrun : mmuPfAlloc m = .ok p m') : Set.EqOn m' m (frames (0 :: managed))ᶜ := by
  rcases h.alloc hrun with ⟨-, -, rfl⟩ | ⟨-, Q, -, -, -, heq⟩
  · exact fun _ _ => rfl
  · refine heq.mono (Set.compl_subset_compl.mpr (frames_mono (List.cons_subset_cons 0 ?_)))
    exact fun q hq => h.mem_managed.mpr (Or.inl hq)

/-- An allocation that returned a frame, read off the record. -/
theorem pfAlloc_pool (h : PoolInv managed limit m out P) {p : Word} (hp : p ≠ 0)
    (hrun : mmuPfAlloc m = .ok p m') :
    p ∈ P.free ∧ Set.EqOn m' m (frames (0 :: P.free))ᶜ ∧
      ∃ Q, PoolInv managed limit m' (p :: out) Q ∧ Q.pages ≠ [] := by
  rcases h.alloc hrun with ⟨-, h0, -⟩ | ⟨hf, Q, hQ, -, hne, heq⟩
  · exact absurd h0 hp
  · exact ⟨hf, heq, Q, hQ, hne⟩

/-- The memory that `MMU_init_vp` leaves, from the two memories its allocations left. -/
def bootMem (l4 l3 : Word) (m : Mem) : Mem :=
  identityMem l3 entriesPerTable 0 (linkedMem (m.fill l3 4096 0) l3 (entryPtr l4 0))

section BootMem

variable {l4 l3 : Word}

theorem bootMem_l3 (h3 : Aligned l3) (hj : j < 512) :
    (bootMem l4 l3 m).load64 (entryPtr l3 j) = identityEntry := by
  rw [bootMem, identityMem_load h3 (by decide) hj, if_pos]
  simp only [entriesPerTable]
  bv_omega

theorem bootMem_l4 (h4 : Aligned l4) (h3 : Aligned l3) (hne : l4 ≠ l3) (hj : j < 512) :
    (bootMem l4 l3 m).load64 (entryPtr l4 j) =
      if j = 0 then l3 ||| (writeableMask ||| presentMask) else m.load64 (entryPtr l4 j) := by
  have hkept : span (entryPtr l4 j) 8 ⊆ (frame l3)ᶜ :=
    Set.subset_compl_iff_disjoint_right.mpr
      ((disjoint_frame h4 h3 hne).mono_left (span_entryPtr_subset hj))
  rw [bootMem, load64_congr ((identityMem_eqOn (by decide)).mono hkept)]
  by_cases hj0 : j = 0
  · rw [if_pos hj0, hj0, linkedMem_load_self]
  · rw [if_neg hj0, load64_congr ((linkedMem_eqOn _ _ _).mono
      (Set.subset_compl_iff_disjoint_right.mpr (entryPtr_disjoint h4 hj (by decide) hj0))),
      load64_congr ((fill_eqOn_compl _ _ _ _).mono hkept)]

theorem bootMem_eqOn : Set.EqOn (bootMem l4 l3 m) m (frames [l3, l4])ᶜ := by
  intro a ha
  have ha3 : a ∉ frame l3 := fun hm => ha ⟨l3, List.mem_cons_self, hm⟩
  have ha4 : a ∉ frame l4 := fun hm => ha ⟨l4, List.mem_cons_of_mem _ List.mem_cons_self, hm⟩
  rw [bootMem, identityMem_eqOn (by decide) ha3,
    linkedMem_eqOn _ _ _ fun hm => ha4 (span_entryPtr_subset (by decide) hm),
    fill_eqOn_compl _ _ _ _ ha3]

end BootMem

theorem mmuInitVp_eq_ok {s0 : Machine} (hrun : mmuInitVp s0 = .ok () s) :
    ∃ l4 m1 l3 m2 es, mmuPfAlloc s0.mem = .ok l4 m1 ∧
      mmuPfAlloc (m1.fill l4 4096 0) = .ok l3 m2 ∧ (∀ e ∈ es, ∃ p v, e = .setEntry p v) ∧
      s.mem = bootMem l4 l3 m2 ∧ s.pageTable = ⟨l4⟩ ∧ s.cr3 = l4 ∧ s.kernHeapTop = kernHeapBase ∧
      s.events = es ++ [.memset l3, .pfAlloc l3, .memset l4, .pfAlloc l4] ++ s0.events := by
  obtain ⟨l4, s1, h1, hrun⟩ := bind_eq_ok.mp hrun
  obtain ⟨m1, hm1, rfl⟩ := pfAlloc_eq_ok h1
  rw [bind_modify, bind_of_ok (memsetPage_apply _ _)] at hrun
  obtain ⟨_, s2, hsetup, hrun⟩ := bind_eq_ok.mp hrun
  obtain ⟨l3, s3, h3, hsetup⟩ := bind_eq_ok.mp hsetup
  obtain ⟨m2, hm2, rfl⟩ := pfAlloc_eq_ok h3
  rw [bind_of_ok (memsetPage_apply _ _), bind_of_ok (setEntry_apply _ _ _),
    bind_of_ok (updateEntry_apply _ _ _), load64_store64_self] at hsetup
  obtain ⟨es, rfl, hes⟩ := identityLoop_eq_ok hsetup
  rw [bind_modify, modify_apply, EStateM.Result.ok.injEq] at hrun
  obtain ⟨-, rfl⟩ := hrun
  refine ⟨l4, m1, l3, m2, es ++ [.setEntry (entryPtr l4 0) (l3 ||| (presentMask ||| writeableMask)),
    .setEntry (entryPtr l4 0) l3], hm1, hm2, ?_, ?_, rfl, rfl, rfl, by simp⟩
  intro e he
  rcases List.mem_append.mp he with he | he
  · exact hes e he
  · simp only [List.mem_cons, List.not_mem_nil, or_false] at he
    rcases he with rfl | rfl <;> exact ⟨_, _, rfl⟩
  · simp only [bootMem, linkedMem, BitVec.or_comm writeableMask]

theorem Booted.inv {B : BootPool} (h : Booted B s) (hnull : .pfAlloc 0 ∉ s.events) :
    ∃ Q, VmInv B.managed (headBaseAddr B.mem 0 + headLength B.mem 0) s ∅ Q := by
  obtain ⟨s0, hmem, hev, hrun⟩ := h
  obtain ⟨l4, m1, l3, m2, es, hm1, hm2, hes, hsm, hpt, hcr3, htop, hevents⟩ := mmuInitVp_eq_ok hrun
  have hl4 : l4 ≠ 0 := by
    rintro rfl
    exact hnull (by simp [hevents])
  have hl3 : l3 ≠ 0 := by
    rintro rfl
    exact hnull (by simp [hevents])
  rw [hmem] at hm1
  obtain ⟨-, -, Q1, hQ1, -⟩ := pfAlloc_pool B.inv hl4 hm1
  have hfill := hQ1.fill_out List.mem_cons_self
  obtain ⟨hfree, heq, Q2, hQ2, hne⟩ := pfAlloc_pool hfill hl3 hm2
  have hal4 : Aligned l4 := hfill.out_aligned List.mem_cons_self
  have hal3 : Aligned l3 := hQ2.out_aligned List.mem_cons_self
  have hdist : l3 ≠ l4 := by
    rintro rfl
    exact hfill.out_not_free List.mem_cons_self hfree
  have hsub : frame l4 ⊆ (frames (0 :: Q1.free))ᶜ := by
    refine frame_subset_compl_frames hal4 ?_ fun hm => ?_
    · intro c hc
      rcases List.mem_cons.mp hc with rfl | hc
      · exact aligned_zero
      · exact hfill.wf.aligned c hc
    · rcases List.mem_cons.mp hm with h0 | hm
      · exact hl4 h0
      · exact hfill.out_not_free List.mem_cons_self hm
  have hid : ∀ j < 512, s.mem.load64 (entryPtr l3 j) = identityEntry := fun j hj => by
    rw [hsm, bootMem_l3 hal3 hj]
  have hroot : ∀ j < 512, s.mem.load64 (entryPtr l4 j) =
      if j = 0 then l3 ||| (writeableMask ||| presentMask) else 0 := by
    intro j hj
    rw [hsm, bootMem_l4 hal4 hal3 hdist.symm hj,
      load64_congr (heq.mono ((span_entryPtr_subset hj).trans hsub))]
    exact if_congr Iff.rfl rfl (field_fill_zero (isSlot_entry hj))
  have hout : outstanding s.events = [l3, l4] := by
    rw [hevents, List.append_assoc, outstanding_setEntries hes, hev]
    simp only [List.cons_append, List.nil_append, outstanding, if_neg hl3, if_neg hl4]
  have hpool : PoolInv B.managed (headBaseAddr B.mem 0 + headLength B.mem 0) s.mem
      (outstanding s.events) Q2 := by
    rw [hout, hsm]
    exact hQ2.of_eqOn bootMem_eqOn
  obtain ⟨htab, hnone⟩ := TablesInv.boot hpool hne hout hpt hcr3 hroot hid
  exact ⟨Q2, htab, PagesInv.boot hnone htop⟩

/-- A machine before `MMU_init_vp`, and after it. -/
def startMachine (m : Mem) : Machine := ⟨m, ⟨0⟩, 0, 0, 0, fun _ => none, []⟩

def initMachine (B : BootPool) : Machine := final (mmuInitVp (startMachine B.mem))

theorem booted_of_returned {B : BootPool} (h : returned (mmuInitVp (startMachine B.mem)) = some ()) :
    Booted B (initMachine B) := ⟨startMachine B.mem, rfl, rfl, eq_ok_of_returned h⟩

theorem smallBoot_booted : Booted smallBoot (initMachine smallBoot) :=
  booted_of_returned (by decide +kernel)

theorem roomyBoot_booted : Booted roomyBoot (initMachine roomyBoot) :=
  booted_of_returned (by decide +kernel)

end SkipOS
