import SkipOS.PoolAlloc
import SkipOS.PoolInit
import Mathlib.Logic.Relation

/-! Runs of the page frame allocator from any pool that `init_pool` sets up, with
clients writing into the pages they hold. -/

namespace SkipOS

open Mem Exec

/-- The pages of `[base_addr, base_addr + length)`. -/
def upperRange (m : Mem) : List Word :=
  pagesFrom (headBaseAddr m 0) ((headLength m 0).toNat / 4096)

/-- A completed `init_pool` whose upper range does not wrap and meets neither the lower
pages nor the first page, where the head lies. -/
structure BootPool where
  before : Mem
  mmapInfo : MmapInfo
  elfInfo : ElfInfo
  lower : Word
  head : Word
  mem : Mem
  lower_eq : usableLower before mmapInfo = some lower
  init : initPool mmapInfo elfInfo before = .ok head mem
  noWrap : (headBaseAddr mem 0).toNat + (headLength mem 0).toNat ≤ 2 ^ 64
  disjoint : ∀ p ∈ upperRange mem, p ≠ 0 ∧ p ∉ lowerPages (lowerLengthOf before lower)

/-- The lower pages and the upper range as `init_pool` left them. -/
def BootPool.managed (B : BootPool) : List Word :=
  lowerPages (lowerLengthOf B.before B.lower) ++ upperRange B.mem

/-- One call of the allocator, or one byte written by the holder of a page. The second
component lists the pages handed out and not yet given back. -/
inductive PfStep : Mem × List Word → Mem × List Word → Prop
  | alloc {m m' : Mem} {out : List Word} {p : Word} (hrun : mmuPfAlloc m = .ok p m')
      (hp : p ≠ 0) : PfStep (m, out) (m', p :: out)
  | allocNull {m m' : Mem} {out : List Word} (hrun : mmuPfAlloc m = .ok 0 m') :
      PfStep (m, out) (m', out)
  | free {m m' : Mem} {out : List Word} {p : Word} (hp : p ∈ out)
      (hrun : mmuPfFree p m = .ok () m') : PfStep (m, out) (m', out.erase p)
  | write {m : Mem} {out : List Word} {p a : Word} {v : Byte} (hp : p ∈ out) (ha : a ∈ frame p) :
      PfStep (m, out) (m.storeByte a v, out)

abbrev PfRun := Relation.ReflTransGen PfStep

/-- Memory holds a pool whose free pages and the outstanding ones make up `managed`. -/
structure PoolInv (managed : List Word) (limit : Word) (m : Mem) (out : List Word) (P : Pool) :
    Prop where
  rep : PoolRep m P
  wf : P.Wf
  perm : (P.free ++ out).Perm managed
  nodup : managed.Nodup
  aligned : ∀ p ∈ managed, Aligned p
  zero : 0 ∉ managed
  limit_eq : P.base + BitVec.ofNat 64 (4096 * P.count) = limit

variable {managed out : List Word} {limit p a : Word} {m m' : Mem} {P : Pool} {v : Byte}

theorem PoolInv.mem_managed (h : PoolInv managed limit m out P) :
    p ∈ managed ↔ p ∈ P.free ∨ p ∈ out := by
  rw [← h.perm.mem_iff, List.mem_append]

theorem PoolInv.out_not_free (h : PoolInv managed limit m out P) (hp : p ∈ out) :
    p ∉ P.free := by
  intro hf
  exact (List.nodup_append.mp (h.perm.nodup_iff.mpr h.nodup)).2.2 p hf p hp rfl

theorem PoolInv.out_aligned (h : PoolInv managed limit m out P) (hp : p ∈ out) : Aligned p :=
  h.aligned p (h.mem_managed.mpr (Or.inr hp))

theorem Pool.limit_refill (P : Pool) {k : Nat} (hk : k ≤ P.count) :
    (P.refill k).base + BitVec.ofNat 64 (4096 * (P.refill k).count) =
      P.base + BitVec.ofNat 64 (4096 * P.count) := by
  simp only [Pool.refill]
  bv_omega

theorem Pool.limit_topUp (P : Pool) :
    P.topUp.base + BitVec.ofNat 64 (4096 * P.topUp.count) =
      P.base + BitVec.ofNat 64 (4096 * P.count) := by
  by_cases h : P.pages.length ≤ 1
  · rw [Pool.topUp, if_pos h]
    exact P.limit_refill (Nat.min_le_right _ _)
  · rw [Pool.topUp, if_neg h]

/-- An allocation that returns either leaves an exhausted pool as it was and gives NULL,
or takes one free page off the pool and writes to no other frame than the head's and the
free ones. -/
theorem PoolInv.alloc (h : PoolInv managed limit m out P) (hrun : mmuPfAlloc m = .ok p m') :
    (P.Exhausted ∧ p = 0 ∧ m' = m) ∨
      (p ∈ P.free ∧ ∃ Q, PoolInv managed limit m' (p :: out) Q ∧ P.free.Perm (p :: Q.free) ∧
        Q.pages ≠ [] ∧ Set.EqOn m' m (frames (0 :: P.free))ᶜ) := by
  rcases P.alloc_cases with he | ⟨hp, hc⟩ | ⟨l, e, hl, hne⟩
  · left
    rw [mmuPfAlloc_exhausted h.rep h.wf he, EStateM.Result.ok.injEq] at hrun
    exact ⟨he, hrun.1.symm, hrun.2.symm⟩
  · obtain ⟨m1, hfail⟩ := mmuPfAlloc_single h.rep h.wf hp hc
    simp [hfail] at hrun
  · right
    obtain ⟨m1, hok, hrep, hf⟩ := mmuPfAlloc_pop h.rep h.wf hl hne
    rw [hok, EStateM.Result.ok.injEq] at hrun
    obtain ⟨rfl, rfl⟩ := hrun
    have hnil : P.topUp.pages ≠ [] := by simp [hl]
    have hperm : P.free.Perm (e :: P.topUp.drop.free) := by
      have hd := P.topUp.free_drop hnil
      rw [P.free_topUp] at hd
      simpa only [hl, List.getLast_append_singleton] using hd
    have hpages : P.topUp.drop.pages ≠ [] := by simpa [Pool.drop, hl] using hne
    have htotal : (P.topUp.drop.free ++ e :: out).Perm managed :=
      (List.perm_middle.trans (hperm.symm.append_right out)).trans h.perm
    exact ⟨hperm.mem_iff.mpr List.mem_cons_self, P.topUp.drop,
      ⟨hrep, h.wf.topUp.drop, htotal, h.nodup, h.aligned, h.zero, P.limit_topUp.trans h.limit_eq⟩,
      hperm, hpages, hf⟩

theorem PoolInv.free_page_ne_zero (h : PoolInv managed limit m out P) (hp : p ∈ P.free) :
    p ≠ 0 := by
  rintro rfl
  exact (List.nodup_cons.mp h.wf.nodup).1 hp

theorem PoolInv.free (h : PoolInv managed limit m out P) (hp : p ∈ out) :
    ∃ m', mmuPfFree p m = .ok () m' ∧ PoolInv managed limit m' (out.erase p) (P.push p) ∧
      Set.EqOn m' m (frames (0 :: p :: P.pages))ᶜ := by
  have hpm : p ∈ managed := h.mem_managed.mpr (Or.inr hp)
  have hf := h.out_not_free hp
  have h0 : p ≠ 0 := by
    rintro rfl
    exact h.zero hpm
  obtain ⟨m', hrun, hrep, he⟩ := mmuPfFree_rep h.rep h.wf (h.out_aligned hp) h0 hf
  refine ⟨m', hrun, ⟨hrep, h.wf.push (h.out_aligned hp) h0 hf, ?_, h.nodup, h.aligned,
    h.zero, h.limit_eq⟩, he⟩
  have hpush := (P.free_push p).append_right (out.erase p)
  have hout := (List.perm_cons_erase hp).symm
  exact (hpush.trans (List.perm_middle.symm.trans (hout.append_left P.free))).trans h.perm

theorem PoolInv.of_eqOn (h : PoolInv managed limit m out P) (he : Set.EqOn m' m (frames out)ᶜ) :
    PoolInv managed limit m' out P := by
  refine ⟨h.rep.congr ?_, h.wf, h.perm, h.nodup, h.aligned, h.zero, h.limit_eq⟩
  rintro b ⟨q, hq, hb⟩
  have hqo : q ∉ out := by
    intro hm
    rcases List.mem_cons.mp hq with rfl | hq
    · exact h.zero (h.mem_managed.mpr (Or.inr hm))
    · exact h.out_not_free hm (List.mem_append_left _ hq)
  exact he (frame_subset_compl_frames (h.wf.pages_aligned hq) (fun x hx => h.out_aligned hx) hqo hb)

theorem PoolInv.write (h : PoolInv managed limit m out P) (hp : p ∈ out) (ha : a ∈ frame p) :
    PoolInv managed limit (m.storeByte a v) out P := by
  refine h.of_eqOn fun b hb => ?_
  have hba : b ≠ a := by
    rintro rfl
    exact hb ⟨p, hp, ha⟩
  simp [storeByte, hba]

/-- With pages outstanding the list is not empty: the allocator never takes the last page. -/
def Stocked (managed : List Word) (limit : Word) (s : Mem × List Word) : Prop :=
  ∃ P, PoolInv managed limit s.1 s.2 P ∧ (s.2 ≠ [] → P.pages ≠ [])

theorem PfStep.stocked {s t : Mem × List Word} (hs : PfStep s t) (h : Stocked managed limit s) :
    Stocked managed limit t := by
  obtain ⟨P, h, hne⟩ := h
  cases hs with
  | alloc hrun hp =>
    rcases h.alloc hrun with ⟨-, h0, -⟩ | ⟨-, Q, hQ, -, hQne, -⟩
    · exact absurd h0 hp
    · exact ⟨Q, hQ, fun _ => hQne⟩
  | allocNull hrun =>
    rcases h.alloc hrun with ⟨-, -, rfl⟩ | ⟨hf, -⟩
    · exact ⟨P, h, hne⟩
    · exact absurd rfl (h.free_page_ne_zero hf)
  | free hp hrun =>
    obtain ⟨m', hok, hinv, -⟩ := h.free hp
    rw [hok, EStateM.Result.ok.injEq] at hrun
    exact ⟨_, hrun.2 ▸ hinv, fun _ => List.append_ne_nil_of_right_ne_nil _ (List.cons_ne_nil _ _)⟩
  | write hp ha => exact ⟨P, h.write hp ha, hne⟩

/-- The pool `init_pool` leaves behind, before any page is handed out. -/
def BootPool.pool (B : BootPool) : Pool :=
  ⟨lowerPages (lowerLengthOf B.before B.lower), headBaseAddr B.mem 0,
    (headLength B.mem 0).toNat / 4096⟩

theorem nodup_pagesFrom {b : Word} {n : Nat} (h : b.toNat + 4096 * n ≤ 2 ^ 64) :
    (pagesFrom b n).Nodup ∧ ∀ x ∈ pagesFrom b n, b.toNat ≤ x.toNat := by
  induction n generalizing b with
  | zero => simp [pagesFrom]
  | succ n ih =>
    by_cases hn : n = 0
    · subst hn
      simp [pagesFrom]
    · have hb : (b + pageSize).toNat = b.toNat + 4096 := by
        simp only [pageSize]
        bv_omega
      obtain ⟨hnd, hle⟩ := ih (b := b + pageSize) (by omega)
      refine ⟨List.nodup_cons.mpr ⟨fun hm => ?_, hnd⟩, ?_⟩
      · have := hle b hm
        omega
      · intro x hx
        rcases List.mem_cons.mp hx with rfl | hx
        · exact Nat.le_refl _
        · have := hle x hx
          omega

theorem aligned_pagesFrom {b : Word} (hb : Aligned b) (n : Nat) :
    ∀ x ∈ pagesFrom b n, Aligned x := by
  induction n generalizing b with
  | zero => simp [pagesFrom]
  | succ n ih =>
    intro x hx
    rcases List.mem_cons.mp hx with rfl | hx
    · exact hb
    · refine ih (b := b + pageSize) ?_ x hx
      simp only [Aligned, pageSize] at hb ⊢
      bv_omega

theorem BootPool.inv (B : BootPool) :
    PoolInv B.managed (headBaseAddr B.mem 0 + headLength B.mem 0) B.mem [] B.pool := by
  obtain ⟨lower, hlow, hring, hnd, hal, hb, hl, hc⟩ := initPool_spec B.init
  obtain rfl : lower = B.lower := Option.some.inj (hlow.symm.trans B.lower_eq)
  have hnw := B.noWrap
  have hlen : 4096 * ((headLength B.mem 0).toNat / 4096) = (headLength B.mem 0).toNat := by
    rw [Aligned] at hl
    omega
  have hfree : B.pool.free = B.managed := rfl
  have hup := nodup_pagesFrom (b := headBaseAddr B.mem 0)
    (n := (headLength B.mem 0).toNat / 4096) (by omega)
  have hmal : ∀ p ∈ B.managed, Aligned p := by
    intro p hp
    rcases List.mem_append.mp hp with hp | hp
    · exact hal p hp
    · exact aligned_pagesFrom hb _ p hp
  have hmnd : (0 :: B.managed).Nodup := by
    have hsplit : (0 :: lowerPages (lowerLengthOf B.before B.lower) ++ upperRange B.mem).Nodup := by
      rw [List.nodup_append]
      refine ⟨hnd, hup.1, ?_⟩
      intro x hx y hy hxy
      subst hxy
      rcases List.mem_cons.mp hx with rfl | hx
      · exact (B.disjoint _ hy).1 rfl
      · exact (B.disjoint _ hy).2 hx
    exact hsplit
  refine ⟨⟨hring, rfl, ?_, ?_⟩, ⟨hfree ▸ hmnd, hfree ▸ hmal, hb, ?_⟩, ?_,
    (List.nodup_cons.mp hmnd).2, hmal, (List.nodup_cons.mp hmnd).1, ?_⟩
  · rw [BootPool.pool, hlen]
    simp
  · rw [hc]
    apply BitVec.eq_of_toNat_eq
    have hlt := (headLength B.mem 0).isLt
    have hp : pageSize.toNat = 4096 := rfl
    rw [BitVec.toNat_udiv, hp, BootPool.pool, BitVec.toNat_ofNat,
      Nat.mod_eq_of_lt (by dsimp only; omega)]
  · simp only [BootPool.pool, hlen]
    exact hnw
  · rw [List.append_nil, hfree]
  · simp only [BootPool.pool, hlen, BitVec.ofNat_toNat, BitVec.setWidth_eq]

theorem PfRun.stocked {B : BootPool} {s : Mem × List Word} (h : PfRun (B.mem, []) s) :
    Stocked B.managed (headBaseAddr B.mem 0 + headLength B.mem 0) s := by
  induction h with
  | refl => exact ⟨_, B.inv, fun h => absurd rfl h⟩
  | tail _ hstep ih => exact hstep.stocked ih

theorem PfRun.inv {B : BootPool} (h : PfRun (B.mem, []) (m, out)) :
    ∃ P, PoolInv B.managed (headBaseAddr B.mem 0 + headLength B.mem 0) m out P := by
  obtain ⟨P, hP, -⟩ := h.stocked
  exact ⟨P, hP⟩

/-! Small machines: some lower pages to manage and nothing above the kernel. -/

/-- A memory map of two usable regions and a table of two section headers. -/
def bootBefore (lowerLength : Word) : Mem :=
  let m : Mem := fun _ => 0
  let m := (m.store64 0x9008 lowerLength).store64 0x9010 1
  let m := ((m.store64 0x9018 0x100000).store64 0x9020 0x1000).store64 0x9028 1
  (m.store64 0xA050 0x100000).store64 0xA060 0x1000

def bootMmapInfo : MmapInfo := ⟨⟨⟨6, 64⟩, 24, 0⟩, 0x9000, 2⟩

def bootElfInfo : ElfInfo := ⟨⟨⟨9, 148⟩, 2, 64, 0⟩, 0xA000⟩

def bootAfter (lowerLength : Word) : Mem :=
  final (initPool bootMmapInfo bootElfInfo (bootBefore lowerLength))

theorem upperRange_of_length_zero (h : headLength m 0 = 0) : upperRange m = [] := by
  rw [upperRange, h]
  rfl

/-- A machine without upper pages, from what its `init_pool` computes. -/
def bootPool (lowerLength : Word)
    (hlower : usableLower (bootBefore lowerLength) bootMmapInfo = some 0x9000)
    (hinit : returned (initPool bootMmapInfo bootElfInfo (bootBefore lowerLength)) = some 0)
    (hlength : headLength (bootAfter lowerLength) 0 = 0) : BootPool where
  before := bootBefore lowerLength
  mmapInfo := bootMmapInfo
  elfInfo := bootElfInfo
  lower := 0x9000
  head := 0
  mem := bootAfter lowerLength
  lower_eq := hlower
  init := eq_ok_of_returned hinit
  noWrap := by
    have hz : (0 : Word).toNat = 0 := rfl
    rw [hlength, hz, Nat.add_zero]
    exact Nat.le_of_lt (BitVec.isLt _)
  disjoint := by
    rw [upperRange_of_length_zero hlength]
    simp

theorem bootPool_managed (lowerLength : Word)
    {hlower : usableLower (bootBefore lowerLength) bootMmapInfo = some 0x9000}
    {hinit : returned (initPool bootMmapInfo bootElfInfo (bootBefore lowerLength)) = some 0}
    {hlength : headLength (bootAfter lowerLength) 0 = 0} :
    (bootPool lowerLength hlower hinit hlength).managed =
      lowerPages (lowerLengthOf (bootBefore lowerLength) 0x9000) := by
  have hup : upperRange (bootAfter lowerLength) = [] := upperRange_of_length_zero hlength
  simp only [BootPool.managed, bootPool, hup, List.append_nil]

/-- Three pages. -/
def smallBoot : BootPool :=
  bootPool 0x4000 (by decide +kernel) (by decide +kernel) (by decide +kernel)

theorem smallBoot_managed : smallBoot.managed = [0x1000, 0x2000, 0x3000] :=
  (bootPool_managed 0x4000).trans (by decide +kernel)

/-- Eight pages. -/
def roomyBoot : BootPool :=
  bootPool 0x9000 (by decide +kernel) (by decide +kernel) (by decide +kernel)

end SkipOS
