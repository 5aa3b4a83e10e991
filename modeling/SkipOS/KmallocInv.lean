import SkipOS.Kmalloc
import SkipOS.Lib.LinkedList
import Mathlib.Data.List.Perm.Basic
import Mathlib.Data.List.FinRange

/-! The invariant of the heap. Free chunks and blocks handed out are regions that lie apart
from each other; a region may leave the invariant, be written and come back. -/

namespace SkipOS

open Mem

/-- A block asked for and not freed. -/
structure Alloc where
  ptr : Word
  size : Word
  deriving DecidableEq

namespace Alloc

def base (a : Alloc) : Word := a.ptr - sizeofHeader

def bytesNeeded (a : Alloc) : Word := a.size + sizeofHeader

def pool (a : Alloc) : Option (Fin 7) := getBestPool a.bytesNeeded

def pageCnt (a : Alloc) : Word := newPageCnt a.bytesNeeded

/-- The bytes reserved, header included. -/
def block (a : Alloc) : Region :=
  ⟨a.base, match a.pool with
    | some i => (maxSize i).toNat
    | none => 4096 * a.pageCnt.toNat⟩

def headerPool (arr : PoolArr) (a : Alloc) : Word :=
  match a.pool with
  | some i => arr.ptr i
  | none => 0

def headerSize (a : Alloc) : Word :=
  match a.pool with
  | some _ => a.bytesNeeded
  | none => a.pageCnt * pageSize

end Alloc

abbrev FreeLists := Fin 7 → List Word

def chunk (i : Fin 7) (c : Word) : Region := ⟨c, (maxSize i).toNat⟩

def chunks (free : FreeLists) : List Region :=
  (List.finRange 7).flatMap fun i => (free i).map (chunk i)

def blocks (out : List Alloc) (free : FreeLists) : List Region := out.map Alloc.block ++ chunks free

/-- The header that `kmalloc` wrote. -/
def HasHeader (arr : PoolArr) (m : Mem) (a : Alloc) : Prop :=
  m.load64 a.base = a.headerPool arr ∧ m.load64 (a.base + 8) = a.headerSize

/-- `c` is at a multiple of the pool's chunk size in a page added to the pool. -/
def OnPage (added : List (Fin 7 × Word)) (i : Fin 7) (c : Word) : Prop :=
  ∃ page k, (i, page) ∈ added ∧ k < (numChunks i).toNat ∧
    c.toNat = page.toNat + (maxSize i).toNat * k

/-- The region lies in pages that are handed out. -/
def Housed (ranges : List (Word × Word)) (r : Region) : Prop :=
  ∃ x ∈ ranges, (rangeRegion x).Fits ∧ r.Within (rangeRegion x)

/-- The block of an allocation without a pool is a whole range. -/
def OnRange (ranges : List (Word × Word)) (a : Alloc) : Prop :=
  (a.base, a.pageCnt) ∈ ranges ∧ a.base ≠ 0 ∧ a.base.toNat % 4096 = 0

/-- `freed i` counts the chunks of pool `i` that were given back. -/
structure HeapInv (arr : PoolArr) (s : Kernel Flat) (out : List Alloc) (freed : Fin 7 → Nat)
    (free : FreeLists) : Prop where
  linked : ∀ i, LinkedList s.mmu.mem.load64 0 (s.pools i).head (free i)
  count : ∀ i, (s.pools i).avail.toNat + freed i = (free i).length
  apart : (blocks out free).Pairwise Region.Apart
  housed : ∀ r ∈ blocks out free, Housed s.mmu.ranges r
  free_on_page : ∀ i, ∀ c ∈ free i, OnPage s.added i c
  out_on_page : ∀ a ∈ out, ∀ i, a.pool = some i → OnPage s.added i a.base
  large : ∀ a ∈ out, a.pool = none → OnRange s.mmu.ranges a
  added_ok : ∀ x ∈ s.added, x.2 ≠ 0 ∧ x.2.toNat % 4096 = 0
  header : ∀ a ∈ out, HasHeader arr s.mmu.mem a

/-- A region in the pages handed out that no block meets. -/
structure Hole (s : Kernel Flat) (out : List Alloc) (free : FreeLists) (r : Region) : Prop where
  housed : Housed s.mmu.ranges r
  apart : ∀ b ∈ blocks out free, r.Apart b

variable {arr : PoolArr} {s : Kernel Flat} {out : List Alloc} {freed : Fin 7 → Nat}
  {free : FreeLists} {a : Alloc} {i : Fin 7} {c : Word} {l : List Word} {r : Region} {m m' : Mem}
  {ranges : List (Word × Word)} {n : Nat} {p : KmallocPool}

theorem maxSize_bounds (i : Fin 7) : 32 ≤ (maxSize i).toNat ∧ (maxSize i).toNat % 16 = 0 ∧
    (maxSize i).toNat * (numChunks i).toNat = 4096 := by
  revert i
  decide

theorem Housed.fits (h : Housed ranges r) : r.Fits := by
  obtain ⟨x, -, hfits, hw⟩ := h
  exact hw.fits hfits

theorem Housed.mono {ranges' : List (Word × Word)} (h : Housed ranges r) (hsub : ranges ⊆ ranges') :
    Housed ranges' r := by
  obtain ⟨x, hx, hfits⟩ := h
  exact ⟨x, hsub hx, hfits⟩

theorem le_newPageCnt (b : Word) : 1 ≤ (newPageCnt b).toNat := by
  have hlt := (b - 1).isLt
  have hdiv : ((b - 1) / pageSize).toNat = (b - 1).toNat / 4096 := by
    rw [BitVec.toNat_udiv]
    rfl
  have hone : (1 : Word).toNat = 1 := rfl
  rw [newPageCnt, BitVec.toNat_add, hdiv, hone]
  omega

theorem newPageCnt_pos (b : Word) : 0 < newPageCnt b := by
  have := le_newPageCnt b
  bv_omega

theorem Alloc.le_block_len (a : Alloc) : 32 ≤ a.block.len := by
  rw [Alloc.block]
  cases a.pool with
  | some i => exact (maxSize_bounds i).1
  | none =>
    have := le_newPageCnt a.bytesNeeded
    simp only [Alloc.pageCnt]
    omega

/-! The blocks as a list. -/

theorem mem_chunks : r ∈ chunks free ↔ ∃ i, ∃ c ∈ free i, r = chunk i c := by
  simp only [chunks, List.mem_flatMap, List.mem_finRange, true_and, List.mem_map, eq_comm]

theorem mem_blocks : r ∈ blocks out free ↔
    (∃ a ∈ out, r = a.block) ∨ ∃ i, ∃ c ∈ free i, r = chunk i c := by
  simp only [blocks, List.mem_append, List.mem_map, mem_chunks, eq_comm]

theorem block_mem (ha : a ∈ out) : a.block ∈ blocks out free := mem_blocks.mpr (Or.inl ⟨a, ha, rfl⟩)

theorem chunk_mem (hc : c ∈ free i) : chunk i c ∈ blocks out free :=
  mem_blocks.mpr (Or.inr ⟨i, c, hc, rfl⟩)

theorem chunks_update (free : FreeLists) (i : Fin 7) (l : List Word) :
    (chunks (Function.update free i l)).Perm (l.map (chunk i) ++
      ((List.finRange 7).erase i).flatMap fun j => (free j).map (chunk j)) := by
  have hrange := List.perm_cons_erase (List.mem_finRange i)
  have hperm := hrange.flatMap_right fun j => (Function.update free i l j).map (chunk j)
  rw [List.flatMap_cons, Function.update_self] at hperm
  refine hperm.trans (List.Perm.append_left _ (List.Perm.of_eq ?_))
  refine List.flatMap_congr fun j hj => ?_
  have hne : j ≠ i := ((List.nodup_finRange 7).mem_erase_iff.mp hj).1
  rw [Function.update_of_ne hne]

/-- The chunks at the front of one list can stand before all blocks. -/
theorem blocks_update_append (out : List Alloc) (free : FreeLists) (i : Fin 7) (l l' : List Word) :
    (blocks out (Function.update free i (l ++ l'))).Perm
      (l.map (chunk i) ++ blocks out (Function.update free i l')) := by
  have h := (chunks_update free i (l ++ l')).trans
    (List.Perm.of_eq (by rw [List.map_append, List.append_assoc]))
  have h' := (h.trans (List.Perm.append_left _ (chunks_update free i l').symm))
  refine (h'.append_left (out.map Alloc.block)).trans ?_
  rw [blocks, ← List.append_assoc, ← List.append_assoc]
  exact List.perm_append_comm.append_right _

theorem blocks_of_cons (out : List Alloc) (h : free i = c :: l) :
    (blocks out free).Perm (chunk i c :: blocks out (Function.update free i l)) := by
  have hp := blocks_update_append out free i [c] l
  rwa [List.singleton_append, ← h, Function.update_eq_self] at hp

theorem blocks_erase (free : FreeLists) (ha : a ∈ out) :
    (blocks out free).Perm (a.block :: blocks (out.erase a) free) := by
  have hp := (List.perm_cons_erase ha).map Alloc.block
  rw [List.map_cons] at hp
  exact hp.append_right _

theorem pairwise_apart_perm {b b' : List Region} (h : b.Perm b') :
    b.Pairwise Region.Apart ↔ b'.Pairwise Region.Apart :=
  h.pairwise_iff Region.Apart.symm

/-! Links and headers in memory that changed elsewhere. -/

theorem span_chunk_subset (i : Fin 7) (c : Word) : span c 8 ⊆ (chunk i c).bytes := by
  have := (maxSize_bounds i).1
  exact Region.span_base_subset_bytes (r := chunk i c) (by simp only [chunk]; omega)

theorem linked_of_eqOn {h : Word} (hl : LinkedList m.load64 0 h l)
    (hm : ∀ c ∈ l, Set.EqOn m' m (chunk i c).bytes) : LinkedList m'.load64 0 h l :=
  hl.congr fun c hc => load64_congr ((hm c hc).mono (span_chunk_subset i c))

theorem HasHeader.of_eqOn (h : HasHeader arr m a) (hm : Set.EqOn m' m a.block.bytes) :
    HasHeader arr m' a := by
  have hlen := a.le_block_len
  have hfirst : span a.base 8 ⊆ a.block.bytes :=
    Region.span_base_subset_bytes (r := a.block) (by omega)
  have hsecond : span (a.base + 8) 8 ⊆ a.block.bytes := by
    refine span_offset_subset ?_
    have h8 : (8 : Word).toNat = 8 := rfl
    omega
  refine ⟨?_, ?_⟩
  · rw [load64_congr (hm.mono hfirst)]
    exact h.1
  · rw [load64_congr (hm.mono hsecond)]
    exact h.2

/-! What may change in between. -/

theorem HeapInv.disjoint_hole (h : HeapInv arr s out freed free) (hr : Hole s out free r) :
    ∀ b ∈ blocks out free, b.bytes ⊆ r.bytesᶜ := by
  intro b hb
  exact Set.subset_compl_iff_disjoint_left.mpr
    ((hr.apart b hb).disjoint hr.housed.fits (h.housed b hb).fits)

theorem HeapInv.write_hole (h : HeapInv arr s out freed free) (hr : Hole s out free r)
    (hm : Set.EqOn m s.mmu.mem r.bytesᶜ) :
    HeapInv arr { s with mmu := { s.mmu with mem := m } } out freed free := by
  have hkept : ∀ b ∈ blocks out free, Set.EqOn m s.mmu.mem b.bytes := fun b hb =>
    hm.mono (h.disjoint_hole hr b hb)
  refine ⟨fun i => ?_, h.count, h.apart, h.housed, h.free_on_page, h.out_on_page, h.large,
    h.added_ok, fun a ha => ?_⟩
  · exact linked_of_eqOn (h.linked i) fun c hc => hkept _ (chunk_mem hc)
  · exact (h.header a ha).of_eqOn (hkept _ (block_mem ha))

theorem HeapInv.take_out (h : HeapInv arr s out freed free) (ha : a ∈ out) :
    HeapInv arr s (out.erase a) freed free ∧ Hole s (out.erase a) free a.block := by
  have hperm := blocks_erase free ha
  have hpw := (pairwise_apart_perm hperm).mp h.apart
  have hsub : ∀ b ∈ out.erase a, b ∈ out := fun b hb => List.mem_of_mem_erase hb
  refine ⟨⟨h.linked, h.count, hpw.of_cons, fun r hr => ?_, h.free_on_page,
    fun b hb => h.out_on_page b (hsub b hb), fun b hb => h.large b (hsub b hb), h.added_ok,
    fun b hb => h.header b (hsub b hb)⟩, h.housed _ (block_mem ha), (List.pairwise_cons.mp hpw).1⟩
  exact h.housed r (hperm.mem_iff.mpr (List.mem_cons_of_mem _ hr))

theorem HeapInv.take_chunk (h : HeapInv arr s out freed free) (hl : free i = c :: l)
    (havail : (s.pools i).avail ≠ 0) :
    HeapInv arr { s with
        pools := Function.update s.pools i ⟨(s.pools i).avail - 1, s.mmu.mem.load64 c⟩ }
        out freed (Function.update free i l) ∧
      Hole s out (Function.update free i l) (chunk i c) ∧ OnPage s.added i c := by
  have hperm := blocks_of_cons out hl
  have hpw := (pairwise_apart_perm hperm).mp h.apart
  have hmem : ∀ r ∈ blocks out (Function.update free i l), r ∈ blocks out free := fun r hr =>
    hperm.mem_iff.mpr (List.mem_cons_of_mem _ hr)
  have hlinked := h.linked i
  have hcount := h.count i
  rw [hl] at hlinked hcount
  refine ⟨⟨fun j => ?_, fun j => ?_, hpw.of_cons, fun r hr => h.housed r (hmem r hr), fun j d hd => ?_,
    h.out_on_page, h.large, h.added_ok, h.header⟩,
    ⟨h.housed _ (chunk_mem (hl ▸ List.mem_cons_self)), (List.pairwise_cons.mp hpw).1⟩,
    h.free_on_page i c (hl ▸ List.mem_cons_self)⟩
  · by_cases hj : j = i
    · subst hj
      simp only [Function.update_self]
      exact hlinked.2.2
    · simp only [Function.update_of_ne hj]
      exact h.linked j
  · by_cases hj : j = i
    · subst hj
      simp only [Function.update_self]
      rw [List.length_cons] at hcount
      bv_omega
    · simp only [Function.update_of_ne hj]
      exact h.count j
  · by_cases hj : j = i
    · subst hj
      rw [Function.update_self] at hd
      exact h.free_on_page j d (hl ▸ List.mem_cons_of_mem _ hd)
    · rw [Function.update_of_ne hj] at hd
      exact h.free_on_page j d hd

theorem HeapInv.hand_out (h : HeapInv arr s out freed free) (hr : Hole s out free a.block)
    (hpage : ∀ i, a.pool = some i → OnPage s.added i a.base)
    (hlarge : a.pool = none → OnRange s.mmu.ranges a)
    (hheader : HasHeader arr s.mmu.mem a) : HeapInv arr s (a :: out) freed free := by
  refine ⟨h.linked, h.count, List.pairwise_cons.mpr ⟨hr.apart, h.apart⟩, ?_, h.free_on_page,
    List.forall_mem_cons.mpr ⟨hpage, h.out_on_page⟩, List.forall_mem_cons.mpr ⟨hlarge, h.large⟩,
    h.added_ok, List.forall_mem_cons.mpr ⟨hheader, h.header⟩⟩
  intro r hr'
  rcases List.mem_cons.mp hr' with rfl | hr'
  · exact hr.housed
  · exact h.housed r hr'

/-- Linked chunks in holes go to the front of a free list. -/
theorem HeapInv.put_chunks (h : HeapInv arr s out freed free)
    (hlinked : LinkedList s.mmu.mem.load64 0 p.head (l ++ free i))
    (hcount : p.avail.toNat + n = (l ++ free i).length)
    (hapart : (l.map (chunk i)).Pairwise Region.Apart) (hhole : ∀ c ∈ l, Hole s out free (chunk i c))
    (hpage : ∀ c ∈ l, OnPage s.added i c) :
    HeapInv arr { s with pools := Function.update s.pools i p } out (Function.update freed i n)
      (Function.update free i (l ++ free i)) := by
  have hperm := blocks_update_append out free i l (free i)
  rw [Function.update_eq_self] at hperm
  refine ⟨fun j => ?_, fun j => ?_, ?_, fun r hr => ?_, fun j d hd => ?_, h.out_on_page, h.large,
    h.added_ok, h.header⟩
  · by_cases hj : j = i
    · subst hj
      simp only [Function.update_self]
      exact hlinked
    · simp only [Function.update_of_ne hj]
      exact h.linked j
  · by_cases hj : j = i
    · subst hj
      simp only [Function.update_self]
      exact hcount
    · simp only [Function.update_of_ne hj]
      exact h.count j
  · rw [pairwise_apart_perm hperm, List.pairwise_append]
    refine ⟨hapart, h.apart, fun r hr b hb => ?_⟩
    obtain ⟨c, hc, rfl⟩ := List.mem_map.mp hr
    exact (hhole c hc).apart b hb
  · rcases List.mem_append.mp (hperm.mem_iff.mp hr) with hr | hr
    · obtain ⟨c, hc, rfl⟩ := List.mem_map.mp hr
      exact (hhole c hc).housed
    · exact h.housed r hr
  · by_cases hj : j = i
    · subst hj
      rw [Function.update_self] at hd
      rcases List.mem_append.mp hd with hd | hd
      · exact hpage d hd
      · exact h.free_on_page j d hd
    · rw [Function.update_of_ne hj] at hd
      exact h.free_on_page j d hd

theorem HeapInv.perm_out {out' : List Alloc} (h : HeapInv arr s out freed free)
    (hp : out.Perm out') : HeapInv arr s out' freed free := by
  have hperm : (blocks out free).Perm (blocks out' free) := (hp.map _).append_right _
  refine ⟨h.linked, h.count, (pairwise_apart_perm hperm).mp h.apart, fun r hr => ?_, h.free_on_page,
    fun a ha => h.out_on_page a (hp.mem_iff.mpr ha), fun a ha => h.large a (hp.mem_iff.mpr ha),
    h.added_ok, fun a ha => h.header a (hp.mem_iff.mpr ha)⟩
  exact h.housed r (hperm.mem_iff.mpr hr)

end SkipOS
