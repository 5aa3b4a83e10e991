import SkipOS.IdentityMap
import SkipOS.Lib.Layout
import SkipOS.PageStatus

/-! The tables that `set_up_page_tables` of `boot.asm` builds before long mode, read by the
processor's walk, next to the tables of `MMU_init_vp`. -/

namespace SkipOS

open Mem Exec

structure Cpu32 where
  eax : BitVec 32
  ecx : BitVec 32
  edx : BitVec 32
  mem : Mem

/-- `[addr]`, an address below 4 GiB. -/
def dwordAddr (addr : BitVec 32) : Word := addr.setWidth 64

namespace Cpu32

def movEax (v : BitVec 32) : Exec Cpu32 Unit := modify fun s => { s with eax := v }

def orEax (v : BitVec 32) : Exec Cpu32 Unit := modify fun s => { s with eax := s.eax ||| v }

def movEcx (v : BitVec 32) : Exec Cpu32 Unit := modify fun s => { s with ecx := v }

/-- `mov [addr], eax` -/
def storeEax (addr : BitVec 32) : Exec Cpu32 Unit :=
  modify fun s => { s with mem := s.mem.storeLE (dwordAddr addr) 4 s.eax.toNat }

/-- `mov [table + ecx * 8], eax` -/
def storeEaxAtEcx (table : BitVec 32) : Exec Cpu32 Unit :=
  modify fun s => { s with mem := s.mem.storeLE (dwordAddr (table + s.ecx * 8)) 4 s.eax.toNat }

def mulEcx : Exec Cpu32 Unit :=
  modify fun s =>
    let product := s.eax.setWidth 64 * s.ecx.setWidth 64
    { s with eax := product.setWidth 32, edx := (product >>> 32).setWidth 32 }

def incEcx : Exec Cpu32 Unit := modify fun s => { s with ecx := s.ecx + 1 }

end Cpu32

open Cpu32

/-- The body of `.map_p2_table`. -/
def mapP2Entry (p2Table : BitVec 32) : Exec Cpu32 Unit := do
  movEax 0x200000
  mulEcx
  orEax 0b10000011
  storeEaxAtEcx p2Table
  incEcx

/-- `.map_p2_table`, with at most `fuel` rounds. -/
def mapP2Table (p2Table : BitVec 32) : Nat → Exec Cpu32 Unit
  | 0 => throw .fuel
  | fuel + 1 => do
    mapP2Entry p2Table
    let s ← get
    if s.ecx ≠ 512 then mapP2Table p2Table fuel else return ()

/-- `p3_table` and `p2_table` follow `p4_table` in `.bss`. -/
def p3TableOf (p4Table : BitVec 32) : BitVec 32 := p4Table + 4096

def p2TableOf (p4Table : BitVec 32) : BitVec 32 := p4Table + 8192

def setUpPageTables (p4Table : BitVec 32) (fuel : Nat) : Exec Cpu32 Unit := do
  movEax (p3TableOf p4Table)
  orEax 0b11
  storeEax p4Table
  movEax (p2TableOf p4Table)
  orEax 0b11
  storeEax (p3TableOf p4Table)
  movEcx 0
  mapP2Table (p2TableOf p4Table) fuel

instance : DecidablePred IsCanonical := fun _ => inferInstanceAs (Decidable (_ ∨ _))

/-- What the processor takes an address to; one that is not canonical has no translation. -/
def translate (m : Mem) (cr3 va : Word) : Option Word :=
  if IsCanonical va then hwWalk m cr3 va else none

/-- The entry of `p2_table` for the 2 MiB from `2 MiB * i` on. -/
def hugeEntry (i : Word) : Word := (i <<< 21) ||| (0b10000011 : Word)

def linked (p : Word) : Word := p ||| (writeableMask ||| presentMask)

/-- A frame that a table may lie in: the processor reads 52 bits of its address. -/
def TableFrame (p : Word) : Prop := Aligned p ∧ p.toNat < 2 ^ 52

/-- The tables of `set_up_page_tables`. -/
structure BootTables (m : Mem) (p4 p3 p2 : Word) : Prop where
  p4Frame : TableFrame p4
  p3Frame : TableFrame p3
  p2Frame : TableFrame p2
  p4Entry : ∀ j < 512, m.load64 (entryPtr p4 j) = if j = 0 then linked p3 else 0
  p3Entry : ∀ j < 512, m.load64 (entryPtr p3 j) = if j = 0 then linked p2 else 0
  p2Entry : ∀ j < 512, m.load64 (entryPtr p2 j) = hugeEntry j

variable {m m' : Mem} {p4 p3 p2 t v va pa i j : Word} {n k : Nat} {B : BootPool} {s : Machine}

/-! The walk of the boot tables. -/

theorem or_and_ne_zero {x c mask : Word} (h : c &&& mask ≠ 0) : (x ||| c) &&& mask ≠ 0 := by
  rw [BitVec.and_or_distrib_right]
  intro h0
  exact h (BitVec.or_eq_zero_iff.mp h0).2

theorem present_of_and (h : v &&& presentMask ≠ 0) : isNextPagePresent v = true := by
  rwa [isNextPagePresent, bne_iff_ne]

theorem hugeEntry_base (hi : i < 512) : hugeEntry i &&& (0xFFFFFFFE00000 : Word) = i <<< 21 := by
  have hmask : (0xFFFFFFFE00000 : Word) = (0x7FFFFFFF : Word) <<< 21 := by decide
  have hflags : (0b10000011 : Word) &&& ((0x7FFFFFFF : Word) <<< 21) = 0 := by decide
  have hself : i &&& (0x7FFFFFFF : Word) = i := by
    apply BitVec.eq_of_toNat_eq
    rw [and_mask_of_lt (k := 31) rfl, Nat.mod_eq_of_lt (by bv_omega)]
  rw [hugeEntry, hmask, BitVec.and_or_distrib_right, hflags, ← BitVec.shiftLeft_and_distrib,
    hself]
  exact BitVec.or_zero

theorem linked_not_large (h : Aligned t) : linked t &&& pageSize1gbMsk = 0 := by
  have hmask : pageSize1gbMsk = 0xFFF &&& pageSize1gbMsk := by decide
  have hflags : (writeableMask ||| presentMask) &&& pageSize1gbMsk = 0 := by decide
  rw [linked, BitVec.and_or_distrib_right, hflags, hmask, ← BitVec.and_assoc,
    mask_eq_zero_of_aligned h]
  exact BitVec.or_zero.trans BitVec.zero_and

theorem linked_present (h : Aligned t) : isNextPagePresent (linked t) = true := by
  rw [linked, present_iff_flags, flags_linked h]
  decide

theorem BootTables.hwWalk_eq (h : BootTables m p4 p3 p2) (hva : va.toNat < 2 ^ 30) :
    hwWalk m p4 va = some va := by
  have i4 : (va >>> 39) &&& 0x1FF = 0 := (index_eq_zero_iff va 39).mpr (by omega)
  have i3 : (va >>> 30) &&& 0x1FF = 0 := (index_eq_zero_iff va 30).mpr (by omega)
  have hi : (va >>> 21) &&& 0x1FF < 512 := index_lt va 21
  have e4 := h.p4Entry 0 (by decide)
  have e3 := h.p3Entry 0 (by decide)
  have e2 := h.p2Entry _ hi
  rw [if_pos rfl] at e4 e3
  have hp2 : isNextPagePresent (hugeEntry ((va >>> 21) &&& 0x1FF)) = true :=
    present_of_and (or_and_ne_zero (by decide))
  have hlarge : hugeEntry ((va >>> 21) &&& 0x1FF) &&& pageSize1gbMsk ≠ 0 :=
    or_and_ne_zero (by decide)
  have hsum : ((va >>> 21) &&& 0x1FF) <<< 21 + (va &&& 0x1FFFFF) = va := by
    have hidx := index_toNat va 21
    have hoff : (va &&& 0x1FFFFF).toNat = va.toNat % 2 ^ 21 := and_mask_of_lt (k := 21) rfl va
    apply BitVec.eq_of_toNat_eq
    rw [BitVec.toNat_add, BitVec.toNat_shiftLeft, hidx, hoff, Nat.shiftLeft_eq]
    omega
  have hl3 : hwAddr (linked p3) = p3 := hwAddr_linked h.p3Frame.1 h.p3Frame.2
  have hl2 : hwAddr (linked p2) = p2 := hwAddr_linked h.p2Frame.1 h.p2Frame.2
  simp only [hwWalk, i4, i3, hwAddr_of_aligned h.p4Frame.1 h.p4Frame.2, e4, linked_present h.p3Frame.1, hl3, e3,
    linked_present h.p2Frame.1, linked_not_large h.p2Frame.1, hl2, e2, hp2, not_true_eq_false, if_false,
    if_pos hlarge, hugeEntry_base hi, hsum, ne_eq]

theorem BootTables.hwWalk_none (h : BootTables m p4 p3 p2) (hcanon : IsCanonical va)
    (hva : ¬ va.toNat < 2 ^ 30) : hwWalk m p4 va = none := by
  have hz : ¬ isNextPagePresent (0 : Word) = true := by decide
  have e4 := h.p4Entry _ (index_lt va 39)
  have e3 := h.p3Entry _ (index_lt va 30)
  have hl3 : hwAddr (linked p3) = p3 := hwAddr_linked h.p3Frame.1 h.p3Frame.2
  by_cases i4 : (va >>> 39) &&& 0x1FF = 0
  · have i3 : ¬ (va >>> 30) &&& 0x1FF = 0 := by
      rw [index_eq_zero_iff] at i4 ⊢
      rw [IsCanonical] at hcanon
      omega
    rw [if_neg i3] at e3
    rw [if_pos i4] at e4
    simp only [hwWalk, hwAddr_of_aligned h.p4Frame.1 h.p4Frame.2, e4, linked_present h.p3Frame.1, hl3, e3,
      not_true_eq_false, if_false, if_pos hz]
  · rw [if_neg i4] at e4
    simp only [hwWalk, hwAddr_of_aligned h.p4Frame.1 h.p4Frame.2, e4, if_pos hz]

theorem BootTables.translate_iff (h : BootTables m p4 p3 p2) :
    translate m p4 va = some pa ↔ va.toNat < 2 ^ 30 ∧ pa = va := by
  rw [translate]
  by_cases hva : va.toNat < 2 ^ 30
  · have hcanon : IsCanonical va := Or.inl (by omega)
    rw [if_pos hcanon, h.hwWalk_eq hva, Option.some.injEq]
    exact ⟨fun he => ⟨hva, he.symm⟩, fun he => he.2.symm⟩
  · refine iff_of_false ?_ fun he => hva he.1
    by_cases hcanon : IsCanonical va
    · rw [if_pos hcanon, h.hwWalk_none hcanon hva]
      simp
    · rw [if_neg hcanon]
      simp

theorem BootTables.congr (h : BootTables m p4 p3 p2)
    (he : ∀ t ∈ [p4, p3, p2], Set.EqOn m' m (frame t)) : BootTables m' p4 p3 p2 := by
  have hload {t : Word} (ht : t ∈ [p4, p3, p2]) {j : Word} (hj : j < 512) :
      m'.load64 (entryPtr t j) = m.load64 (entryPtr t j) :=
    load64_congr ((he t ht).mono (span_entryPtr_subset hj))
  refine ⟨h.p4Frame, h.p3Frame, h.p2Frame, fun j hj => ?_, fun j hj => ?_, fun j hj => ?_⟩
  · rw [hload (by simp) hj, h.p4Entry j hj]
  · rw [hload (by simp) hj, h.p3Entry j hj]
  · rw [hload (by simp) hj, h.p2Entry j hj]

/-! What the code writes. -/

/-- The low half of entry `i`. -/
def storeLow (m : Mem) (t i v : Word) : Mem := m.storeLE (entryPtr t i) 4 v.toNat

def ZeroHigh (m : Mem) (t : Word) : Prop := ∀ j < 512, m.loadLE (entryPtr t j + 4) 4 = 0

def p2Mem (p2 : Word) : Nat → Word → Mem → Mem :=
  putEntries fun i m => storeLow m p2 i (hugeEntry i)

theorem loadLE_eq_zero {a : Word} (hn : n ≤ 2 ^ 64) (h : ∀ b ∈ span a n, m b = 0) :
    m.loadLE a n = 0 := by
  rw [loadLE_of_digits (v := 0), Nat.zero_mod]
  intro i hi
  rw [h _ (add_mem_span hi hn), Nat.zero_div]
  rfl

theorem span_high_subset (a : Word) : span (a + 4) 4 ⊆ span a 8 := span_offset_subset (by decide)

theorem span_low_disjoint_high (a : Word) : Disjoint (span (a + 4) 4) (span a 4) := by
  rw [Set.disjoint_left]
  intro b hb hb'
  rw [mem_span] at hb hb'
  bv_omega

theorem storeLow_eqOn (hi : i < 512) : Set.EqOn (storeLow m t i v) m (frame t)ᶜ :=
  fun _ ha => storeLE_apply_of_not_mem fun hs =>
    ha (span_entryPtr_subset hi (span_mono (by decide) hs))

theorem ZeroHigh.storeLow (h : ZeroHigh m t) (ht : Aligned t) (hi : i < 512) :
    ZeroHigh (storeLow m t i v) t := by
  intro j hj
  refine (loadLE_storeLE_of_disjoint (by decide) ?_).trans (h j hj)
  by_cases hij : j = i
  · rw [hij]
    exact span_low_disjoint_high _
  · exact (entryPtr_disjoint ht hj hi hij).mono (span_high_subset _) (span_mono (by decide))

/-- A low half stored under a high half of zeros is the whole entry. -/
theorem storeLow_load (h : ZeroHigh m t) (ht : Aligned t) (hi : i < 512) (hj : j < 512)
    (hv : v.toNat < 2 ^ 32) : (storeLow m t i v).load64 (entryPtr t j) =
      if j = i then v else m.load64 (entryPtr t j) := by
  by_cases hij : j = i
  · subst hij
    have hsplit := loadLE_add (SkipOS.storeLow m t j v) (entryPtr t j) 4 4
    have hhigh : (SkipOS.storeLow m t j v).loadLE (entryPtr t j + BitVec.ofNat 64 4) 4 = 0 :=
      h.storeLow ht hi j hj
    have hlow : (SkipOS.storeLow m t j v).loadLE (entryPtr t j) 4 = v.toNat :=
      (loadLE_storeLE_self m _ _ (by decide)).trans (Nat.mod_eq_of_lt hv)
    rw [if_pos rfl, load64, hsplit, hlow, hhigh, Nat.mul_zero, Nat.add_zero, BitVec.ofNat_toNat,
      BitVec.setWidth_eq]
  · rw [if_neg hij]
    exact load64_congr fun a ha => storeLE_apply_of_not_mem fun hs =>
      Set.disjoint_left.mp (entryPtr_disjoint ht hj hi hij) ha (span_mono (by decide) hs)

theorem hugeEntry_lt (hi : i < 512) : (hugeEntry i).toNat < 2 ^ 32 := by
  rw [hugeEntry, BitVec.toNat_or]
  apply Nat.or_lt_two_pow
  · rw [BitVec.toNat_shiftLeft, Nat.shiftLeft_eq]
    bv_omega
  · decide

theorem p2Mem_eqOn (hn : i.toNat + n ≤ 512) : Set.EqOn (p2Mem p2 n i m) m (frame p2)ᶜ :=
  putEntries_eqOn (fun _ hi _ => storeLow_eqOn hi) hn

theorem p2Mem_load (ht : Aligned p2) (h : ZeroHigh m p2) (hn : i.toNat + n ≤ 512) (hj : j < 512) :
    (p2Mem p2 n i m).load64 (entryPtr p2 j) =
      if i.toNat ≤ j.toNat ∧ j.toNat < i.toNat + n then hugeEntry j
      else m.load64 (entryPtr p2 j) :=
  putEntries_load (fun _ hi _ h => ⟨h.storeLow ht hi, fun _ hj =>
    storeLow_load h ht hi hj (hugeEntry_lt hi)⟩) h hn hj

def tablesMem (p4 p3 p2 : Word) (m : Mem) : Mem :=
  p2Mem p2 512 0 (storeLow (storeLow m p4 0 (linked p3)) p3 0 (linked p2))

/-- A frame of `.bss` before anything is written to it. -/
def ZeroFrame (m : Mem) (t : Word) : Prop := ∀ a ∈ frame t, m a = 0

theorem ZeroFrame.load64 (h : ZeroFrame m t) (hj : j < 512) : m.load64 (entryPtr t j) = 0 := by
  rw [Mem.load64, loadLE_eq_zero (by decide) fun b hb => h b (span_entryPtr_subset hj hb)]
  rfl

theorem ZeroFrame.zeroHigh (h : ZeroFrame m t) : ZeroHigh m t := fun _ hj =>
  loadLE_eq_zero (by decide) fun b hb => h b (span_entryPtr_subset hj (span_high_subset _ hb))

theorem ZeroFrame.storeLow (h : ZeroFrame m t) (ht : Aligned t) (hp : Aligned p4) (hne : t ≠ p4)
    (hi : i < 512) : ZeroFrame (storeLow m p4 i v) t := fun a ha =>
  (storeLow_eqOn hi (Set.disjoint_left.mp (disjoint_frame ht hp hne) ha)).trans (h a ha)

theorem linked_lt (h : t.toNat < 2 ^ 32) : (linked t).toNat < 2 ^ 32 := by
  rw [linked, BitVec.toNat_or]
  exact Nat.or_lt_two_pow h (by decide)

theorem bootTables_of_zero (h4 : TableFrame p4) (h3 : TableFrame p3) (h2 : TableFrame p2)
    (hl3 : p3.toNat < 2 ^ 32) (hl2 : p2.toNat < 2 ^ 32) (h43 : p4 ≠ p3) (h42 : p4 ≠ p2)
    (h32 : p3 ≠ p2) (z4 : ZeroFrame m p4) (z3 : ZeroFrame m p3) (z2 : ZeroFrame m p2) :
    BootTables (tablesMem p4 p3 p2 m) p4 p3 p2 := by
  have z3' : ZeroFrame (storeLow m p4 0 (linked p3)) p3 :=
    z3.storeLow h3.1 h4.1 (Ne.symm h43) (by decide)
  have z2' : ZeroFrame (storeLow (storeLow m p4 0 (linked p3)) p3 0 (linked p2)) p2 :=
    (z2.storeLow h2.1 h4.1 (Ne.symm h42) (by decide)).storeLow h2.1 h3.1 (Ne.symm h32) (by decide)
  have hkept {t : Word} (ht : Aligned t) (hne : t ≠ p2) {j : Word} (hj : j < 512) :
      (tablesMem p4 p3 p2 m).load64 (entryPtr t j) =
        (storeLow (storeLow m p4 0 (linked p3)) p3 0 (linked p2)).load64 (entryPtr t j) :=
    load64_congr ((p2Mem_eqOn (by decide)).mono ((span_entryPtr_subset hj).trans
      (Set.subset_compl_iff_disjoint_right.mpr (disjoint_frame ht h2.1 hne))))
  refine ⟨h4, h3, h2, fun j hj => ?_, fun j hj => ?_, fun j hj => ?_⟩
  · rw [hkept h4.1 h42 hj, load64_congr ((storeLow_eqOn (by decide)).mono
      ((span_entryPtr_subset hj).trans
        (Set.subset_compl_iff_disjoint_right.mpr (disjoint_frame h4.1 h3.1 h43)))),
      storeLow_load z4.zeroHigh h4.1 (by decide) hj (linked_lt hl3), z4.load64 hj]
  · rw [hkept h3.1 h32 hj, storeLow_load z3'.zeroHigh h3.1 (by decide) hj (linked_lt hl2),
      z3'.load64 hj]
  · rw [tablesMem, p2Mem_load h2.1 z2'.zeroHigh (by decide) hj, if_pos]
    bv_omega

/-! The instructions. -/

theorem dwordAddr_toNat (a : BitVec 32) : (dwordAddr a).toNat = a.toNat := by
  rw [dwordAddr, BitVec.toNat_setWidth, Nat.mod_eq_of_lt (by omega)]

/-- Within an aligned table the sum does not wrap. -/
theorem dwordAddr_entry {table : BitVec 32} (ha : table.toNat % 4096 = 0) (hn : n < 512) :
    dwordAddr (table + BitVec.ofNat 32 n * 8) = entryPtr (dwordAddr table) (BitVec.ofNat 64 n) := by
  have htable := dwordAddr_toNat table
  apply BitVec.eq_of_toNat_eq
  rw [dwordAddr_toNat, entryPtr]
  bv_omega

theorem eax_hugeEntry (hn : n < 512) :
    (((0x200000 : BitVec 32).setWidth 64 * (BitVec.ofNat 32 n).setWidth 64).setWidth 32 |||
      (0b10000011 : BitVec 32)).toNat = (hugeEntry (BitVec.ofNat 64 n)).toNat := by
  have hsize : (0x200000 : BitVec 32).toNat = 0x200000 := rfl
  have hflags : (0b10000011 : BitVec 32).toNat = (0b10000011 : Word).toNat := rfl
  have hlow : (BitVec.ofNat 32 n).toNat = n := toNat_ofNat_of_lt (by omega)
  have hproduct : (((0x200000 : BitVec 32).setWidth 64 *
      (BitVec.ofNat 32 n).setWidth 64).setWidth 32).toNat = (BitVec.ofNat 64 n <<< 21).toNat := by
    rw [BitVec.toNat_setWidth, BitVec.toNat_mul, BitVec.toNat_setWidth, BitVec.toNat_setWidth,
      hsize, hlow, BitVec.toNat_shiftLeft, Nat.shiftLeft_eq, toNat_ofNat_of_lt (by omega)]
    omega
  rw [hugeEntry, BitVec.toNat_or, BitVec.toNat_or, hproduct, hflags]

theorem mapP2Entry_run {table : BitVec 32} (ha : table.toNat % 4096 = 0) (hn : n < 512)
    {c : Cpu32} (hecx : c.ecx = BitVec.ofNat 32 n) :
    ∃ c', mapP2Entry table c = .ok () c' ∧ c'.ecx = BitVec.ofNat 32 (n + 1) ∧
      c'.mem = storeLow c.mem (dwordAddr table) (BitVec.ofNat 64 n)
        (hugeEntry (BitVec.ofNat 64 n)) := by
  refine ⟨_, rfl, ?_, ?_⟩
  · exact (congrArg (· + 1) hecx).trans (ofNat_add_one n)
  · rw [storeLow, ← dwordAddr_entry ha hn, ← eax_hugeEntry hn, ← hecx]

/-- The rounds from `n` on, `k` of them still to come after this one. -/
theorem mapP2Table_returns {table : BitVec 32} (ha : table.toNat % 4096 = 0) {c : Cpu32}
    (hnk : n + k = 511) (hecx : c.ecx = BitVec.ofNat 32 n) :
    ∃ c', Returns (mapP2Table table) c () c' ∧
      c'.mem = p2Mem (dwordAddr table) (k + 1) (BitVec.ofNat 64 n) c.mem := by
  induction k generalizing n c with
  | zero =>
    obtain ⟨c', hrun, hecx', hmem⟩ := mapP2Entry_run ha (by omega) hecx
    have hstop : ¬ c'.ecx ≠ 512 := by
      rw [hecx', not_ne_iff]
      bv_omega
    refine ⟨c', ⟨1, fun fuel hle => ?_⟩, hmem⟩
    obtain ⟨fuel, rfl⟩ := Nat.exists_eq_add_one.mpr hle
    rw [mapP2Table, bind_of_ok hrun, bind_get, if_neg hstop, pure_apply]
  | succ k ih =>
    obtain ⟨c1, hrun, hecx1, hmem1⟩ := mapP2Entry_run ha (by omega) hecx
    have hnext : c1.ecx ≠ 512 := by
      rw [hecx1]
      bv_omega
    obtain ⟨c', ⟨rounds, hrest⟩, hmem⟩ := ih (by omega) hecx1
    refine ⟨c', ⟨rounds + 1, fun fuel hle => ?_⟩, ?_⟩
    · obtain ⟨fuel, rfl⟩ := Nat.exists_eq_add_one.mpr (Nat.zero_lt_of_lt hle)
      rw [mapP2Table, bind_of_ok hrun, bind_get, if_pos hnext, hrest fuel (by omega)]
    · rw [hmem, hmem1, ← ofNat_add_one]
      rfl

theorem linked_toNat (a : BitVec 32) : (a ||| 0b11).toNat = (linked (dwordAddr a)).toNat := by
  have hflags : (0b11 : BitVec 32).toNat = (writeableMask ||| presentMask).toNat := by decide
  rw [linked, BitVec.toNat_or, BitVec.toNat_or, dwordAddr_toNat, hflags]

theorem entryPtr_zero (t : Word) : entryPtr t 0 = t := by
  rw [entryPtr]
  bv_omega

theorem setUpPageTables_returns {p4Table : BitVec 32} (ha : p4Table.toNat % 4096 = 0) (c : Cpu32) :
    ∃ c', Returns (setUpPageTables p4Table) c () c' ∧
      c'.mem = tablesMem (dwordAddr p4Table) (dwordAddr (p3TableOf p4Table))
        (dwordAddr (p2TableOf p4Table)) c.mem := by
  have ha2 : (p2TableOf p4Table).toNat % 4096 = 0 := by
    rw [p2TableOf]
    bv_omega
  let c1 : Cpu32 :=
    { c with
      eax := p2TableOf p4Table ||| 0b11
      ecx := 0
      mem := (c.mem.storeLE (dwordAddr p4Table) 4 (p3TableOf p4Table ||| 0b11).toNat).storeLE
        (dwordAddr (p3TableOf p4Table)) 4 (p2TableOf p4Table ||| 0b11).toNat }
  obtain ⟨c', hrun, hmem⟩ := mapP2Table_returns ha2 (n := 0) (k := 511) (c := c1) rfl rfl
  refine ⟨c', hrun, hmem.trans ?_⟩
  rw [tablesMem, storeLow, storeLow, entryPtr_zero, entryPtr_zero, ← linked_toNat,
    ← linked_toNat]
  rfl

theorem tableFrame_dwordAddr {a : BitVec 32} (ha : a.toNat % 4096 = 0) :
    TableFrame (dwordAddr a) := by
  rw [TableFrame, Aligned, dwordAddr_toNat]
  omega

theorem dwordAddr_inj {a b : BitVec 32} (h : a ≠ b) : dwordAddr a ≠ dwordAddr b := by
  intro he
  have hn := congrArg BitVec.toNat he
  rw [dwordAddr_toNat, dwordAddr_toNat] at hn
  exact h (BitVec.eq_of_toNat_eq hn)

theorem setUpPageTables_builds {p4Table : BitVec 32} (ha : p4Table.toNat % 4096 = 0)
    (c : Cpu32) (hbss : ∀ t ∈ [p4Table, p3TableOf p4Table, p2TableOf p4Table],
      ZeroFrame c.mem (dwordAddr t)) :
    ∃ c', Returns (setUpPageTables p4Table) c () c' ∧
      BootTables c'.mem (dwordAddr p4Table) (dwordAddr (p3TableOf p4Table))
        (dwordAddr (p2TableOf p4Table)) := by
  obtain ⟨c', hrun, hmem⟩ := setUpPageTables_returns ha c
  have h4 := tableFrame_dwordAddr ha
  have h3 : TableFrame (dwordAddr (p3TableOf p4Table)) :=
    tableFrame_dwordAddr (by rw [p3TableOf]; bv_omega)
  have h2 : TableFrame (dwordAddr (p2TableOf p4Table)) :=
    tableFrame_dwordAddr (by rw [p2TableOf]; bv_omega)
  have h43 : p4Table ≠ p3TableOf p4Table := by
    rw [p3TableOf]
    bv_omega
  have h42 : p4Table ≠ p2TableOf p4Table := by
    rw [p2TableOf]
    bv_omega
  have h32 : p3TableOf p4Table ≠ p2TableOf p4Table := by
    rw [p3TableOf, p2TableOf]
    bv_omega
  have hlt (a : BitVec 32) : (dwordAddr a).toNat < 2 ^ 32 := by
    rw [dwordAddr_toNat]
    exact a.isLt
  refine ⟨c', hrun, ?_⟩
  rw [hmem]
  exact bootTables_of_zero h4 h3 h2 (hlt _) (hlt _) (dwordAddr_inj h43) (dwordAddr_inj h42)
    (dwordAddr_inj h32) (hbss _ (by simp)) (hbss _ (by simp)) (hbss _ (by simp))

theorem Booted.translate_self (h : Booted B s)
    (hphys : ∀ p, .pfAlloc p ∈ s.events → p.toNat < 2 ^ 32) (hva : va.toNat < 2 ^ 30) :
    translate s.mem s.cr3 va = some va := by
  have hcanon : IsCanonical va := Or.inl (by omega)
  have hlow : ∀ p, .pfAlloc p ∈ s.events → p.toNat < 2 ^ 52 := fun p hp =>
    Nat.lt_of_lt_of_le (hphys p hp) (by decide)
  rw [translate, if_pos hcanon, h.hwWalk_eq hlow (by omega), and_gigabyte_mask_of_lt hva]

/-- The boot tables take exactly the first gigabyte to itself, and the tables that
`MMU_init_vp` loads agree with them there. -/
theorem boot_tables_agree {p4Table : BitVec 32} (ha : p4Table.toNat % 4096 = 0) (c : Cpu32)
    (hbss : ∀ t ∈ [p4Table, p3TableOf p4Table, p2TableOf p4Table],
      ZeroFrame c.mem (dwordAddr t)) :
    ∃ c', Returns (setUpPageTables p4Table) c () c' ∧
      (∀ va pa, translate c'.mem (dwordAddr p4Table) va = some pa ↔
        va.toNat < 2 ^ 30 ∧ pa = va) ∧
      ∀ (B : BootPool) (s : Machine), Booted B s →
        (∀ p, .pfAlloc p ∈ s.events → p.toNat < 2 ^ 32) →
        ∀ va pa, translate c'.mem (dwordAddr p4Table) va = some pa →
          translate s.mem s.cr3 va = some pa := by
  obtain ⟨c', hrun, htables⟩ := setUpPageTables_builds ha c hbss
  refine ⟨c', hrun, fun va pa => htables.translate_iff, ?_⟩
  intro B s hboot hphys va pa htr
  obtain ⟨hva, rfl⟩ := htables.translate_iff.mp htr
  exact hboot.translate_self hphys hva

theorem boot_tables_agree_small : ∃ c' : Cpu32,
    Returns (setUpPageTables 0x101000) ⟨0, 0, 0, fun _ => 0⟩ () c' ∧
      translate c'.mem 0x101000 0xB8000 = some 0xB8000 ∧
      translate (initMachine smallBoot).mem (initMachine smallBoot).cr3 0xB8000 =
        some 0xB8000 := by
  have ha : (0x101000 : BitVec 32).toNat % 4096 = 0 := by decide
  obtain ⟨c', hrun, hmap, hsame⟩ :=
    boot_tables_agree ha ⟨0, 0, 0, fun _ => 0⟩ fun _ _ _ _ => rfl
  have hboot := (hmap 0xB8000 0xB8000).mpr ⟨by decide, rfl⟩
  have hphys : ∀ p, .pfAlloc p ∈ (initMachine smallBoot).events → p.toNat < 2 ^ 32 := by
    intro p hp
    rcases smallBoot_booted.pfAlloc_mem hp with rfl | hp
    · decide
    · rw [smallBoot_managed] at hp
      simp only [List.mem_cons, List.not_mem_nil, or_false] at hp
      rcases hp with rfl | rfl | rfl <;> decide
  exact ⟨c', hrun, hboot, hsame smallBoot _ smallBoot_booted hphys _ _ hboot⟩

end SkipOS
