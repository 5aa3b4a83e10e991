import SkipOS.Lib.Layout
import SkipOS.VpAlloc

/-! The interrupt gates that `idt_populate` writes and the system descriptor that
`set_gdt_sys_desc` writes, read as the processor reads them. -/

namespace SkipOS

open Mem Exec Slice

def store8 (a : Word) (v : BitVec 8) (m : Mem) : Mem := m.storeLE a 1 v.toNat

def store16 (a : Word) (v : BitVec 16) (m : Mem) : Mem := m.storeLE a 2 v.toNat

def store32 (a : Word) (v : BitVec 32) (m : Mem) : Mem := m.storeLE a 4 v.toNat

def idtEntryCnt : Nat := 256

def gpIntNum : Byte := 0xD

def dfIntNum : Byte := 0x8

def gdtOffsetKernelCode : BitVec 16 := 0x08

/-- `&idt[idt_index]`, with entries of 16 bytes. -/
def idtEntryPtr (idt : Word) (idtIndex : Byte) : Word := idt + 16 * idtIndex.setWidth 64

def setIst (entryPtr : Word) (ist : Byte) : Mem → Mem := store8 (entryPtr + 4) ist

def idtSetDescriptor (idt : Word) (idtIndex : Byte) (isr : Word) (attributes : Byte) (m : Mem) :
    Mem :=
  let entryPtr := idtEntryPtr idt idtIndex
  let m := store16 (entryPtr + 0) ((isr &&& 0xFFFF).setWidth 16) m
  let m := store16 (entryPtr + 2) gdtOffsetKernelCode m
  let m := setIst entryPtr 0 m
  let m := store8 (entryPtr + 5) attributes m
  let m := store16 (entryPtr + 6) (((isr >>> 16) &&& 0xFFFF).setWidth 16) m
  let m := store32 (entryPtr + 8) (((isr >>> 32) &&& 0xFFFFFFFF).setWidth 32) m
  store32 (entryPtr + 12) 0 m

/-- The loop of `idt_populate` from `i` on. -/
def idtPopulateLoop (idt : Word) (isrTable : Byte → Word) : Nat → Nat → Mem → Mem
  | 0, _, m => m
  | n + 1, i, m =>
    let idtIndex := BitVec.ofNat 8 i
    let m := idtSetDescriptor idt idtIndex (isrTable idtIndex) 0x8E m
    idtPopulateLoop idt isrTable n (i + 1) m

def idtPopulate (idt : Word) (isrTable : Byte → Word) (m : Mem) : Mem :=
  let m := idtPopulateLoop idt isrTable idtEntryCnt 0 m
  let m := setIst (idtEntryPtr idt gpIntNum) 1 m
  let m := setIst (idtEntryPtr idt dfIntNum) 2 m
  setIst (idtEntryPtr idt pfIntNum) 3 m

/-- `limit_high: 4`, the low half of its byte. -/
def setLimitHigh (p : Word) (v : Byte) (m : Mem) : Mem :=
  store8 (p + 6) ((m (p + 6) &&& 0xF0) ||| (v &&& 0x0F)) m

/-- `flags: 4`, the high half. -/
def setFlags (p : Word) (v : Byte) (m : Mem) : Mem :=
  store8 (p + 6) ((m (p + 6) &&& (0x0F : Byte)) ||| (v <<< 4)) m

def setGdtSysDesc (p : Word) (accessByte flags : Byte) (base : Word) (limit : BitVec 32) :
    Exec Mem Unit := do
  assert (p ≠ 0)
  modify fun m => m.fill p 16 0
  modify (store8 (p + 5) accessByte)
  modify (setFlags p (flags &&& 0xF))
  modify (store16 (p + 0) ((limit &&& 0xFFFF).setWidth 16))
  modify (setLimitHigh p (((limit >>> 16) &&& 0xF).setWidth 8))
  modify (store16 (p + 2) ((base &&& 0xFFFF).setWidth 16))
  modify (store8 (p + 4) (((base >>> 16) &&& 0xFF).setWidth 8))
  modify (store8 (p + 7) (((base >>> 24) &&& 0xFF).setWidth 8))
  modify (store32 (p + 8) (((base >>> 32) &&& 0xFFFFFFFF).setWidth 32))

/-- The 16 bytes of a gate or a system descriptor. -/
def descriptor (m : Mem) (p : Word) : BitVec 128 := BitVec.ofNat 128 (m.loadLE p 16)

@[ext] structure Gate where
  offset : Word
  selector : BitVec 16
  ist : BitVec 3
  attributes : Byte

/-- The processor's layout of a gate. -/
def decodeGate (d : BitVec 128) : Gate where
  offset := d.extractLsb' 64 32 ++ d.extractLsb' 48 16 ++ d.extractLsb' 0 16
  selector := d.extractLsb' 16 16
  ist := d.extractLsb' 32 3
  attributes := d.extractLsb' 40 8

@[ext] structure SysDesc where
  base : Word
  limit : BitVec 20
  access : Byte
  flags : BitVec 4

/-- The processor's layout of a system descriptor. -/
def decodeSysDesc (d : BitVec 128) : SysDesc where
  base := d.extractLsb' 64 32 ++ d.extractLsb' 56 8 ++ d.extractLsb' 32 8 ++ d.extractLsb' 16 16
  limit := d.extractLsb' 48 4 ++ d.extractLsb' 0 16
  access := d.extractLsb' 40 8
  flags := d.extractLsb' 52 4

theorem extractLsb'_descriptor (m : Mem) (p : Word) {i k : Nat} (hi : 8 ∣ i) (hk : 8 ∣ k)
    (h : i + k ≤ 128) : (descriptor m p).extractLsb' i k =
      BitVec.ofNat k (m.loadLE (p + BitVec.ofNat 64 (i / 8)) (k / 8)) :=
  extractLsb'_loadLE m p rfl hi hk h

theorem decodeGate_descriptor (m : Mem) (p : Word) :
    decodeGate (descriptor m p) = {
      offset := BitVec.ofNat 32 (m.loadLE (p + 8) 4) ++ BitVec.ofNat 16 (m.loadLE (p + 6) 2) ++
        BitVec.ofNat 16 (m.loadLE (p + 0) 2)
      selector := BitVec.ofNat 16 (m.loadLE (p + 2) 2)
      ist := (BitVec.ofNat 8 (m.loadLE (p + 4) 1)).extractLsb' 0 3
      attributes := BitVec.ofNat 8 (m.loadLE (p + 5) 1) } := by
  have hist : (descriptor m p).extractLsb' 32 3 =
      ((descriptor m p).extractLsb' 32 8).extractLsb' 0 3 :=
    (extractLsb'_extractLsb' (n := 8) (j := 0) _ (by decide)).symm
  simp (disch := decide) only [decodeGate, hist, extractLsb'_descriptor, Nat.reduceDiv,
    BitVec.ofNat_eq_ofNat]

theorem decodeSysDesc_descriptor (m : Mem) (p : Word) :
    decodeSysDesc (descriptor m p) = {
      base := BitVec.ofNat 32 (m.loadLE (p + 8) 4) ++ BitVec.ofNat 8 (m.loadLE (p + 7) 1) ++
        BitVec.ofNat 8 (m.loadLE (p + 4) 1) ++ BitVec.ofNat 16 (m.loadLE (p + 2) 2)
      limit := (BitVec.ofNat 8 (m.loadLE (p + 6) 1)).extractLsb' 0 4 ++
        BitVec.ofNat 16 (m.loadLE (p + 0) 2)
      access := BitVec.ofNat 8 (m.loadLE (p + 5) 1)
      flags := (BitVec.ofNat 8 (m.loadLE (p + 6) 1)).extractLsb' 4 4 } := by
  have hnibble {i j : Nat} (hi : i = 48 + j) (hj : j + 4 ≤ 8) : (descriptor m p).extractLsb' i 4 =
      ((descriptor m p).extractLsb' 48 8).extractLsb' j 4 :=
    hi ▸ (extractLsb'_extractLsb' _ hj).symm
  have hlow := hnibble (i := 48) (j := 0) rfl (by decide)
  have hhigh := hnibble (i := 52) (j := 4) rfl (by decide)
  simp (disch := decide) only [decodeSysDesc, hlow, hhigh, extractLsb'_descriptor, Nat.reduceDiv,
    BitVec.ofNat_eq_ofNat]

theorem decodeGate_setIst (p : Word) (ist : Byte) (m : Mem) :
    decodeGate (descriptor (setIst p ist m) p) =
      { decodeGate (descriptor m p) with ist := ist.extractLsb' 0 3 } := by
  simp (disch := decide) only [decodeGate_descriptor, setIst, store8, loadLE_storeLE_offset,
    ofNat_loadLE_storeLE_self]

theorem decodeGate_idtSetDescriptor (idt : Word) (i : Byte) (isr : Word) (attributes : Byte)
    (m : Mem) :
    decodeGate (descriptor (idtSetDescriptor idt i isr attributes m) (idtEntryPtr idt i)) =
      ⟨isr, gdtOffsetKernelCode, 0, attributes⟩ := by
  have hlow : (isr &&& 0xFFFF).setWidth 16 = isr.extractLsb' 0 16 :=
    setWidth_ushiftRight_and (i := 0) isr 0xFFFF rfl
  simp (disch := decide) only [decodeGate_descriptor, idtSetDescriptor, setIst, store8, store16,
    store32, loadLE_storeLE_offset, ofNat_loadLE_storeLE_self, hlow, setWidth_ushiftRight_and,
    BitVec.extractLsb'_append_extractLsb'_eq_extractLsb', BitVec.extractLsb'_eq_self]
  rfl

theorem idtSetDescriptor_eqOn_compl (idt : Word) (i : Byte) (isr : Word) (attributes : Byte)
    (m : Mem) :
    Set.EqOn (idtSetDescriptor idt i isr attributes m) m (span (idtEntryPtr idt i) 16)ᶜ := by
  intro b hb
  have hstore {d : Word} {n v : Nat} (m : Mem) (h : d.toNat + n ≤ 16) :
      m.storeLE (idtEntryPtr idt i + d) n v b = m b :=
    storeLE_apply_of_not_mem fun hc => hb (span_offset_subset h hc)
  simp (disch := decide) only [idtSetDescriptor, setIst, store8, store16, store32, hstore]

theorem setIst_eqOn_compl (p : Word) (ist : Byte) (m : Mem) :
    Set.EqOn (setIst p ist m) m (span p 16)ᶜ :=
  fun _ hb => storeLE_apply_of_not_mem fun hc => hb (span_offset_subset (by decide) hc)

theorem idtEntryPtr_disjoint (idt : Word) {i j : Byte} (h : i ≠ j) :
    Disjoint (span (idtEntryPtr idt i) 16) (span (idtEntryPtr idt j) 16) := by
  rw [Set.disjoint_left]
  intro b hb hb'
  rw [mem_span, idtEntryPtr] at hb hb'
  bv_omega

theorem descriptor_congr {m m' : Mem} {p : Word} (h : Set.EqOn m m' (span p 16)) :
    descriptor m p = descriptor m' p := by
  rw [descriptor, descriptor, loadLE_congr (by decide) h]

theorem descriptor_of_eqOn_compl {m m' : Mem} {idt : Word} {i j : Byte} (hij : i ≠ j)
    (h : Set.EqOn m' m (span (idtEntryPtr idt i) 16)ᶜ) :
    descriptor m' (idtEntryPtr idt j) = descriptor m (idtEntryPtr idt j) :=
  descriptor_congr (h.mono (Set.subset_compl_iff_disjoint_left.mpr (idtEntryPtr_disjoint idt hij)))

theorem decodeGate_idtPopulateLoop (idt : Word) (isrTable : Byte → Word) (j : Byte) {n i : Nat}
    (hle : i + n ≤ 256) (m : Mem) :
    decodeGate (descriptor (idtPopulateLoop idt isrTable n i m) (idtEntryPtr idt j)) =
      if i ≤ j.toNat ∧ j.toNat < i + n then ⟨isrTable j, gdtOffsetKernelCode, 0, 0x8E⟩
      else decodeGate (descriptor m (idtEntryPtr idt j)) := by
  induction n generalizing i m with
  | zero => rw [idtPopulateLoop, if_neg (by omega)]
  | succ n ih =>
    rw [idtPopulateLoop, ih (by omega)]
    by_cases hj : j = BitVec.ofNat 8 i
    · have hi : j.toNat = i := by rw [hj, toNat_ofNat_of_lt (by omega)]
      rw [if_neg (by omega), if_pos (by omega), hj, decodeGate_idtSetDescriptor]
    · have hi : j.toNat ≠ i := by
        rintro rfl
        exact hj (by rw [BitVec.ofNat_toNat, BitVec.setWidth_eq])
      rw [descriptor_of_eqOn_compl (Ne.symm hj) (idtSetDescriptor_eqOn_compl _ _ _ _ m)]
      exact if_congr (by omega) rfl rfl

/-- The interrupt stack that the gate `j` switches to, 0 for none. -/
def istOf (j : Byte) : BitVec 3 :=
  if j = pfIntNum then 3 else if j = dfIntNum then 2 else if j = gpIntNum then 1 else 0

theorem decodeGate_setIst_of_entry (idt : Word) (i j ist : Byte) (m : Mem) :
    decodeGate (descriptor (setIst (idtEntryPtr idt i) ist m) (idtEntryPtr idt j)) =
      { decodeGate (descriptor m (idtEntryPtr idt j)) with
        ist := if j = i then ist.extractLsb' 0 3
          else (decodeGate (descriptor m (idtEntryPtr idt j))).ist } := by
  by_cases h : j = i
  · rw [h, if_pos rfl, decodeGate_setIst]
  · rw [if_neg h, descriptor_of_eqOn_compl (Ne.symm h) (setIst_eqOn_compl _ _ m)]

theorem decodeGate_idtPopulate (idt : Word) (isrTable : Byte → Word) (m : Mem) (j : Byte) :
    decodeGate (descriptor (idtPopulate idt isrTable m) (idtEntryPtr idt j)) =
      ⟨isrTable j, gdtOffsetKernelCode, istOf j, 0x8E⟩ := by
  have hloop := decodeGate_idtPopulateLoop idt isrTable j (n := idtEntryCnt) (i := 0) (by decide) m
  rw [if_pos ⟨Nat.zero_le _, (Nat.zero_add idtEntryCnt).symm ▸ j.isLt⟩] at hloop
  simp only [idtPopulate, decodeGate_setIst_of_entry, hloop]
  rfl

theorem setFlags_high (b v : Byte) :
    ((b &&& (0x0F : Byte)) ||| (v &&& 0xF) <<< 4).extractLsb' 4 4 = v.setWidth 4 := by
  have hmask : BitVec.extractLsb' 4 4 (0x0F : Byte) = 0#4 := rfl
  have hflags : BitVec.extractLsb' 0 4 (0xF : Byte) = BitVec.allOnes 4 := rfl
  rw [BitVec.extractLsb'_or, BitVec.extractLsb'_and, hmask, BitVec.and_zero, BitVec.zero_or,
    extractLsb'_shiftLeft _ (by decide), BitVec.extractLsb'_and, hflags, BitVec.and_allOnes,
    BitVec.setWidth_eq_extractLsb' (by decide)]

theorem decodeSysDesc_setGdtSysDesc {p : Word} (hp : p ≠ 0) (accessByte flags : Byte)
    (base : Word) (limit : BitVec 32) (m : Mem) :
    ∃ m', setGdtSysDesc p accessByte flags base limit m = .ok () m' ∧
      decodeSysDesc (descriptor m' p) =
        ⟨base, limit.setWidth 20, accessByte, flags.setWidth 4⟩ := by
  have hlow : (base &&& 0xFFFF).setWidth 16 = base.extractLsb' 0 16 :=
    setWidth_ushiftRight_and (i := 0) base 0xFFFF rfl
  have hlimit : (limit &&& 0xFFFF).setWidth 16 = limit.extractLsb' 0 16 :=
    setWidth_ushiftRight_and (i := 0) limit 0xFFFF rfl
  rw [setGdtSysDesc, bind_assert_of hp]
  refine ⟨_, rfl, ?_⟩
  simp (disch := decide) only [decodeSysDesc_descriptor, setFlags, setLimitHigh, store8, store16,
    store32, loadLE_storeLE_offset, ofNat_loadLE_storeLE_self, hlow, hlimit,
    setWidth_ushiftRight_and, storeLE_one_apply, storeLE_offset_apply,
    BitVec.extractLsb'_append_extractLsb'_eq_extractLsb', BitVec.extractLsb'_eq_self]
  congr 1
  · rw [extractLsb'_masked _ _ 0xF0 0x0F rfl rfl, BitVec.extractLsb'_setWidth_of_le (by decide),
      ← BitVec.setWidth_eq_extractLsb' (by decide), setWidth_ushiftRight_and _ _ rfl]
    exact (BitVec.extractLsb'_append_extractLsb'_eq_extractLsb' rfl).trans
      (BitVec.setWidth_eq_extractLsb' (by decide)).symm
  · rw [BitVec.or_comm, extractLsb'_masked _ _ 0x0F 0xF0 rfl rfl, setFlags_high]

/-- Every slice of a handler address and of a base comes back in its place. -/
theorem descriptors_decode :
    (∀ (idt : Word) (isrTable : Byte → Word) (m : Mem) (i : Byte),
      let gate := decodeGate (descriptor (idtPopulate idt isrTable m) (idtEntryPtr idt i))
      gate.offset = isrTable i ∧ gate.selector = gdtOffsetKernelCode) ∧
    ∀ (p : Word) (accessByte flags : Byte) (base : Word) (limit : BitVec 32) (m : Mem),
      p ≠ 0 → limit.toNat < 2 ^ 20 →
      ∃ m', setGdtSysDesc p accessByte flags base limit m = .ok () m' ∧
        (decodeSysDesc (descriptor m' p)).base = base ∧
        (decodeSysDesc (descriptor m' p)).limit.setWidth 32 = limit := by
  constructor
  · intro idt isrTable m i
    have h := decodeGate_idtPopulate idt isrTable m i
    exact ⟨congrArg Gate.offset h, congrArg Gate.selector h⟩
  · intro p accessByte flags base limit m hp hlimit
    obtain ⟨m', hrun, hdesc⟩ := decodeSysDesc_setGdtSysDesc hp accessByte flags base limit m
    refine ⟨m', hrun, congrArg SysDesc.base hdesc, ?_⟩
    rw [hdesc]
    apply BitVec.eq_of_toNat_eq
    rw [BitVec.toNat_setWidth, BitVec.toNat_setWidth]
    omega

theorem descriptors_decode_tss :
    ∃ m', setGdtSysDesc 0x10A010 0x89 0x2 0xFFFF800012345678 103 (fun _ => 0xFF) = .ok () m' ∧
      (decodeSysDesc (descriptor m' 0x10A010)).base = 0xFFFF800012345678 ∧
      (decodeSysDesc (descriptor m' 0x10A010)).limit.setWidth 32 = (103 : BitVec 32) :=
  descriptors_decode.2 0x10A010 0x89 0x2 0xFFFF800012345678 103 (fun _ => 0xFF) (by decide)
    (by decide)

end SkipOS
