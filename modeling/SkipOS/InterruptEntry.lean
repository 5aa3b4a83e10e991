import SkipOS.Delivery

/-! `GDT_init` and the IDT of `IRQ_init`: from any instruction into the stub of a vector and
back. -/

namespace SkipOS

open Mem Exec Processor Stack

/-- Where the linker puts the static variables of `gdt.c` and `interrupt.c`. -/
structure TableVars where
  gdt : Word
  gdtPtr : Word
  tss : Word
  gpStack : Word
  dfStack : Word
  pfStack : Word
  idt : Word
  idtr : Word

def extIntStackSize : Word := 4096

namespace TableVars

/-! The pointers to the ends of the stacks, to which nothing is assigned. -/

def gpStackBase (k : TableVars) : Word := k.gpStack + extIntStackSize

def dfStackBase (k : TableVars) : Word := k.dfStack + extIntStackSize

def pfStackBase (k : TableVars) : Word := k.pfStack + extIntStackSize

end TableVars

def gdtNumEntries : Nat := 4

/-! The sizes of packed structures, member by member. -/

def gdtUsrDescSize : Nat := 2 + 2 + 1 + 1 + 1 + 1

def gdtSize : Nat := gdtNumEntries * gdtUsrDescSize

def tssSize : Nat := 4 + 8 + 8 + 8 + 8 + 7 * 8 + 8 + 2 + 2

def idtEntrySize : Nat := 2 + 2 + 1 + 1 + 2 + 4 + 4

def kcodeDescAccess : Byte := 0b10011111

def kcodeDescFlags : Byte := 0b0010

def tssDescAccess : Byte := 0b10001001

def tssDescFlags : Byte := 0b0010

def setGdtUsrDesc (p : Word) (accessByte flags : Byte) : Exec Mem Unit := do
  assert (p ≠ 0)
  modify fun m => m.fill p gdtUsrDescSize 0
  modify (store8 (p + 5) accessByte)
  modify (setFlags p (flags &&& 0xF))

/-- Code that works on memory only. -/
def inMem {α : Type} (x : Exec Mem α) : Exec Processor α :=
  zoom (fun p => p.cpu.mem) (fun m p => { p with cpu := { p.cpu with mem := m } }) x

/-- An instruction; where it faults there is no handler yet. -/
def instruction (f : Processor → Option Processor) : Exec Processor Unit := do
  match f (← get) with
  | some p => set p
  | none => throw .halt

/-- What `GDT_init` stores before its two instructions. -/
def gdtInitStores (k : TableVars) : Exec Mem Unit := do
  modify (store16 k.gdtPtr (BitVec.ofNat 16 (gdtSize - 1)))
  modify fun m => m.setField k.gdtPtr 2 k.gdt
  setGdtUsrDesc (k.gdt + 8) kcodeDescAccess kcodeDescFlags
  setGdtSysDesc (k.gdt + 16) tssDescAccess tssDescFlags k.tss (BitVec.ofNat 32 tssSize)
  modify fun m => m.fill k.tss tssSize 0
  modify fun m => m.setField k.tss 36 k.gpStackBase
  modify fun m => m.setField k.tss 44 k.dfStackBase
  modify fun m => m.setField k.tss 52 k.pfStackBase

def gdtInit (k : TableVars) : Exec Processor Unit := do
  assert (gdtUsrDescSize = 8)
  assert (gdtSize = gdtNumEntries * gdtUsrDescSize)
  assert (tssSize = 104)
  let tssOffset := ((k.gdt + 16) - k.gdt).setWidth 16
  inMem (gdtInitStores k)
  instruction fun p => some (p.lgdt k.gdtPtr)
  instruction (ltr tssOffset)

def idtLoadIdtr (k : TableVars) : Exec Processor Unit := do
  inMem do
    modify fun m => m.setField k.idtr 2 k.idt
    modify (store16 k.idtr (BitVec.ofNat 16 (idtEntrySize * idtEntryCnt - 1)))
  instruction fun p => some (p.lidt k.idtr)

/-- The first two calls of `IRQ_init`. -/
def idtInit (k : TableVars) (isrTable : Byte → Word) : Exec Processor Unit := do
  inMem (modify (idtPopulate k.idt isrTable))
  idtLoadIdtr k

namespace TableVars

/-- What the processor reads when it takes an interrupt. -/
def tables (k : TableVars) : Set Word := span k.gdt 32 ∪ span k.tss 104 ∪ span k.idt 4096

/-- The variables lie apart, and the first of them does not wrap around. -/
structure Placed (k : TableVars) : Prop where
  gdt : k.gdt.toNat + 32 ≤ 2 ^ 64
  gdt_tss : Disjoint (span k.gdt 32) (span k.tss 104)
  idt : Disjoint (span k.idt 4096) (span k.gdt 32 ∪ span k.tss 104)
  gdtPtr : Disjoint (span k.gdtPtr 10) (span k.gdt 32 ∪ span k.tss 104)
  idtr : Disjoint (span k.idtr 10) k.tables

end TableVars

/-- Everything else may change. -/
structure LeavesTables (k : TableVars) (p q : Processor) : Prop where
  gdtr : q.gdtr = p.gdtr
  idtr : q.idtr = p.idtr
  tr : q.tr = p.tr
  mem : Set.EqOn q.cpu.mem p.cpu.mem k.tables

structure GdtLoaded (k : TableVars) (p : Processor) : Prop where
  gdtr : p.gdtr = ⟨31, k.gdt⟩
  tr : p.tr = ⟨16, k.tss, 104⟩
  code : decodeUsrDesc (p.cpu.mem.load64 (k.gdt + 8)) = ⟨kcodeDescAccess, 0b0010⟩
  ist1 : p.cpu.mem.load64 (k.tss + 36) = k.gpStackBase
  ist2 : p.cpu.mem.load64 (k.tss + 44) = k.dfStackBase
  ist3 : p.cpu.mem.load64 (k.tss + 52) = k.pfStackBase

structure TablesLoaded (k : TableVars) (isrTable : Byte → Word) (p : Processor) : Prop
    extends GdtLoaded k p where
  idtr : p.idtr = ⟨4095, k.idt⟩
  gates : ∀ vec, decodeGate (descriptor p.cpu.mem (idtEntryPtr k.idt vec)) =
    ⟨isrTable vec, gdtOffsetKernelCode, istOf vec, 0x8E⟩

/-- The stack that the TSS has for the vector, or the one in use. -/
def stackFor (k : TableVars) (p : Processor) (vec : Byte) : Word :=
  if vec = pfIntNum then k.pfStackBase
  else if vec = dfIntNum then k.dfStackBase
  else if vec = gpIntNum then k.gpStackBase
  else p.cpu.regs .rsp

def frameTop (k : TableVars) (p : Processor) (vec : Byte) : Word :=
  stackFor k p vec &&& ~~~(0xF : Word)

/-- At the first instruction of the stub, with interrupts off. -/
structure Entered (k : TableVars) (isrTable : Byte → Word) (vec : Byte) (error : Option Word)
    (p q : Processor) : Prop where
  rip : q.rip = isrTable vec
  cs : q.cs = gdtOffsetKernelCode
  ss : q.ss = p.ss
  rflags : q.rflags = p.rflags &&& ~~~interruptFlags
  regs : ∀ r, r ≠ .rsp → q.cpu.regs r = p.cpu.regs r
  rsp : q.cpu.regs .rsp + BitVec.ofNat 64 (8 * (error.toList ++ interruptFrame p).length) =
    frameTop k p vec
  frame : At q.cpu.mem (q.cpu.regs .rsp) (error.toList ++ interruptFrame p)
  mem : Set.EqOn q.cpu.mem p.cpu.mem (span (frameTop k p vec - 48) 48)ᶜ

variable {k : TableVars} {p q : Processor} {m m' : Mem} {a : Word} {isrTable : Byte → Word}
  {vec : Byte}

theorem decodeUsrDesc_load64 (m : Mem) (p : Word) :
    decodeUsrDesc (m.load64 p) = ⟨BitVec.ofNat 8 (m.loadLE (p + 5) 1),
      (BitVec.ofNat 8 (m.loadLE (p + 6) 1)).extractLsb' 4 4⟩ := by
  have hpart {i k : Nat} (hi : 8 ∣ i) (hk : 8 ∣ k) (h : i + k ≤ 64) :
      (m.load64 p).extractLsb' i k =
        BitVec.ofNat k (m.loadLE (p + BitVec.ofNat 64 (i / 8)) (k / 8)) :=
    extractLsb'_loadLE m p rfl hi hk h
  have hflags : (m.load64 p).extractLsb' 52 4 =
      ((m.load64 p).extractLsb' 48 8).extractLsb' 4 4 :=
    (Slice.extractLsb'_extractLsb' (n := 8) (j := 4) _ (by decide)).symm
  rw [decodeUsrDesc, hflags, hpart (by decide) (by decide) (by decide),
    hpart (by decide) (by decide) (by decide)]
  rfl

/-- The members that are not written stay zero. -/
theorem setGdtUsrDesc_spec {p : Word} (hp : p ≠ 0) (accessByte flags : Byte) (m : Mem) :
    ∃ m', setGdtUsrDesc p accessByte flags m = .ok () m' ∧
      decodeUsrDesc (m'.load64 p) = ⟨accessByte, flags.setWidth 4⟩ ∧
      Set.EqOn m' m (span p 8)ᶜ := by
  rw [setGdtUsrDesc, bind_assert_of hp]
  refine ⟨_, rfl, ?_, fun b hb => ?_⟩
  · simp (disch := decide) only [decodeUsrDesc_load64, setFlags, store8, loadLE_storeLE_offset,
      ofNat_loadLE_storeLE_self, setFlags_high]
  · have hstore {d : Word} {n v : Nat} (m : Mem) (h : d.toNat + n ≤ 8) :
        m.storeLE (p + d) n v b = m b :=
      storeLE_apply_of_not_mem fun hc => hb (span_offset_subset h hc)
    simp (disch := decide) only [setFlags, store8, hstore]
    exact fill_eqOn_compl m p 8 0 hb

theorem setGdtSysDesc_spec {p : Word} (hp : p ≠ 0) (accessByte flags : Byte) (base : Word)
    (limit : BitVec 32) (m : Mem) :
    ∃ m', setGdtSysDesc p accessByte flags base limit m = .ok () m' ∧
      decodeSysDesc (descriptor m' p) =
        ⟨base, limit.setWidth 20, accessByte, flags.setWidth 4⟩ ∧
      Set.EqOn m' m (span p 16)ᶜ := by
  obtain ⟨m', hrun, hdesc⟩ := decodeSysDesc_setGdtSysDesc hp accessByte flags base limit m
  refine ⟨m', hrun, hdesc, fun b hb => ?_⟩
  rw [setGdtSysDesc, bind_assert_of hp] at hrun
  have hm := congrArg final hrun
  simp only [bind_modify, modify_apply, final_ok] at hm
  have hstore {d : Word} {n v : Nat} (m : Mem) (h : d.toNat + n ≤ 16) :
      m.storeLE (p + d) n v b = m b :=
    storeLE_apply_of_not_mem fun hc => hb (span_offset_subset h hc)
  rw [← hm]
  simp (disch := decide) only [setFlags, setLimitHigh, store8, store16, store32, hstore]
  exact fill_eqOn_compl m p 16 0 hb

theorem loadLE_of_eqOn_compl {A : Set Word} {n : Nat} (hn : n ≤ 2 ^ 64) (h : Set.EqOn m' m Aᶜ)
    (hd : Disjoint (span a n) A) : m'.loadLE a n = m.loadLE a n :=
  loadLE_congr hn (h.mono (Set.subset_compl_iff_disjoint_right.mpr hd))

theorem gdtInitStores_spec (hk : k.Placed) (m : Mem) : ∃ m', gdtInitStores k m = .ok () m' ∧
    m'.loadLE k.gdtPtr 2 = 31 ∧ m'.load64 (k.gdtPtr + 2) = k.gdt ∧
    decodeUsrDesc (m'.load64 (k.gdt + 8)) = ⟨kcodeDescAccess, 0b0010⟩ ∧
    decodeSysDesc (descriptor m' (k.gdt + 16)) = ⟨k.tss, 104, tssDescAccess, 0b0010⟩ ∧
    m'.load64 (k.tss + 36) = k.gpStackBase ∧ m'.load64 (k.tss + 44) = k.dfStackBase ∧
    m'.load64 (k.tss + 52) = k.pfStackBase := by
  have hcode : k.gdt + 8 ≠ 0 := by
    have := hk.gdt
    bv_omega
  have htask : k.gdt + 16 ≠ 0 := by
    have := hk.gdt
    bv_omega
  let m₁ := (store16 k.gdtPtr (BitVec.ofNat 16 (gdtSize - 1)) m).setField k.gdtPtr 2 k.gdt
  obtain ⟨m₂, hrun₂, hdesc₂, heq₂⟩ := setGdtUsrDesc_spec hcode kcodeDescAccess kcodeDescFlags m₁
  obtain ⟨m₃, hrun₃, hdesc₃, heq₃⟩ := setGdtSysDesc_spec htask tssDescAccess tssDescFlags k.tss
    (BitVec.ofNat 32 tssSize) m₂
  let m₄ := (((m₃.fill k.tss tssSize 0).setField k.tss 36 k.gpStackBase).setField k.tss 44
    k.dfStackBase).setField k.tss 52 k.pfStackBase
  have hrun : gdtInitStores k m = .ok () m₄ := by
    rw [gdtInitStores]
    simp only [bind_modify]
    rw [bind_of_ok hrun₂, bind_of_ok hrun₃]
    rfl
  have heq₄ : Set.EqOn m₄ m₃ (span k.tss 104)ᶜ := by
    intro b hb
    have hfield {d v : Word} (m : Mem) (h : d.toNat + 8 ≤ 104) : m.setField k.tss d v b = m b :=
      setField_eqOn_compl m k.tss d v fun hc => hb (span_offset_subset h hc)
    simp (disch := decide) only [m₄, hfield]
    exact fill_eqOn_compl m₃ k.tss 104 0 hb
  have heq₁ : Set.EqOn m₄ m₁ (span k.gdt 32 ∪ span k.tss 104)ᶜ := by
    intro b hb
    have hgdt {d : Word} {n : Nat} (h : d.toNat + n ≤ 32) : b ∉ span (k.gdt + d) n :=
      fun hc => hb (Or.inl (span_offset_subset h hc))
    exact (heq₄ fun hc => hb (Or.inr hc)).trans ((heq₃ (hgdt (by decide))).trans
      (heq₂ (hgdt (by decide))))
  have hpart {d : Word} {n : Nat} (h : d.toNat + n ≤ 32) :
      Disjoint (span (k.gdt + d) n) (span k.tss 104) :=
    hk.gdt_tss.mono_left (span_offset_subset h)
  have hptr {d : Word} {n : Nat} (h : d.toNat + n ≤ 10) :
      Disjoint (span (k.gdtPtr + d) n) (span k.gdt 32 ∪ span k.tss 104) :=
    hk.gdtPtr.mono_left (span_offset_subset h)
  have hfield {d d' v : Word} (m : Mem)
      (h : d.toNat + 8 ≤ d'.toNat ∧ d'.toNat + 8 ≤ 2 ^ 64 ∨
        d'.toNat + 8 ≤ d.toNat ∧ d.toNat + 8 ≤ 2 ^ 64) :
      (m.setField k.tss d v).load64 (k.tss + d') = m.load64 (k.tss + d') :=
    congrArg (BitVec.ofNat 64) (loadLE_storeLE_offset m k.tss v.toNat h)
  have hself {d v : Word} (m : Mem) : (m.setField k.tss d v).load64 (k.tss + d) = v :=
    field_setField_self m k.tss d v
  refine ⟨m₄, hrun, ?_, ?_, ?_, ?_, ?_, ?_, ?_⟩
  · have hzero : k.gdtPtr + 0 = k.gdtPtr := BitVec.add_zero _
    have hload := loadLE_of_eqOn_compl (a := k.gdtPtr) (n := 2) (by decide) heq₁
      (hzero ▸ hptr (d := 0) (by decide))
    rw [hload]
    have hbefore : m₁.loadLE (k.gdtPtr + 0) 2 = _ := loadLE_storeLE_offset _ k.gdtPtr k.gdt.toNat
      (Or.inr ⟨by decide, by decide⟩)
    rw [hzero] at hbefore
    rw [hbefore, store16, loadLE_storeLE_self _ _ _ (by decide)]
    rfl
  · have hload := loadLE_of_eqOn_compl (a := k.gdtPtr + 2) (n := 8) (by decide) heq₁
      (hptr (by decide))
    rw [load64, hload]
    exact field_setField_self _ k.gdtPtr 2 k.gdt
  · have h₄ := loadLE_of_eqOn_compl (a := k.gdt + 8) (n := 8) (by decide) heq₄ (hpart (by decide))
    have h₃ := loadLE_of_eqOn_compl (a := k.gdt + 8) (n := 8) (by decide) heq₃
      (span_offset_disjoint (by decide) (by decide))
    rw [load64, h₄, h₃]
    exact hdesc₂
  · have h₄ := loadLE_of_eqOn_compl (a := k.gdt + 16) (n := 16) (by decide) heq₄
      (hpart (by decide))
    rw [descriptor, h₄]
    exact hdesc₃
  · rw [hfield _ (Or.inr ⟨by decide, by decide⟩), hfield _ (Or.inr ⟨by decide, by decide⟩), hself]
  · rw [hfield _ (Or.inr ⟨by decide, by decide⟩), hself]
  · rw [hself]

theorem GdtLoaded.of_eqOn (h : GdtLoaded k p) (hgdtr : q.gdtr = p.gdtr) (htr : q.tr = p.tr)
    (hmem : Set.EqOn q.cpu.mem p.cpu.mem (span (k.gdt + 8) 8 ∪ span k.tss 104)) :
    GdtLoaded k q := by
  have hist {d : Word} (hd : d.toNat + 8 ≤ 104) :
      q.cpu.mem.load64 (k.tss + d) = p.cpu.mem.load64 (k.tss + d) :=
    load64_congr (hmem.mono ((span_offset_subset hd).trans Set.subset_union_right))
  refine ⟨hgdtr.trans h.gdtr, htr.trans h.tr, ?_, ?_, ?_, ?_⟩
  · rw [load64_congr (hmem.mono Set.subset_union_left)]
    exact h.code
  · exact (hist (by decide)).trans h.ist1
  · exact (hist (by decide)).trans h.ist2
  · exact (hist (by decide)).trans h.ist3

theorem instruction_of_some {f : Processor → Option Processor} (h : f p = some q) :
    instruction f p = .ok () q := by
  rw [instruction, bind_get, h]
  rfl

theorem ltr_of_free {selector : BitVec 16} {d : SysDesc}
    (ha : p.gdtr.base + (selectorOffset selector).setWidth 64 = a)
    (hd : decodeSysDesc (descriptor p.cpu.mem a) = d) (hnull : selectorOffset selector ≠ 0)
    (htable : selector &&& 0x4 = 0)
    (hlimit : (selectorOffset selector).toNat + 15 ≤ p.gdtr.limit.toNat)
    (hfree : d.access &&& 0x9F = 0x89) : ltr selector p = some { p with
      cpu := { p.cpu with mem := store8 (a + 5) (d.access ||| 0x02) p.cpu.mem }
      tr := ⟨selector, d.base, taskLimit d⟩ } := by
  subst ha hd
  rw [ltr, if_pos ⟨hnull, htable, hlimit, hfree⟩]

/-- `ltr` takes the descriptor that `GDT_init` has just written, and marks it busy. -/
theorem gdtInit_spec (hk : k.Placed) (p : Processor) :
    ∃ q, gdtInit k p = .ok () q ∧ GdtLoaded k q := by
  obtain ⟨m, hrun, hlimit, hbase, hcode, htask, h₁, h₂, h₃⟩ := gdtInitStores_spec hk p.cpu.mem
  have hoffset : ((k.gdt + 16) - k.gdt).setWidth 16 = (16 : BitVec 16) := by
    rw [BitVec.add_comm, BitVec.add_sub_cancel]
    rfl
  let p₁ : Processor := { p with cpu := { p.cpu with mem := m } }
  have hstores : inMem (gdtInitStores k) p = .ok () p₁ := zoom_of_ok hrun
  have hgdtr : (p₁.lgdt k.gdtPtr).gdtr = ⟨31, k.gdt⟩ := by
    rw [lgdt, TableReg.mk.injEq]
    exact ⟨congrArg (BitVec.ofNat 16) hlimit, hbase⟩
  have hlgdt : instruction (fun p => some (p.lgdt k.gdtPtr)) p₁ = .ok () (p₁.lgdt k.gdtPtr) :=
    instruction_of_some rfl
  have ha : (p₁.lgdt k.gdtPtr).gdtr.base + (selectorOffset 16).setWidth 64 = k.gdt + 16 := by
    rw [hgdtr]
    rfl
  have hroom : (selectorOffset 16).toNat + 15 ≤ (p₁.lgdt k.gdtPtr).gdtr.limit.toNat := by
    have hfits : (selectorOffset 16).toNat + 15 ≤ (31 : BitVec 16).toNat := by decide
    rwa [congrArg TableReg.limit hgdtr]
  have hfree : tssDescAccess &&& 0x9F = 0x89 := by decide
  have hltr := ltr_of_free ha htask (by decide) (by decide) hroom hfree
  have htr : taskLimit ⟨k.tss, 104, tssDescAccess, 0b0010⟩ = 104 := by
    have hbytes : (0b0010 : BitVec 4).getLsbD 3 = false := by decide
    rw [taskLimit, hbytes]
    rfl
  have husr : gdtUsrDescSize = 8 := rfl
  have hgdt : gdtSize = gdtNumEntries * gdtUsrDescSize := rfl
  have htss : tssSize = 104 := rfl
  have hrun : gdtInit k p = instruction (ltr 16) (p₁.lgdt k.gdtPtr) := by
    rw [gdtInit, bind_assert_of husr, bind_assert_of hgdt, bind_assert_of htss, hoffset,
      bind_of_ok hstores, bind_of_ok hlgdt]
  have hloaded : GdtLoaded k { p₁.lgdt k.gdtPtr with tr := ⟨16, k.tss, 104⟩ } :=
    ⟨hgdtr, rfl, hcode, h₁, h₂, h₃⟩
  have hsame := congrArg (TaskReg.mk 16 k.tss) htr
  refine ⟨_, hrun.trans (instruction_of_some hltr), hloaded.of_eqOn rfl hsame fun b hb =>
    storeLE_apply_of_not_mem fun hbusy => ?_⟩
  have hbusy : b ∈ span (k.gdt + 16) 16 := span_offset_subset (by decide) hbusy
  rcases hb with hb | hb
  · exact Set.disjoint_left.mp (span_offset_disjoint (by decide) (by decide)) hb hbusy
  · exact Set.disjoint_left.mp hk.gdt_tss (span_offset_subset (by decide) hbusy) hb

theorem idtEntryPtr_subset (idt : Word) (i : Byte) :
    span (idtEntryPtr idt i) 16 ⊆ span idt 4096 := by
  apply span_offset_subset
  bv_omega

theorem idtPopulate_eqOn_compl (idt : Word) (isrTable : Byte → Word) (m : Mem) :
    Set.EqOn (idtPopulate idt isrTable m) m (span idt 4096)ᶜ := by
  intro b hb
  have hout (i : Byte) : b ∈ (span (idtEntryPtr idt i) 16)ᶜ := fun hc =>
    hb (idtEntryPtr_subset idt i hc)
  have hloop (n i : Nat) (m : Mem) : idtPopulateLoop idt isrTable n i m b = m b := by
    induction n generalizing i m with
    | zero => rfl
    | succ n ih =>
      rw [idtPopulateLoop, ih]
      exact idtSetDescriptor_eqOn_compl idt _ _ _ m (hout _)
  have hist (i ist : Byte) (m : Mem) : setIst (idtEntryPtr idt i) ist m b = m b :=
    setIst_eqOn_compl _ ist m (hout i)
  rw [idtPopulate, hist, hist, hist, hloop]

theorem idtInit_spec (isrTable : Byte → Word) (hk : k.Placed) (h : GdtLoaded k p) :
    ∃ q, idtInit k isrTable p = .ok () q ∧ TablesLoaded k isrTable q := by
  let m := idtPopulate k.idt isrTable p.cpu.mem
  let m' := store16 k.idtr (BitVec.ofNat 16 (idtEntrySize * idtEntryCnt - 1))
    (m.setField k.idtr 2 k.idt)
  let q : Processor := lidt k.idtr { p with cpu := { p.cpu with mem := m' } }
  have hrun : idtInit k isrTable p = .ok () q := rfl
  have hzero : k.idtr + 0 = k.idtr := BitVec.add_zero _
  have heq : Set.EqOn m' m k.tables := by
    intro b hb
    have hout {d : Word} {n : Nat} (h : d.toNat + n ≤ 10) : b ∉ span (k.idtr + d) n :=
      fun hc => Set.disjoint_left.mp hk.idtr (span_offset_subset h hc) hb
    have hlow : b ∉ span k.idtr 2 := hzero ▸ hout (d := 0) (by decide)
    exact (storeLE_apply_of_not_mem hlow).trans (storeLE_apply_of_not_mem (hout (by decide)))
  have hidtr : q.idtr = ⟨4095, k.idt⟩ := by
    have hlimit : m'.loadLE k.idtr 2 = 4095 := loadLE_storeLE_self _ _ _ (by decide)
    have hbase : m'.load64 (k.idtr + 2) = k.idt := by
      have hkept : ((m.setField k.idtr 2 k.idt).storeLE (k.idtr + 0) 2 4095).loadLE (k.idtr + 2) 8 =
          (m.setField k.idtr 2 k.idt).loadLE (k.idtr + 2) 8 :=
        loadLE_storeLE_offset _ k.idtr 4095 (Or.inl ⟨by decide, by decide⟩)
      rw [hzero] at hkept
      exact (congrArg (BitVec.ofNat 64) hkept).trans (field_setField_self m k.idtr 2 k.idt)
    rw [TableReg.mk.injEq]
    exact ⟨congrArg (BitVec.ofNat 16) hlimit, hbase⟩
  have hgdt : GdtLoaded k q := by
    refine h.of_eqOn rfl rfl fun b hb => ?_
    have hpart : b ∈ span k.gdt 32 ∪ span k.tss 104 :=
      hb.imp_left fun hc => span_offset_subset (by decide) hc
    have hidt : b ∉ span k.idt 4096 := fun hc => Set.disjoint_left.mp hk.idt hc hpart
    exact (heq (Or.inl hpart)).trans (idtPopulate_eqOn_compl _ _ _ hidt)
  refine ⟨q, hrun, hgdt, hidtr, fun vec => ?_⟩
  have hgate : descriptor m' (idtEntryPtr k.idt vec) = descriptor m (idtEntryPtr k.idt vec) :=
    descriptor_congr (heq.mono ((idtEntryPtr_subset _ vec).trans Set.subset_union_right))
  exact (congrArg decodeGate hgate).trans (decodeGate_idtPopulate k.idt isrTable p.cpu.mem vec)

theorem GdtLoaded.leaves (h : GdtLoaded k p) (hl : LeavesTables k p q) : GdtLoaded k q :=
  h.of_eqOn hl.gdtr hl.tr (hl.mem.mono fun _ hb =>
    Or.inl (hb.imp_left fun hc => span_offset_subset (by decide) hc))

theorem TablesLoaded.leaves (h : TablesLoaded k isrTable p) (hl : LeavesTables k p q) :
    TablesLoaded k isrTable q := by
  refine ⟨h.toGdtLoaded.leaves hl, hl.idtr.trans h.idtr, fun vec => ?_⟩
  rw [descriptor_congr (hl.mem.mono ((idtEntryPtr_subset _ vec).trans Set.subset_union_right))]
  exact h.gates vec

theorem loadsCode_of_code (hgdtr : p.gdtr = ⟨31, k.gdt⟩)
    (hcode : decodeUsrDesc (p.cpu.mem.load64 (k.gdt + 8)) = ⟨kcodeDescAccess, 0b0010⟩) :
    p.LoadsCode gdtOffsetKernelCode := by
  have hoffset : (selectorOffset gdtOffsetKernelCode).setWidth 64 = (8 : Word) := rfl
  have henters : (UsrDesc.mk kcodeDescAccess 0b0010).Enters := ⟨by decide, by decide⟩
  have hlimit : (selectorOffset gdtOffsetKernelCode).toNat + 7 ≤ (31 : BitVec 16).toNat := by decide
  refine ⟨by decide, by decide, ?_, ?_⟩
  · rwa [congrArg TableReg.limit hgdtr]
  · rwa [congrArg TableReg.base hgdtr, hoffset, hcode]

theorem GdtLoaded.interruptStack (h : GdtLoaded k p) (vec : Byte) :
    p.interruptStack (istOf vec) = some (stackFor k p vec) := by
  have hist {ist : BitVec 3} {v : Word} (h0 : ist ≠ 0)
      (hload : p.cpu.mem.load64 (k.tss + (0x1C + 8 * ist.setWidth 64)) = v) :
      p.interruptStack ist = some v := by
    have hroom : 0x1C + 8 * ist.toNat + 7 ≤ (104 : BitVec 32).toNat := by
      have hlt := ist.isLt
      have h104 : (104 : BitVec 32).toNat = 104 := rfl
      omega
    rw [Processor.interruptStack, if_neg h0, h.tr, if_pos hroom, hload]
  rw [istOf, stackFor]
  by_cases hpf : vec = pfIntNum
  · rw [if_pos hpf, if_pos hpf]
    exact hist (by decide) h.ist3
  · rw [if_neg hpf, if_neg hpf]
    by_cases hdf : vec = dfIntNum
    · rw [if_pos hdf, if_pos hdf]
      exact hist (by decide) h.ist2
    · rw [if_neg hdf, if_neg hdf]
      by_cases hgp : vec = gpIntNum
      · rw [if_pos hgp, if_pos hgp]
        exact hist (by decide) h.ist1
      · rw [if_neg hgp, if_neg hgp, Processor.interruptStack, if_pos rfl]

theorem TablesLoaded.deliver (h : TablesLoaded k isrTable p) (vec : Byte) (error : Option Word) :
    p.deliver vec error = some { p with
      cpu := p.pushFrame (stackFor k p vec) error
      rip := isrTable vec
      cs := gdtOffsetKernelCode
      rflags := p.rflags &&& ~~~interruptFlags } := by
  have hlimit : 16 * vec.toNat + 15 ≤ p.idtr.limit.toNat := by
    have hlt := vec.isLt
    have hfits : 16 * vec.toNat + 15 ≤ (4095 : BitVec 16).toNat := by
      have h4095 : (4095 : BitVec 16).toNat = 4095 := rfl
      omega
    rwa [congrArg TableReg.limit h.idtr]
  have hgate : (0x8E : Byte) &&& 0x9F = 0x8E := by decide
  have hcs : gdtOffsetKernelCode &&& 0xFFFC = gdtOffsetKernelCode := by decide
  rw [Processor.deliver, congrArg TableReg.base h.idtr, h.gates,
    if_pos ⟨hlimit, hgate, loadsCode_of_code h.gdtr h.code⟩, h.interruptStack, hcs]
  rfl

theorem TablesLoaded.enters (h : TablesLoaded k isrTable p) (vec : Byte) (error : Option Word) :
    ∃ q, p.deliver vec error = some q ∧ Entered k isrTable vec error p q := by
  obtain ⟨hrep, hmem⟩ := pushFrame_rep p (stackFor k p vec) error
  refine ⟨_, h.deliver vec error, rfl, rfl, rfl, rfl, fun r hr => ?_, hrep.base, hrep.stack, hmem⟩
  exact (hrep.regs r hr).trans (Cpu.set_regs_ne hr _ _)

/-- A processor that has run `GDT_init` and what `IRQ_init` does for the IDT, and otherwise code
that leaves the tables alone. -/
def InterruptsReady (k : TableVars) (isrTable : Byte → Word) (p : Processor) : Prop :=
  ∃ p₀ p₁ p₂ p₃, gdtInit k p₀ = .ok () p₁ ∧ LeavesTables k p₁ p₂ ∧
    idtInit k isrTable p₂ = .ok () p₃ ∧ LeavesTables k p₃ p

theorem InterruptsReady.tablesLoaded (hk : k.Placed) (h : InterruptsReady k isrTable p) :
    TablesLoaded k isrTable p := by
  obtain ⟨p₀, p₁, p₂, p₃, hgdt, h₁, hidt, h₂⟩ := h
  obtain ⟨q₁, hrun₁, hloaded⟩ := gdtInit_spec hk p₀
  obtain rfl : q₁ = p₁ := (EStateM.Result.ok.inj (hrun₁.symm.trans hgdt)).2
  obtain ⟨q₃, hrun₃, htables⟩ := idtInit_spec isrTable hk (hloaded.leaves h₁)
  obtain rfl : q₃ = p₃ := (EStateM.Result.ok.inj (hrun₃.symm.trans hidt)).2
  exact htables.leaves h₂

/-- Every vector finds its stub, from whatever code it interrupts: in the order of `kernel_main`,
with code between that leaves alone what the processor reads. -/
theorem interrupt_enters {k : TableVars} (hk : k.Placed) (isrTable : Byte → Word)
    (p₀ : Processor) : ∃ p₁, gdtInit k p₀ = .ok () p₁ ∧
      ∀ p₂, LeavesTables k p₁ p₂ → ∃ p₃, idtInit k isrTable p₂ = .ok () p₃ ∧
        ∀ p, LeavesTables k p₃ p → ∀ vec error,
          ∃ q, p.deliver vec error = some q ∧ Entered k isrTable vec error p q := by
  obtain ⟨p₁, hgdt, hloaded⟩ := gdtInit_spec hk p₀
  refine ⟨p₁, hgdt, fun p₂ hl => ?_⟩
  obtain ⟨p₃, hidt, htables⟩ := idtInit_spec isrTable hk (hloaded.leaves hl)
  exact ⟨p₃, hidt, fun p hp vec error => (htables.leaves hp).enters vec error⟩

def kernelVars : TableVars where
  gdt := 0x10A000
  gdtPtr := 0x10A020
  tss := 0x10A040
  gpStack := 0x10B000
  dfStack := 0x10C000
  pfStack := 0x10D000
  idt := 0x10E000
  idtr := 0x10F000

/-- In long mode, before `GDT_init`. -/
def longModeProcessor : Processor :=
  ⟨⟨fun _ => 0, fun _ => 0⟩, 0, gdtOffsetKernelCode, 0, 0x2, ⟨0, 0⟩, ⟨0, 0⟩, ⟨0, 0, 0⟩⟩

theorem kernelVars_placed : kernelVars.Placed where
  gdt := by decide
  gdt_tss := span_disjoint (by decide) (by decide)
  idt := Set.disjoint_union_right.mpr ⟨(span_disjoint (by decide) (by decide)).symm,
    (span_disjoint (by decide) (by decide)).symm⟩
  gdtPtr := Set.disjoint_union_right.mpr ⟨(span_disjoint (by decide) (by decide)).symm,
    span_disjoint (by decide) (by decide)⟩
  idtr := Set.disjoint_union_right.mpr ⟨Set.disjoint_union_right.mpr
    ⟨(span_disjoint (by decide) (by decide)).symm, (span_disjoint (by decide) (by decide)).symm⟩,
    (span_disjoint (by decide) (by decide)).symm⟩

/-- Stubs of 16 bytes. -/
def stubTable (vec : Byte) : Word := 0x110000 + 16 * vec.setWidth 64

theorem interrupt_enters_kernel : ∃ p₁, gdtInit kernelVars longModeProcessor = .ok () p₁ ∧
    ∀ p₂, LeavesTables kernelVars p₁ p₂ → ∃ p₃, idtInit kernelVars stubTable p₂ = .ok () p₃ ∧
      ∀ p, LeavesTables kernelVars p₃ p → ∀ vec error,
        ∃ q, p.deliver vec error = some q ∧ Entered kernelVars stubTable vec error p q :=
  interrupt_enters kernelVars_placed stubTable longModeProcessor

/-- Called with this stack pointer, a handler leaves alone what `iretq` reads besides what its
stub pops. -/
structure KeepsReturn (k : TableVars) (helper : Cpu → Cpu) (rsp : Word) : Prop where
  abi : FollowsAbi helper
  frame : ∀ s, s.regs .rsp = rsp → Set.EqOn (helper s).mem s.mem (span (rsp + 80) 40)
  gdt : ∀ s, s.regs .rsp = rsp → Set.EqOn (helper s).mem s.mem (span k.gdt 32)

/-- The processor pushes an error code for the vectors whose stubs expect one. -/
def errorFor (vec : Byte) (e : Word) : Option Word := if vec ∈ errorIsrs then some e else none

variable {helper : Cpu → Cpu} {base : Word} {s : Cpu} {l : List Word} {g : Reg → Word}

/-- What lies above the saved registers is there again when the stub returns. -/
theorem CpuRep.stub_eqOn {rdi : Word} (h : CpuRep base s ⟨s.regs, l⟩)
    (hsave : ListCpu.runAll (savingOps vec) ⟨s.regs, l⟩ =
      some ⟨g, savedFrame s.regs (s.regs .rsi) rdi⟩)
    (hkeep : KeepsReturn k helper (base - 80))
    (hgdt : Disjoint (span k.gdt 32) (span (base - 128) 128))
    (ret : Word) :
    Set.EqOn (isrReturn helper ret vec s).mem s.mem (span base 40 ∪ span k.gdt 32) := by
  have hcall : CpuRep base (atCall vec s) ⟨g, savedFrame s.regs (s.regs .rsi) rdi⟩ :=
    h.runAll hsave
  have hlen : (savedFrame s.regs (s.regs .rsi) rdi).length = 9 := rfl
  have hshort : (savedFrame s.regs (s.regs .rsi) rdi).length < 16 := Nat.lt_of_le_of_lt hlen.le
    (by decide)
  obtain ⟨hafter, -⟩ := hcall.call ret hkeep.abi hlen
  obtain ⟨c, hc, -⟩ := restoringOps_savedFrame (helper ((atCall vec s).push ret)).regs s.regs
    (s.regs .rsi) rdi
  have hrsp : ((atCall vec s).push ret).regs .rsp = base - 80 := by
    have hten : ((atCall vec s).push ret).regs .rsp + 80 = base :=
      (hcall.push (v := ret) hshort).base
    bv_omega
  have hback : base - 80 + 80 = base := by bv_omega
  intro b hb
  have hout : b ∉ span (base - 128) 128 := by
    rcases hb with hb | hb
    · intro hc
      rw [mem_span] at hb hc
      bv_omega
    · exact Set.disjoint_left.mp hgdt hb
  have hhelper : (helper ((atCall vec s).push ret)).mem b = ((atCall vec s).push ret).mem b := by
    rcases hb with hb | hb
    · exact hkeep.frame _ hrsp (hback.symm ▸ hb)
    · exact hkeep.gdt _ hrsp hb
  have hpops := hafter.runAll_eqOn hc hout
  have hret := hcall.push_eqOn (n := 16) hshort (Nat.le_refl 16) ret hout
  exact hpops.trans (hhelper.trans (hret.trans (h.runAll_eqOn hsave hout)))

theorem iretq_of_frame {t : Processor} (hframe : At p.cpu.mem (p.cpu.regs .rsp) (interruptFrame t))
    (hgdtr : p.gdtr = ⟨31, k.gdt⟩)
    (hcode : decodeUsrDesc (p.cpu.mem.load64 (k.gdt + 8)) = ⟨kcodeDescAccess, 0b0010⟩)
    (hcs : t.cs = gdtOffsetKernelCode) (hss : t.ss = 0) :
    p.iretq = some { p with
      cpu := p.cpu.set .rsp (t.cpu.regs .rsp)
      rip := t.rip
      cs := t.cs
      rflags := t.rflags
      ss := t.ss } := by
  have hword (i : Nat) (v : Word) (h : (interruptFrame t)[i]? = some v) : p.stackWord i = v :=
    hframe.load h
  have hnarrow (v : BitVec 16) : (v.setWidth 64).setWidth 16 = v := by
    rw [BitVec.setWidth_setWidth_of_le _ (by decide), BitVec.setWidth_eq]
  have hload : p.LoadsCode gdtOffsetKernelCode := loadsCode_of_code hgdtr hcode
  have hpriv : gdtOffsetKernelCode &&& 3 = 0 := by decide
  rw [Processor.iretq, hword 0 _ rfl, hword 1 _ rfl, hword 2 _ rfl, hword 3 _ rfl, hword 4 _ rfl,
    hnarrow, hnarrow, if_pos ⟨hcs.symm ▸ hload, hcs.symm ▸ hpriv, hss⟩]

theorem calleeSaved_ne : ∀ r ∈ calleeSaved, r ≠ .rdi ∧ r ≠ .rsi ∧ r ≠ .rax := by decide

/-- The registers at the call, and the processor at `iretq`. -/
structure StubDone (k : TableVars) (vec : Byte) (rdi : Word) (p : Processor) (s : Cpu)
    (call ret : Cpu) : Prop where
  call_rsp : call.regs .rsp = frameTop k p vec - 112
  call_rdi : call.regs .rdi = vec.setWidth 64
  rsp : ret.regs .rsp = frameTop k p vec - 40
  rdi : ret.regs .rdi = rdi
  regs : ∀ r, r ≠ .rsp → r ≠ .rdi → ret.regs r = s.regs r
  frame : At ret.mem (frameTop k p vec - 40) (interruptFrame p)
  gdt : Set.EqOn ret.mem s.mem (span k.gdt 32)

theorem CpuRep.stubDone {rdi : Word} (h : CpuRep (frameTop k p vec - 40) s ⟨s.regs, l⟩)
    (hframe : At s.mem (frameTop k p vec - 40) (interruptFrame p))
    (hsave : ListCpu.runAll (savingOps vec) ⟨s.regs, l⟩ =
      some ⟨g, savedFrame s.regs (s.regs .rsi) rdi⟩)
    (hg : ∀ r ∈ calleeSaved, g r = s.regs r) (hvec : g .rdi = vec.setWidth 64)
    (hkeep : KeepsReturn k helper (frameTop k p vec - 120))
    (hroom : Disjoint k.tables (span (frameTop k p vec - 168) 168)) (ret : Word) :
    StubDone k vec rdi p s (atCall vec s) (isrReturn helper ret vec s) := by
  have hbelow : frameTop k p vec - 40 - 128 = frameTop k p vec - 168 := by bv_omega
  have hgdt : Disjoint (span k.gdt 32) (span (frameTop k p vec - 40 - 128) 128) := by
    rw [hbelow]
    exact hroom.mono (fun _ hb => Or.inl (Or.inl hb)) (span_mono (by decide))
  have hcall : CpuRep (frameTop k p vec - 40) (atCall vec s)
      ⟨g, savedFrame s.regs (s.regs .rsi) rdi⟩ := h.runAll hsave
  have hnine : (atCall vec s).regs .rsp + 72 = frameTop k p vec - 40 := hcall.base
  obtain ⟨hregs, hrsp, hrdi, hrest⟩ := h.stub ret hkeep.abi hsave hg
  have hentry : frameTop k p vec - 40 - 80 = frameTop k p vec - 120 := by bv_omega
  have hmem := h.stub_eqOn hsave (hentry.symm ▸ hkeep) hgdt ret
  refine ⟨by bv_omega, (hregs .rdi (by decide)).trans hvec, hrsp, hrdi, hrest, ?_, ?_⟩
  · exact hframe.congr (show 8 * 5 < 2 ^ 64 by decide) (hmem.mono fun _ hb => Or.inl hb)
  · exact hmem.mono fun _ hb => Or.inr hb

theorem Entered.stubDone {e : Word} (h : Entered k isrTable vec (errorFor vec e) p q)
    (hkeep : KeepsReturn k helper (frameTop k p vec - 120))
    (hroom : Disjoint k.tables (span (frameTop k p vec - 168) 168)) (ret : Word) :
    StubDone k vec (if vec ∈ errorIsrs then e else q.cpu.regs .rdi) p q.cpu (atCall vec q.cpu)
      (isrReturn helper ret vec q.cpu) := by
  have hrsp := h.rsp
  have hframe := h.frame
  by_cases hvec : vec ∈ errorIsrs
  · rw [errorFor, if_pos hvec] at hrsp hframe
    obtain ⟨he, hframe⟩ := hframe.pop
    have hsix : q.cpu.regs .rsp + 48 = frameTop k p vec := hrsp
    have hbase : q.cpu.regs .rsp + 8 = frameTop k p vec - 40 := by bv_omega
    have hsave := savingOps_of_mem q.cpu.regs (errorCode q.cpu) hvec
    have hrep := CpuRep.entry_error q.cpu
    rw [if_pos hvec, ← he]
    rw [hbase] at hrep hframe
    refine hrep.stubDone hframe hsave (fun r hr => ?_) rfl hkeep hroom ret
    obtain ⟨h₁, h₂, h₃⟩ := calleeSaved_ne r hr
    simp [ListCpu.set, h₁, h₂, h₃]
  · rw [errorFor, if_neg hvec] at hrsp hframe
    have hfive : q.cpu.regs .rsp + 40 = frameTop k p vec := hrsp
    have hbase : q.cpu.regs .rsp = frameTop k p vec - 40 := by bv_omega
    have hsave := savingOps_of_not_mem q.cpu.regs hvec
    have hrep := CpuRep.entry q.cpu
    rw [if_neg hvec]
    rw [hbase] at hrep
    refine hrep.stubDone (hbase ▸ hframe) hsave (fun r hr => ?_) rfl hkeep hroom ret
    simp [ListCpu.set, (calleeSaved_ne r hr).1]

theorem frameTop_aligned (k : TableVars) (p : Processor) (vec : Byte) :
    (frameTop k p vec - 112) &&& 0xF = 0 := by
  have hzero : frameTop k p vec &&& 0xF = 0 := by
    rw [frameTop, BitVec.and_assoc]
    exact BitVec.and_zero
  have hmod (x : Word) : (x &&& 0xF).toNat = x.toNat % 16 :=
    (BitVec.toNat_and x 0xF).trans (Nat.and_two_pow_sub_one_eq_mod x.toNat 4)
  have htop : (frameTop k p vec).toNat % 16 = 0 := by rw [← hmod, hzero]; rfl
  apply BitVec.eq_of_toNat_eq
  rw [hmod]
  bv_omega

/-- Through the descriptors, the gate, the stub and `iretq` back to the interrupted code: but for
memory and an error code in `rdi` the processor is as before. The handler is called on an aligned
stack. -/
theorem interrupt_returns {k : TableVars} {isrTable : Byte → Word} {p : Processor}
    {helper : Cpu → Cpu} {vec : Byte} (hk : k.Placed) (hready : InterruptsReady k isrTable p)
    (hkeep : KeepsReturn k helper (frameTop k p vec - 120)) (hcs : p.cs = gdtOffsetKernelCode)
    (hss : p.ss = 0)
    (hroom : Disjoint k.tables (span (frameTop k p vec - 168) 168)) (e ret : Word) :
    ∃ q t error m, p.deliver vec (errorFor vec e) = some q ∧ q.rip = isrTable vec ∧
      execIsr helper ret stubFuel (isrEntry vec) ⟨q.cpu, []⟩ = some ⟨t, [(vec, error)]⟩ ∧
      (atCall vec q.cpu).regs .rsp &&& 0xF = 0 ∧
      { q with cpu := t }.iretq = some { p with
        cpu := ⟨fun r => if vec ∈ errorIsrs ∧ r = .rdi then e else p.cpu.regs r, m⟩ } := by
  have hloaded := hready.tablesLoaded hk
  let q : Processor := { p with
    cpu := p.pushFrame (stackFor k p vec) (errorFor vec e)
    rip := isrTable vec
    cs := gdtOffsetKernelCode
    rflags := p.rflags &&& ~~~interruptFlags }
  have hdeliver : p.deliver vec (errorFor vec e) = some q := hloaded.deliver vec _
  obtain ⟨q', hq', hentered⟩ := hloaded.enters vec (errorFor vec e)
  obtain rfl : q' = q := Option.some.inj (hq'.symm.trans hdeliver)
  have hstub := hentered.stubDone hkeep hroom ret
  let t := isrReturn helper ret vec q.cpu
  have hvec : ((atCall vec q.cpu).regs .rdi).setWidth 8 = vec := by
    rw [hstub.call_rdi, BitVec.setWidth_setWidth_of_le _ (by decide), BitVec.setWidth_eq]
  have haligned : (atCall vec q.cpu).regs .rsp &&& 0xF = 0 := by
    rw [hstub.call_rsp]
    exact frameTop_aligned k p vec
  have hcode : decodeUsrDesc (t.mem.load64 (k.gdt + 8)) = ⟨kcodeDescAccess, 0b0010⟩ := by
    have hstack : span (frameTop k p vec - 48) 48 ⊆ span (frameTop k p vec - 168) 168 := by
      intro b hb
      rw [mem_span] at hb ⊢
      bv_omega
    have hkept : Set.EqOn t.mem p.cpu.mem (span (k.gdt + 8) 8) := fun b hb => by
      have hgdt : b ∈ span k.gdt 32 := span_offset_subset (by decide) hb
      have hout : b ∉ span (frameTop k p vec - 48) 48 := fun hc =>
        Set.disjoint_left.mp hroom (Or.inl (Or.inl hgdt)) (hstack hc)
      exact (hstub.gdt hgdt).trans (hentered.mem hout)
    rw [load64_congr hkept]
    exact hloaded.code
  have hframe : At t.mem (t.regs .rsp) (interruptFrame p) := hstub.rsp.symm ▸ hstub.frame
  have hiretq := iretq_of_frame (p := { q with cpu := t }) (t := p) hframe hloaded.gdtr hcode hcs
    hss
  refine ⟨q, t, ((atCall vec q.cpu).regs .rsi).setWidth 32, t.mem, hdeliver, rfl, ?_, haligned,
    hiretq.trans ?_⟩
  · rw [execIsr_entry, hvec]
  · have hregs : (t.set .rsp (p.cpu.regs .rsp)).regs = fun r =>
        if vec ∈ errorIsrs ∧ r = .rdi then e else p.cpu.regs r := by
      funext r
      by_cases hsp : r = .rsp
      · subst hsp
        rw [Cpu.set_regs_self, if_neg (by simp)]
      · rw [Cpu.set_regs_ne hsp]
        by_cases hdi : r = .rdi
        · subst hdi
          have hrdi : t.regs .rdi = if vec ∈ errorIsrs then e else q.cpu.regs .rdi := hstub.rdi
          rw [hrdi, hentered.regs .rdi hsp]
          exact if_congr (and_iff_left rfl).symm rfl rfl
        · rw [if_neg fun h => hdi h.2]
          exact (hstub.regs r hsp hdi).trans (hentered.regs r hsp)
    have hcpu : t.set .rsp (p.cpu.regs .rsp) = ⟨_, t.mem⟩ := congrArg (Cpu.mk · t.mem) hregs
    rw [hcpu]

/-- A key is pressed while the kernel runs on a stack of its own. -/
theorem interrupt_returns_keyboard : ∃ p q t error m, InterruptsReady kernelVars stubTable p ∧
    p.deliver 0x21 (errorFor 0x21 0) = some q ∧ q.rip = stubTable 0x21 ∧
      execIsr spoilingHelper 0x100000 stubFuel (isrEntry 0x21) ⟨q.cpu, []⟩ =
        some ⟨t, [(0x21, error)]⟩ ∧
      (atCall 0x21 q.cpu).regs .rsp &&& 0xF = 0 ∧
      { q with cpu := t }.iretq = some { p with
        cpu := ⟨fun r => if 0x21 ∈ errorIsrs ∧ r = .rdi then 0 else p.cpu.regs r, m⟩ } := by
  obtain ⟨p₁, hgdt, hloaded⟩ := gdtInit_spec kernelVars_placed longModeProcessor
  obtain ⟨p₃, hidt, -⟩ := idtInit_spec stubTable kernelVars_placed hloaded
  let p : Processor := { p₃ with
    cpu := p₃.cpu.set .rsp 0x200000
    cs := gdtOffsetKernelCode
    ss := 0 }
  have hready : InterruptsReady kernelVars stubTable p :=
    ⟨_, p₁, p₁, p₃, hgdt, ⟨rfl, rfl, rfl, fun _ _ => rfl⟩, hidt, ⟨rfl, rfl, rfl, fun _ _ => rfl⟩⟩
  have htop : frameTop kernelVars p 0x21 = 0x200000 := by
    have hsp : p.cpu.regs .rsp = 0x200000 := Cpu.set_regs_self .rsp 0x200000 p₃.cpu
    rw [frameTop, stackFor, if_neg (by decide), if_neg (by decide), if_neg (by decide), hsp]
    decide
  have hroom : Disjoint kernelVars.tables (span (frameTop kernelVars p 0x21 - 168) 168) := by
    rw [htop]
    exact Set.disjoint_union_left.mpr ⟨Set.disjoint_union_left.mpr
      ⟨span_disjoint (by decide) (by decide), span_disjoint (by decide) (by decide)⟩,
      span_disjoint (by decide) (by decide)⟩
  have hkeep : KeepsReturn kernelVars spoilingHelper (frameTop kernelVars p 0x21 - 120) := by
    rw [htop]
    have hstore (s : Cpu) (h : s.regs .rsp = 0x200000 - 120) :
        Set.EqOn (spoilingHelper s).mem s.mem (span (0x200000 - 120 - 8 : Word) 8)ᶜ := by
      rw [← h]
      exact store64_eqOn_compl _ _ _
    refine ⟨spoilingHelper_followsAbi, fun s h => (hstore s h).mono ?_,
      fun s h => (hstore s h).mono ?_⟩
    · exact Set.subset_compl_iff_disjoint_left.mpr (span_disjoint (by decide) (by decide))
    · exact Set.subset_compl_iff_disjoint_right.mpr (span_disjoint (by decide) (by decide))
  obtain ⟨q, t, error, m, hall⟩ := interrupt_returns kernelVars_placed hready hkeep rfl rfl hroom 0
    0x100000
  exact ⟨p, q, t, error, m, hready, hall⟩

end SkipOS
