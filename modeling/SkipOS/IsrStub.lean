import SkipOS.Isr

/-! The stubs on a processor whose stack is a list, and what they restore. The word
`isr_error` takes for the error code is the saved `rdi`. -/

namespace SkipOS

open Mem Stack

/-- Registers other than `rsp`, and the stack of the stub with its top first. -/
structure ListCpu where
  regs : Reg → Word
  stack : List Word

namespace ListCpu

def set (r : Reg) (v : Word) (a : ListCpu) : ListCpu :=
  { a with regs := fun x => if x = r then v else a.regs x }

/-- One instruction; `none` where `rsp` is an operand or the stack is too short or too long. -/
def run : Op → ListCpu → Option ListCpu
  | .push r, a =>
    if r ≠ .rsp ∧ a.stack.length < 16 then some { a with stack := a.regs r :: a.stack } else none
  | .pop r, a =>
    match a.stack with
    | [] => none
    | v :: l => if r ≠ .rsp then some (set r v ⟨a.regs, l⟩) else none
  | .movImm r v, a => if r ≠ .rsp then some (a.set r v) else none
  | .movLoad r off, a =>
    match a.stack[off.toNat / 8]? with
    | none => none
    | some v => if r ≠ .rsp ∧ off.toNat % 8 = 0 then some (a.set r v) else none
  | .movStore off r, a =>
    if r ≠ .rsp ∧ off.toNat % 8 = 0 ∧ off.toNat / 8 < a.stack.length then
      some { a with stack := a.stack.set (off.toNat / 8) (a.regs r) }
    else none

def runAll : List Op → ListCpu → Option ListCpu
  | [], a => some a
  | o :: os, a => (run o a).bind (runAll os)

end ListCpu

/-- `s` is the processor `a` with its stack in memory, ending below `base`. -/
structure CpuRep (base : Word) (s : Cpu) (a : ListCpu) : Prop where
  regs : ∀ r, r ≠ .rsp → s.regs r = a.regs r
  stack : At s.mem (s.regs .rsp) a.stack
  base : s.regs .rsp + BitVec.ofNat 64 (8 * a.stack.length) = base
  short : a.stack.length ≤ 16

variable {base : Word} {s : Cpu} {a b : ListCpu} {o : Op}

@[simp] theorem Cpu.set_regs_self (r : Reg) (v : Word) (s : Cpu) : (s.set r v).regs r = v := by
  simp [Cpu.set]

theorem Cpu.set_regs_ne {r x : Reg} (h : x ≠ r) (v : Word) (s : Cpu) :
    (s.set r v).regs x = s.regs x := by
  simp [Cpu.set, h]

@[simp] theorem Cpu.set_mem (r : Reg) (v : Word) (s : Cpu) : (s.set r v).mem = s.mem := rfl

theorem CpuRep.push (h : CpuRep base s a) {v : Word} (hl : a.stack.length < 16) :
    CpuRep base (s.push v) { a with stack := v :: a.stack } := by
  have hrsp : (s.push v).regs .rsp = s.regs .rsp - 8 := by simp [Cpu.push]
  have hmem : (s.push v).mem = s.mem.store64 (s.regs .rsp - 8) v := by simp [Cpu.push]
  refine ⟨fun r hr => ?_, ?_, ?_, ?_⟩
  · simp [Cpu.push, Cpu.set_regs_ne hr, h.regs r hr]
  · rw [hrsp, hmem]
    exact h.stack.push (by omega)
  · rw [hrsp, ← h.base]
    simp only [List.length_cons]
    bv_omega
  · simp only [List.length_cons]
    omega

theorem CpuRep.set (h : CpuRep base s a) {r : Reg} (hr : r ≠ .rsp) (v : Word) :
    CpuRep base (s.set r v) (a.set r v) := by
  have hrsp : (s.set r v).regs .rsp = s.regs .rsp := Cpu.set_regs_ne (fun he => hr he.symm) _ _
  refine ⟨fun x hx => ?_, ?_, ?_, h.short⟩
  · by_cases hxr : x = r
    · simp [hxr, ListCpu.set]
    · rw [Cpu.set_regs_ne hxr, h.regs x hx]
      simp [ListCpu.set, hxr]
  · rw [hrsp]
    exact h.stack
  · rw [hrsp]
    exact h.base

theorem CpuRep.pop {v : Word} {l : List Word} (h : CpuRep base s ⟨a.regs, v :: l⟩) :
    s.mem.load64 (s.regs .rsp) = v ∧ CpuRep base (s.set .rsp (s.regs .rsp + 8)) ⟨a.regs, l⟩ := by
  obtain ⟨hv, hl⟩ := h.stack.pop
  have hb := h.base
  have hs := h.short
  simp only [List.length_cons] at hb hs
  refine ⟨hv, ⟨fun x hx => ?_, ?_, ?_, by simpa using by omega⟩⟩
  · rw [Cpu.set_regs_ne hx]
    exact h.regs x hx
  · rw [Cpu.set_regs_self]
    exact hl
  · rw [Cpu.set_regs_self, ← hb]
    bv_omega

/-- The processor follows the list one instruction at a time. -/
theorem CpuRep.run (h : CpuRep base s a) (hr : ListCpu.run o a = some b) :
    CpuRep base (o.run s) b := by
  have hoff : ∀ off : Word, off.toNat % 8 = 0 → BitVec.ofNat 64 (8 * (off.toNat / 8)) = off := by
    intro off hd
    bv_omega
  cases o with
  | push r =>
    simp only [ListCpu.run, Option.ite_none_right_eq_some, Option.some.injEq] at hr
    obtain ⟨⟨hne, hl⟩, rfl⟩ := hr
    rw [← h.regs r hne]
    exact h.push hl
  | pop r =>
    obtain ⟨g, st⟩ := a
    cases st with
    | nil => simp [ListCpu.run] at hr
    | cons v l =>
      simp only [ListCpu.run, Option.ite_none_right_eq_some, Option.some.injEq] at hr
      obtain ⟨hne, rfl⟩ := hr
      obtain ⟨hv, hrep⟩ := CpuRep.pop (a := ⟨g, l⟩) h
      rw [Op.run, hv]
      exact hrep.set hne v
  | movImm r v =>
    simp only [ListCpu.run, Option.ite_none_right_eq_some, Option.some.injEq] at hr
    obtain ⟨hne, rfl⟩ := hr
    exact h.set hne v
  | movLoad r off =>
    cases hv : a.stack[off.toNat / 8]? with
    | none => simp [ListCpu.run, hv] at hr
    | some v =>
      simp only [ListCpu.run, hv, Option.ite_none_right_eq_some, Option.some.injEq] at hr
      obtain ⟨⟨hne, hd⟩, rfl⟩ := hr
      have hload := h.stack.load hv
      rw [hoff off hd] at hload
      rw [Op.run, hload]
      exact h.set hne v
  | movStore off r =>
    simp only [ListCpu.run, Option.ite_none_right_eq_some, Option.some.injEq] at hr
    obtain ⟨⟨hne, hd, hi⟩, rfl⟩ := hr
    have hst := h.stack.store (v := s.regs r) (i := off.toNat / 8)
      (by have := h.short; omega) hi
    rw [hoff off hd, h.regs r hne] at hst
    refine ⟨h.regs, ?_, ?_, ?_⟩
    · simp only [Op.run, h.regs r hne]
      exact hst
    · simpa [Op.run] using h.base
    · simpa using h.short

theorem CpuRep.runAll {os : List Op} (h : CpuRep base s a) (hr : ListCpu.runAll os a = some b) :
    CpuRep base (os.foldl (fun s o => o.run s) s) b := by
  induction os generalizing s a with
  | nil =>
    simp only [ListCpu.runAll, Option.some.injEq] at hr
    exact hr ▸ h
  | cons o os ih =>
    obtain ⟨c, hc, hb⟩ := Option.bind_eq_some_iff.mp hr
    exact ih (h.run hc) hb

/-- The instructions of stub `n` before the call, without the jumps. -/
def savingOps (n : BitVec 8) : List Op :=
  [.push .rdi, .movImm .rdi (n.setWidth 64)] ++
    (if n ∈ errorIsrs then
      [.push .rax, .push .rsi, .movLoad .rsi 16, .pop .rax, .movStore 8 .rax]
    else [.push .rsi, .push .rax]) ++
    [.push .rcx, .push .rdx, .push .r8, .push .r9, .push .r10, .push .r11]

def restoringOps : List Op :=
  [.pop .r11, .pop .r10, .pop .r9, .pop .r8, .pop .rdx, .pop .rcx, .pop .rax, .pop .rsi, .pop .rdi]

variable {helper : Cpu → Cpu} {ret : Word} {n : BitVec 8}

/-- The processor at the call of `isr_helper`. -/
def atCall (n : BitVec 8) (s : Cpu) : Cpu := (savingOps n).foldl (fun s o => o.run s) s

/-- The processor at `iretq`. -/
def isrReturn (helper : Cpu → Cpu) (ret : Word) (n : BitVec 8) (s : Cpu) : Cpu :=
  restoringOps.foldl (fun s o => o.run s) (helper ((atCall n s).push ret))

theorem execIsr_entry (helper : Cpu → Cpu) (ret : Word) (n : BitVec 8) (s : Cpu) :
    execIsr helper ret stubFuel (isrEntry n) ⟨s, []⟩ =
      some ⟨isrReturn helper ret n s,
        [(((atCall n s).regs .rdi).setWidth 8, ((atCall n s).regs .rsi).setWidth 32)]⟩ := by
  by_cases h : n ∈ errorIsrs <;>
    simp only [isrEntry, isrReturn, atCall, savingOps, restoringOps, h, if_true, if_false, stubFuel, execIsr,
      isrCommon, List.cons_append, List.nil_append, List.foldl_cons, List.foldl_nil]

theorem IsrTransparent.iff : IsrTransparent helper ret n s ↔
    (∀ r, r ≠ .rsp → (isrReturn helper ret n s).regs r = s.regs r) ∧
    (isrReturn helper ret n s).regs .rsp = ripSlot n s ∧
    ((atCall n s).regs .rdi).setWidth 8 = n ∧
    (n ∈ errorIsrs → ((atCall n s).regs .rsi).setWidth 32 = (errorCode s).setWidth 32) := by
  simp only [IsrTransparent, execIsr_entry, Option.some.injEq, exists_eq_left']
  constructor
  · rintro ⟨hr, hs, error, hc, he⟩
    simp only [List.cons.injEq, Prod.mk.injEq, and_true] at hc
    exact ⟨hr, hs, hc.1, fun hn => hc.2.trans (he hn)⟩
  · rintro ⟨hr, hs, hn, he⟩
    exact ⟨hr, hs, _, by rw [hn], he⟩

theorem CpuRep.call (h : CpuRep base s a) (ret : Word) (habi : FollowsAbi helper) (hl : a.stack.length = 9) :
    CpuRep base (helper (s.push ret)) ⟨(helper (s.push ret)).regs, a.stack⟩ ∧
      ∀ r ∈ calleeSaved, (helper (s.push ret)).regs r = s.regs r := by
  have hp := h.push (v := ret) (by omega)
  have hrsp : (s.push ret).regs .rsp + 8 = s.regs .rsp := by
    have he : (s.push ret).regs .rsp = s.regs .rsp - 8 := by simp [Cpu.push]
    rw [he]
    bv_omega
  obtain ⟨-, hstack⟩ := hp.stack.pop
  have hmem := habi.stack (s.push ret)
  have hsp := habi.rsp (s.push ret)
  rw [hrsp] at hstack hmem hsp
  refine ⟨⟨fun _ _ => rfl, ?_, ?_, h.short⟩, ?_⟩
  · rw [hsp]
    refine hstack.congr (by omega) ?_
    rw [hl]
    exact hmem
  · rw [hsp]
    exact h.base
  · intro r hr
    have hne : r ≠ .rsp := by
      rintro rfl
      simp [calleeSaved] at hr
    rw [habi.saved _ r hr, hp.regs r hne, ← h.regs r hne]

/-- The frame `isr_general` leaves above the return address. -/
def savedFrame (g : Reg → Word) (rsi rdi : Word) : List Word :=
  [g .r11, g .r10, g .r9, g .r8, g .rdx, g .rcx, g .rax, rsi, rdi]

theorem savingOps_of_not_mem (g : Reg → Word) (h : n ∉ errorIsrs) :
    ListCpu.runAll (savingOps n) ⟨g, []⟩ =
      some ⟨(ListCpu.set .rdi (n.setWidth 64) ⟨g, []⟩).regs, savedFrame g (g .rsi) (g .rdi)⟩ := by
  simp only [savingOps, h, if_false, List.cons_append, List.nil_append]
  rfl

/-- `[rsp + 16]` is the saved `rdi`, and the slot that takes `rsi` held `rdi`. -/
theorem savingOps_of_mem (g : Reg → Word) (e : Word) (h : n ∈ errorIsrs) :
    ListCpu.runAll (savingOps n) ⟨g, [e]⟩ =
      some ⟨(((ListCpu.set .rdi (n.setWidth 64) ⟨g, []⟩).set .rsi (g .rdi)).set .rax (g .rsi)).regs,
        savedFrame g (g .rsi) e⟩ := by
  simp only [savingOps, h, if_true, List.cons_append, List.nil_append]
  rfl

theorem restoringOps_savedFrame (k g : Reg → Word) (rsi rdi : Word) :
    ∃ c : ListCpu, ListCpu.runAll restoringOps ⟨k, savedFrame g rsi rdi⟩ = some c ∧ c.stack = [] ∧
      c.regs .rsi = rsi ∧ c.regs .rdi = rdi ∧ (∀ r ∈ calleeSaved, c.regs r = k r) ∧
      ∀ r, r ∉ calleeSaved → r ≠ .rsp → r ≠ .rsi → r ≠ .rdi → c.regs r = g r := by
  refine ⟨⟨fun r => if r = .rsp ∨ r ∈ calleeSaved then k r else if r = .rsi then rsi
    else if r = .rdi then rdi else g r, []⟩, ?_, rfl, rfl, rfl, ?_, ?_⟩
  · simp only [restoringOps, savedFrame, ListCpu.runAll, ListCpu.run, ListCpu.set]
    refine congrArg some (congrArg (ListCpu.mk · []) (funext fun r => ?_))
    cases r <;> rfl
  · intro r hr
    simp only [hr, or_true, if_true]
  · intro r hr hsp hrsi hrdi
    simp only [hr, hsp, hrsi, hrdi, or_self, if_false]

/-- One pass through stub `n`, whose saved `rdi` is `rdi` when `isr_general` pops it. -/
theorem CpuRep.stub {l : List Word} {k : Reg → Word} {rdi : Word}
    (h : CpuRep base s ⟨s.regs, l⟩) (ret : Word) (habi : FollowsAbi helper)
    (hsave : ListCpu.runAll (savingOps n) ⟨s.regs, l⟩ =
      some ⟨k, savedFrame s.regs (s.regs .rsi) rdi⟩)
    (hk : ∀ r ∈ calleeSaved, k r = s.regs r) :
    (∀ r, r ≠ .rsp → (atCall n s).regs r = k r) ∧
      (isrReturn helper ret n s).regs .rsp = base ∧ (isrReturn helper ret n s).regs .rdi = rdi ∧
      ∀ r, r ≠ .rsp → r ≠ .rdi → (isrReturn helper ret n s).regs r = s.regs r := by
  have hcall : CpuRep base (atCall n s) ⟨k, savedFrame s.regs (s.regs .rsi) rdi⟩ :=
    h.runAll hsave
  obtain ⟨hafter, hcallee⟩ := hcall.call ret habi rfl
  obtain ⟨c, hc, hstack, hrsi, hrdi, hkeep, hothers⟩ := restoringOps_savedFrame
    (helper ((atCall n s).push ret)).regs s.regs (s.regs .rsi) rdi
  have hret : CpuRep base (isrReturn helper ret n s) c := hafter.runAll hc
  refine ⟨hcall.regs, ?_, ?_, ?_⟩
  · have hb := hret.base
    rw [hstack] at hb
    simpa using hb
  · exact (hret.regs .rdi (by decide)).trans hrdi
  · intro r hsp hne
    refine (hret.regs r hsp).trans ?_
    by_cases hr : r ∈ calleeSaved
    · rw [hkeep r hr, hcallee r hr]
      exact (hcall.regs r hsp).trans (hk r hr)
    · by_cases hsi : r = .rsi
      · rw [hsi, hrsi]
      · exact hothers r hr hsp hsi hne

theorem CpuRep.entry (s : Cpu) : CpuRep (s.regs .rsp) s ⟨s.regs, []⟩ :=
  ⟨fun _ _ => rfl, fun i v hv => by simp at hv, by simp, by simp⟩

theorem CpuRep.entry_error (s : Cpu) :
    CpuRep (s.regs .rsp + 8) s ⟨s.regs, [errorCode s]⟩ := by
  refine ⟨fun _ _ => rfl, ?_, rfl, by simp⟩
  intro i v hv
  obtain ⟨hi, hv⟩ := List.getElem?_eq_some_iff.mp hv
  obtain rfl : i = 0 := by simpa using hi
  simpa [errorCode] using hv

/-- An interrupt without an error code leaves no trace; with one it leaves `rdi` equal to
the error code, and hands the interrupted `rdi` to `isr_helper` in its place. -/
theorem isr_transparent_iff (habi : FollowsAbi helper) :
    IsrTransparent helper ret n s ↔ (n ∈ errorIsrs → s.regs .rdi = errorCode s) := by
  rw [IsrTransparent.iff]
  by_cases hn : n ∈ errorIsrs
  · have hk : ∀ r ∈ calleeSaved, (((ListCpu.set .rdi (n.setWidth 64) ⟨s.regs, []⟩).set .rsi
        (s.regs .rdi)).set .rax (s.regs .rsi)).regs r = s.regs r := by
      intro r hr
      cases r <;> first | rfl | simp [calleeSaved] at hr
    obtain ⟨hregs, hrsp, hrdi, hrest⟩ := (CpuRep.entry_error s).stub ret habi
      (savingOps_of_mem s.regs (errorCode s) hn) hk
    have harg : (atCall n s).regs .rsi = s.regs .rdi := hregs .rsi (by decide)
    have hvec : (atCall n s).regs .rdi = n.setWidth 64 := hregs .rdi (by decide)
    constructor
    · rintro ⟨hall, -, -, -⟩ -
      rw [← hall .rdi (by decide), hrdi]
    · intro he
      refine ⟨fun r hr => ?_, by simpa [ripSlot, hn] using hrsp, by simp [hvec], fun _ => ?_⟩
      · by_cases hdi : r = .rdi
        · rw [hdi, hrdi, he hn]
        · exact hrest r hr hdi
      · rw [harg, he hn]
  · have hk : ∀ r ∈ calleeSaved, (ListCpu.set .rdi (n.setWidth 64) ⟨s.regs, []⟩).regs r =
        s.regs r := by
      intro r hr
      cases r <;> first | rfl | simp [calleeSaved] at hr
    obtain ⟨hregs, hrsp, hrdi, hrest⟩ := (CpuRep.entry s).stub ret habi
      (savingOps_of_not_mem s.regs hn) hk
    have hvec : (atCall n s).regs .rdi = n.setWidth 64 := hregs .rdi (by decide)
    refine ⟨fun _ he => absurd he hn, fun _ => ⟨fun r hr => ?_, ?_, ?_, fun he => absurd he hn⟩⟩
    · by_cases hdi : r = .rdi
      · rw [hdi, hrdi]
      · exact hrest r hr hdi
    · simpa [ripSlot, hn] using hrsp
    · simp [hvec]

/-- An `isr_helper` that spoils every caller-saved register and the word below its frame. -/
def spoilingHelper (s : Cpu) : Cpu where
  regs r := if r ∈ calleeSaved then s.regs r else if r = .rsp then s.regs .rsp + 8 else 0xdead
  mem := s.mem.store64 (s.regs .rsp - 8) 0xdead

theorem spoilingHelper_followsAbi : FollowsAbi spoilingHelper := by
  refine ⟨fun s r hr => if_pos hr, fun s => rfl, fun s => ?_⟩
  refine (store64_eqOn_compl _ _ _).mono ?_
  intro b hb hb'
  rw [mem_span] at hb hb'
  bv_omega

/-- A page fault on address 1 held in `rdi`, with the error code `e`. -/
def faultingCpu (e : Word) : Cpu where
  regs r := if r = .rdi then 1 else if r = .rsp then 0x1000 else 0
  mem := Mem.store64 (fun _ => 0) 0x1000 e

theorem isr_transparent_page_fault :
    (14 ∈ errorIsrs → (faultingCpu 1).regs .rdi = errorCode (faultingCpu 1)) ∧
      IsrTransparent spoilingHelper 0x2000 14 (faultingCpu 1) := by
  have he : 14 ∈ errorIsrs → (faultingCpu 1).regs .rdi = errorCode (faultingCpu 1) := by
    simp [faultingCpu, errorCode]
  exact ⟨he, (isr_transparent_iff spoilingHelper_followsAbi).mpr he⟩

theorem isr_not_transparent : ¬ ∀ helper, FollowsAbi helper →
    ∀ ret n s, IsrTransparent helper ret n s := by
  intro h
  have hregs := (IsrTransparent.iff.mp
    (h spoilingHelper spoilingHelper_followsAbi 0x2000 14 (faultingCpu 2))).1 .rdi (by decide)
  have hrdi : (isrReturn spoilingHelper 0x2000 14 (faultingCpu 2)).regs .rdi = 2 := by
    decide +kernel
  rw [hrdi] at hregs
  exact absurd hregs (by decide)

end SkipOS
