import SkipOS.PoolRun
import Mathlib.Data.List.Range

/-! The two entries of the memory map that `init_pool` works on. The scan counts usable
entries only; which of the two pointers each one sets depends on its base. -/

namespace SkipOS

open Mem Exec

namespace MmapInfo

/-- Where entry `i` of the memory map lies. -/
def entry (info : MmapInfo) (i : Nat) : Word :=
  info.memInfoEntryArr + sizeofMemInfoEntry * BitVec.ofNat 64 i

/-- The indices of the usable entries. -/
def usable (info : MmapInfo) (m : Mem) : List Nat :=
  (List.range info.numMemInfoEntries.toNat).filter fun i =>
    memInfoType m (info.entry i) = validMemInfoEntType

end MmapInfo

/-- Each pointer is set to the one usable entry on its side of base 0. -/
structure PointersSet (m : Mem) (info : MmapInfo) (ptrs : UsableMemInfoPtrs) : Prop where
  lower : ∃ i ∈ info.usable m, memInfoBase m (info.entry i) = 0 ∧
    ptrs.lower = some (info.entry i) ∧
    ∀ k ∈ info.usable m, memInfoBase m (info.entry k) = 0 → k = i
  upper : ∃ i ∈ info.usable m, memInfoBase m (info.entry i) ≠ 0 ∧
    ptrs.upper = some (info.entry i) ∧
    ∀ k ∈ info.usable m, memInfoBase m (info.entry k) ≠ 0 → k = i

/-- What one usable entry does to the count and the pointers. -/
def noteEntry (m : Mem) (info : MmapInfo) (x : Word × UsableMemInfoPtrs) (i : Nat) :
    Word × UsableMemInfoPtrs :=
  if memInfoBase m (info.entry i) = 0 then (x.1 + 1, { x.2 with lower := some (info.entry i) })
  else (x.1 + 1, { x.2 with upper := some (info.entry i) })

deriving instance DecidableEq for UsableMemInfoPtrs

variable {m m' : Mem} {info : MmapInfo} {ptrs : UsableMemInfoPtrs} {elfInfo : ElfInfo}

theorem MmapInfo.entry_succ (info : MmapInfo) (i : Nat) :
    info.entry i + sizeofMemInfoEntry = info.entry (i + 1) := by
  rw [entry, entry, sizeofMemInfoEntry]
  bv_omega

theorem scanMemInfoEntries_eq (n k : Nat) (cnt : Word) (ret : UsableMemInfoPtrs) :
    scanMemInfoEntries m n (info.entry k) cnt ret =
      ((List.range' k n).filter fun i => memInfoType m (info.entry i) = validMemInfoEntType).foldl
        (noteEntry m info) (cnt, ret) := by
  induction n generalizing k cnt ret with
  | zero => rfl
  | succ n ih =>
    rw [List.range'_succ, List.filter_cons, scanMemInfoEntries, MmapInfo.entry_succ]
    by_cases hu : memInfoType m (info.entry k) = validMemInfoEntType
    · rw [if_pos hu, if_pos (decide_eq_true hu), List.foldl_cons, noteEntry]
      by_cases hb : memInfoBase m (info.entry k) = 0
      · rw [if_pos hb, if_pos hb, ih]
      · rw [if_neg hb, if_neg hb, ih]
    · rw [if_neg hu, if_neg (by simpa using hu), ih]

theorem noteEntry_count (l : List Nat) (x : Word × UsableMemInfoPtrs) :
    (l.foldl (noteEntry m info) x).1 = x.1 + BitVec.ofNat 64 l.length := by
  induction l generalizing x with
  | nil => exact (BitVec.add_zero _).symm
  | cons i l ih =>
    have hx : (noteEntry m info x i).1 = x.1 + 1 := by
      rw [noteEntry]
      split <;> rfl
    rw [List.foldl_cons, ih, hx, List.length_cons]
    bv_omega

theorem MmapInfo.scan_eq (info : MmapInfo) (m : Mem) :
    scanMemInfoEntries m info.numMemInfoEntries.toNat info.memInfoEntryArr 0 ⟨none, none⟩ =
      (info.usable m).foldl (noteEntry m info) (0, ⟨none, none⟩) := by
  have hstart : info.memInfoEntryArr = info.entry 0 := (BitVec.add_zero _).symm
  rw [hstart, scanMemInfoEntries_eq, MmapInfo.usable, List.range_eq_range']

/-- The assertion on the count leaves two usable entries, noted one after the other. -/
theorem usable_eq_two (h : getUsableMemInfoPtrs info m = .ok ptrs m') :
    ∃ a b, info.usable m = [a, b] ∧ a ≠ b ∧
      ptrs = (noteEntry m info (noteEntry m info (0, ⟨none, none⟩) a) b).2 := by
  obtain ⟨-, hscan⟩ := getUsableMemInfoPtrs_eq_ok h
  rw [info.scan_eq] at hscan
  have hlen : (info.usable m).length = 2 := by
    have hlt : (info.usable m).length < 2 ^ 64 :=
      (List.length_filter_le _ _).trans_lt (by rw [List.length_range]; exact BitVec.isLt _)
    have hcount := congrArg Prod.fst hscan
    rw [noteEntry_count] at hcount
    have htwo := congrArg BitVec.toNat hcount
    have h0 : (0 : Word).toNat = 0 := rfl
    have h2 : (2 : Word).toNat = 2 := rfl
    simp only [BitVec.toNat_add, BitVec.toNat_ofNat] at htwo
    omega
  obtain ⟨a, b, hab⟩ := List.length_eq_two.mp hlen
  have hnd : (info.usable m).Nodup := List.nodup_range.filter _
  rw [hab] at hnd hscan
  have hne : a ≠ b := fun h => (List.nodup_cons.mp hnd).1 (h ▸ List.mem_singleton_self b)
  have hptrs := congrArg Prod.snd hscan
  rw [List.foldl_cons, List.foldl_cons, List.foldl_nil] at hptrs
  exact ⟨a, b, hab, hne, hptrs.symm⟩

theorem noteEntry_of_zero {x : Word × UsableMemInfoPtrs} {i : Nat}
    (h : memInfoBase m (info.entry i) = 0) :
    (noteEntry m info x i).2 = { x.2 with lower := some (info.entry i) } := by
  rw [noteEntry, if_pos h]

theorem noteEntry_of_ne {x : Word × UsableMemInfoPtrs} {i : Nat}
    (h : memInfoBase m (info.entry i) ≠ 0) :
    (noteEntry m info x i).2 = { x.2 with upper := some (info.entry i) } := by
  rw [noteEntry, if_neg h]

theorem pointersSet_iff (h : getUsableMemInfoPtrs info m = .ok ptrs m') :
    PointersSet m info ptrs ↔ ∃! i, i ∈ info.usable m ∧ memInfoBase m (info.entry i) = 0 := by
  constructor
  · rintro ⟨⟨i, hi, hbase, -, hone⟩, -⟩
    exact ⟨i, ⟨hi, hbase⟩, fun k hk => hone k hk.1 hk.2⟩
  · rintro ⟨i, ⟨hi, hbase⟩, hone⟩
    obtain ⟨a, b, hab, hne, hptrs⟩ := usable_eq_two h
    rw [hptrs]
    rw [hab] at hi hone
    -- the other usable entry has another base
    rcases List.mem_pair.mp hi with rfl | rfl
    · have hb : memInfoBase m (info.entry b) ≠ 0 := fun hb =>
        hne (hone b ⟨by simp, hb⟩).symm
      refine ⟨⟨i, by simp [hab], hbase, ?_, ?_⟩, ⟨b, by simp [hab], hb, ?_, ?_⟩⟩
      · rw [noteEntry_of_ne hb, noteEntry_of_zero hbase]
      · exact fun k hk hk0 => hone k ⟨hab ▸ hk, hk0⟩
      · rw [noteEntry_of_ne hb]
      · intro k hk hk0
        rw [hab] at hk
        exact (List.mem_pair.mp hk).resolve_left fun hki => hk0 (hki ▸ hbase)
    · have ha : memInfoBase m (info.entry a) ≠ 0 := fun ha =>
        hne (hone a ⟨by simp, ha⟩)
      refine ⟨⟨i, by simp [hab], hbase, ?_, ?_⟩, ⟨a, by simp [hab], ha, ?_, ?_⟩⟩
      · rw [noteEntry_of_zero hbase]
      · exact fun k hk hk0 => hone k ⟨hab ▸ hk, hk0⟩
      · rw [noteEntry_of_zero hbase, noteEntry_of_ne ha]
      · intro k hk hk0
        rw [hab] at hk
        exact (List.mem_pair.mp hk).resolve_right fun hki => hk0 (hki ▸ hbase)

/-! Once both pointers are set nothing else is dereferenced that may be unset. -/

theorem addLowerPagesLoop_avoids (head lowerLength : Word) (fuel : Nat) (curr cnt : Word) :
    Avoids .undefined (addLowerPagesLoop head lowerLength fuel curr cnt) := by
  induction fuel generalizing curr cnt with
  | zero =>
    rw [addLowerPagesLoop]
    split
    · exact .throw (by decide)
    · exact .pure _
  | succ fuel ih =>
    rw [addLowerPagesLoop]
    split
    · exact .bind (.modify _) fun _ => ih _ _
    · exact .pure _

theorem addLowerPages_avoids (head base length : Word) :
    Avoids .undefined (addLowerPages head base length) :=
  .bind (addLowerPagesLoop_avoids _ _ _ _ _) fun _ =>
    .bind (.assert (by decide) _) fun _ => .assert (by decide) _

theorem initLlHeadInfo_avoids (head : Word) (elfInfo : ElfInfo) (upper : Word) :
    Avoids .undefined (initLlHeadInfo head elfInfo upper) := by
  refine .bind (.assert (by decide) _) fun _ => .bind .get fun m => ?_
  refine .bind (.assert (by decide) _) fun _ => .bind (.modify _) fun _ => ?_
  refine .bind (.modify _) fun _ => .bind (.modify _) fun _ => .bind .get fun m' => ?_
  exact .bind (.assert (by decide) _) fun _ => .pure _

theorem PointersSet.initPool (hset : PointersSet m info ptrs)
    (h : getUsableMemInfoPtrs info m = .ok ptrs m') (elfInfo : ElfInfo) (m₁ : Mem) :
    initPool info elfInfo m ≠ .error .undefined m₁ := by
  obtain ⟨⟨i, -, -, hlower, -⟩, ⟨j, -, -, hupper, -⟩⟩ := hset
  rw [SkipOS.initPool, bind_of_ok h]
  simp only [hlower, hupper, deref]
  refine Avoids.bind (.pure _) (fun lower => .bind .get fun m => ?_) m' m₁
  refine .bind (.assert (by decide) _) fun _ => .bind (.modify _) fun _ => ?_
  refine .bind (addLowerPages_avoids _ _ _) fun _ => .bind (.pure _) fun upper => ?_
  exact initLlHeadInfo_avoids _ _ _

/-- Where the assertion on the count holds, both pointers are right and `init_pool` follows no
unset one just when a single usable entry starts at 0. -/
theorem pointers_set_iff (h : getUsableMemInfoPtrs info m = .ok ptrs m') :
    (PointersSet m info ptrs ∧ ∀ elfInfo m₁, initPool info elfInfo m ≠ .error .undefined m₁) ↔
      ∃! i, i ∈ info.usable m ∧ memInfoBase m (info.entry i) = 0 := by
  rw [← pointersSet_iff h]
  exact and_iff_left_of_imp fun hset => hset.initPool h

theorem pointers_set_boot : PointersSet (bootBefore 0x4000) bootMmapInfo ⟨some 0x9000, some 0x9018⟩ ∧
    ∀ elfInfo m₁, initPool bootMmapInfo elfInfo (bootBefore 0x4000) ≠ .error .undefined m₁ := by
  have h : getUsableMemInfoPtrs bootMmapInfo (bootBefore 0x4000) =
      .ok ⟨some 0x9000, some 0x9018⟩ _ := eq_ok_of_returned (by decide +kernel)
  have husable : bootMmapInfo.usable (bootBefore 0x4000) = [0, 1] := by decide +kernel
  refine (pointers_set_iff h).mpr ⟨0, ⟨husable ▸ List.mem_cons_self, ?_⟩, ?_⟩
  · decide +kernel
  · rintro i ⟨hi, hbase⟩
    rw [husable] at hi
    rcases List.mem_pair.mp hi with rfl | rfl
    · rfl
    · exact absurd hbase (by decide +kernel)

/-- A map of two usable entries that both start above 0. -/
def highBefore : Mem :=
  let m : Mem := fun _ => 0
  let m := ((m.store64 0x9000 0x100000).store64 0x9008 0x1000).store64 0x9010 1
  ((m.store64 0x9018 0x200000).store64 0x9020 0x1000).store64 0x9028 1

/-- The count is 2 and the lower pointer is not set. -/
theorem pointers_not_set : ∃ ptrs, getUsableMemInfoPtrs bootMmapInfo highBefore = .ok ptrs highBefore ∧
    ¬ PointersSet highBefore bootMmapInfo ptrs ∧
    initPool bootMmapInfo bootElfInfo highBefore = .error .undefined highBefore := by
  have hret : getUsableMemInfoPtrs bootMmapInfo highBefore = .ok ⟨none, some 0x9018⟩ _ :=
    eq_ok_of_returned (by decide +kernel)
  rw [(getUsableMemInfoPtrs_eq_ok hret).1] at hret
  refine ⟨_, hret, ?_, ?_⟩
  · rintro ⟨⟨i, -, -, hlower, -⟩, -⟩
    cases hlower
  · rw [initPool, bind_of_ok hret]
    rfl

end SkipOS
