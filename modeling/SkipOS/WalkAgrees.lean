import SkipOS.FreeExact
import SkipOS.NullFrame

/-! `get_lowest_present_page` against the hardware's walk. The code clears the low twelve bits of
an entry and nothing above, so the two agree on entries without bits above the address. At the end
it is read off which frames are accessed at their own addresses. -/

namespace SkipOS

open Mem Exec Walk

/-- The first entry of the processor's walk that is not present, and its level. -/
def hwMissing (m : Mem) (cr3 va : Word) : Option (PtLevel × Word) :=
  let l4Ptr := entryPtr (hwAddr cr3) ((va >>> 39) &&& 0x1FF)
  let l4Entry := m.load64 l4Ptr
  if ¬ isNextPagePresent l4Entry then some (.l4, l4Ptr)
  else
    let l3Ptr := entryPtr (hwAddr l4Entry) ((va >>> 30) &&& 0x1FF)
    let l3Entry := m.load64 l3Ptr
    if ¬ isNextPagePresent l3Entry then some (.l3, l3Ptr)
    else if l3Entry &&& pageSize1gbMsk ≠ 0 then none
    else
      let l2Ptr := entryPtr (hwAddr l3Entry) ((va >>> 21) &&& 0x1FF)
      let l2Entry := m.load64 l2Ptr
      if ¬ isNextPagePresent l2Entry then some (.l2, l2Ptr)
      else if l2Entry &&& pageSize1gbMsk ≠ 0 then none
      else
        let l1Ptr := entryPtr (hwAddr l2Entry) ((va >>> 12) &&& 0x1FF)
        if ¬ isNextPagePresent (m.load64 l1Ptr) then some (.l1, l1Ptr) else none

/-- The entries on a path, as far as they are present. -/
def presentEntries (m : Mem) : Word → List Word → List Word
  | _, [] => []
  | t, i :: p =>
    let entry := m.load64 (entryPtr t i)
    if isNextPagePresent entry then entry :: presentEntries m (entry &&& ~~~0xFFF) p else []

/-- No entry above L1 on the way to `va` maps a large page. -/
def SmallPages (m : Mem) (t va : Word) : Prop :=
  ∀ e ∈ presentEntries m t (tablePath va), e &&& pageSize1gbMsk = 0

/-- Bits 52 to 63 of the present entries on the way to `va` are clear. -/
def PlainEntries (m : Mem) (t va : Word) : Prop :=
  ∀ e ∈ presentEntries m t (pathOf va), e.toNat < 2 ^ 52

instance (m : Mem) (t va : Word) : Decidable (SmallPages m t va) :=
  List.decidableBAll (fun e : Word => e &&& pageSize1gbMsk = 0) _

instance (m : Mem) (t va : Word) : Decidable (PlainEntries m t va) :=
  List.decidableBAll (fun e : Word => e.toNat < 2 ^ 52) _

variable {m : Mem} {t va e : Word} {s : Machine} {pt : PageTable} {prev : Option Word}

theorem hwAddr_of_lt (h : e.toNat < 2 ^ 52) : hwAddr e = e &&& ~~~0xFFF := by
  have hlt : (e &&& ~~~0xFFF).toNat < 2 ^ 52 := by
    rw [BitVec.toNat_and]
    exact Nat.and_le_left.trans_lt h
  rw [hwAddr_eq]
  apply BitVec.eq_of_toNat_eq
  rw [and_mask_of_lt (k := 52) rfl, Nat.mod_eq_of_lt hlt]

theorem mask_of_aligned (ha : va % pageSize = 0) : va &&& 0xFFF = 0 :=
  mask_eq_zero_of_aligned (umod_pageSize_eq_zero.mp ha)

/-- The software's walk ends where the hardware's does. -/
theorem descend_hw (prev : Option Word) (hroot : hwAddr t = t) (ha : va % pageSize = 0)
    (hsmall : SmallPages m t va) (hplain : PlainEntries m t va) :
    (hwWalk m t va = if (descend m t (pathOf va) prev).2.1 = 0
      then some (descend m t (pathOf va) prev).1 else none) ∧
    ((descend m t (pathOf va) prev).2.1 ≠ 0 → hwMissing m t va =
      some (levelOf (descend m t (pathOf va) prev).2.1, (descend m t (pathOf va) prev).1)) := by
  have hoffset := mask_of_aligned ha
  simp only [hwWalk, hwMissing, SmallPages, PlainEntries, presentEntries, pathOf, tablePath,
    descend, child, hroot] at hsmall hplain ⊢
  generalize (va >>> 39) &&& 0x1FF = i4 at *
  generalize (va >>> 30) &&& 0x1FF = i3 at *
  generalize (va >>> 21) &&& 0x1FF = i2 at *
  generalize (va >>> 12) &&& 0x1FF = i1 at *
  generalize m.load64 (entryPtr t i4) = e4 at *
  by_cases h4 : isNextPagePresent e4 = true
  · simp only [h4, if_true, not_true_eq_false, if_false, List.forall_mem_cons] at hsmall hplain ⊢
    obtain ⟨hlt4, hplain⟩ := hplain
    rw [hwAddr_of_lt hlt4]
    generalize m.load64 (entryPtr (e4 &&& ~~~0xFFF) i3) = e3 at *
    by_cases h3 : isNextPagePresent e3 = true
    · simp only [h3, if_true, not_true_eq_false, if_false, List.forall_mem_cons] at hsmall hplain ⊢
      obtain ⟨hlt3, hplain⟩ := hplain
      rw [hwAddr_of_lt hlt3]
      generalize m.load64 (entryPtr (e3 &&& ~~~0xFFF) i2) = e2 at *
      by_cases h2 : isNextPagePresent e2 = true
      · simp only [h2, if_true, not_true_eq_false, if_false, List.forall_mem_cons] at hsmall hplain ⊢
        obtain ⟨hlt2, hplain⟩ := hplain
        rw [hwAddr_of_lt hlt2]
        generalize m.load64 (entryPtr (e2 &&& ~~~0xFFF) i1) = e1 at *
        by_cases h1 : isNextPagePresent e1 = true
        · simp only [h1, if_true, List.forall_mem_cons] at hplain
          simpa [h1, hsmall.2.1, hsmall.2.2.1, hwAddr_of_lt hplain.1] using hoffset
        · simp [h1, hsmall.2.1, hsmall.2.2.1, levelOf]
      · simp [h2, hsmall.2.1, levelOf]
    · simp [h3, levelOf]
  · simp [h4, levelOf]

theorem levelOf_eq_physical_iff {n : Nat} : levelOf n = .physical ↔ n = 0 := by
  rcases n with _ | _ | _ | _ | n <;> simp [levelOf]

/-- The function reports PHYSICAL and a frame exactly when the hardware translates the page to that
frame, and else the first entry that is not present, with its level. -/
theorem walk_agrees (hroot : hwAddr pt.l4Table = pt.l4Table) (ha : va % pageSize = 0)
    (h0 : (va >>> 39) &&& 0x1FF ≠ 0) (hsmall : SmallPages s.mem pt.l4Table va)
    (hplain : PlainEntries s.mem pt.l4Table va) :
    ∃ ptr level prev', getLowestPresentPage pt va prev s = .ok (ptr, level, prev') s ∧
      (∀ f, level = .physical ∧ ptr = f ↔ hwWalk s.mem pt.l4Table va = some f) ∧
      (level ≠ .physical → hwMissing s.mem pt.l4Table va = some (level, ptr)) := by
  obtain ⟨hwalk, hmissing⟩ := descend_hw prev hroot ha hsmall hplain
  refine ⟨_, _, _, getLowestPresentPage_eq ha h0, fun f => ?_, fun hl => ?_⟩
  · rw [levelOf_eq_physical_iff, hwalk]
    by_cases hd : (descend s.mem pt.l4Table (pathOf va) prev).2.1 = 0 <;> simp [hd]
  · exact hmissing fun hd => hl (levelOf_eq_physical_iff.mpr hd)

/-- Tables that map the page at 512 GiB through one L1 entry. -/
def onePageMem (l1Entry : Word) : Mem :=
  (((Mem.store64 (fun _ => 0) 0x1008 0x2003).store64 0x2000 0x3003).store64 0x3000 0x4003).store64
    0x4000 l1Entry

def onePage (l1Entry : Word) : Machine :=
  ⟨onePageMem l1Entry, ⟨0x1000⟩, 0, 0, 0x1000, fun _ => none, []⟩

theorem walk_agrees_onePage : ∃ ptr level prev',
    getLowestPresentPage ⟨0x1000⟩ 0x8000000000 none (onePage 0x5003) =
      .ok (ptr, level, prev') (onePage 0x5003) ∧
    (∀ f, level = .physical ∧ ptr = f ↔ hwWalk (onePageMem 0x5003) 0x1000 0x8000000000 = some f) ∧
    (level ≠ .physical → hwMissing (onePageMem 0x5003) 0x1000 0x8000000000 = some (level, ptr)) := by
  have hentries : SmallPages (onePageMem 0x5003) 0x1000 0x8000000000 ∧
      PlainEntries (onePageMem 0x5003) 0x1000 0x8000000000 := by
    decide +kernel
  exact walk_agrees (s := onePage 0x5003) (by decide) (by decide) (by decide)
    hentries.1 hentries.2

/-- With bit 63 of the L1 entry set, that bit is in the frame reported. -/
theorem walk_disagrees : ¬ ∀ (s : Machine) (pt : PageTable) (va : Word) (prev : Option Word),
    hwAddr pt.l4Table = pt.l4Table → va % pageSize = 0 → va.toNat < 2 ^ 47 →
    (va >>> 39) &&& 0x1FF ≠ 0 → SmallPages s.mem pt.l4Table va →
    ∃ ptr level prev', getLowestPresentPage pt va prev s = .ok (ptr, level, prev') s ∧
      (∀ f, level = .physical ∧ ptr = f ↔ hwWalk s.mem pt.l4Table va = some f) ∧
      (level ≠ .physical → hwMissing s.mem pt.l4Table va = some (level, ptr)) := by
  intro h
  have hrun : SmallPages (onePageMem 0x8000000000005003) 0x1000 0x8000000000 ∧
      returned (getLowestPresentPage ⟨0x1000⟩ 0x8000000000 none (onePage 0x8000000000005003)) =
        some (0x8000000000005000, .physical, some 0x4000) ∧
      hwWalk (onePageMem 0x8000000000005003) 0x1000 0x8000000000 = some 0x5000 := by
    decide +kernel
  obtain ⟨hsmall, hget, hwalk⟩ := hrun
  obtain ⟨ptr, level, prev', hget', hphys, -⟩ := h (onePage 0x8000000000005003) ⟨0x1000⟩
    0x8000000000 none (by decide) (by decide) (by decide) (by decide) hsmall
  have he : ptr = 0x5000 := ((hphys 0x5000).mpr hwalk).2
  rw [hget', returned, Option.some.injEq, Prod.mk.injEq, he] at hget
  exact absurd hget.1 (by decide)

/-- `get_physical_addr` is the hardware's translation, NULL where there is none. -/
theorem getPhysicalAddr_hw (hroot : hwAddr pt.l4Table = pt.l4Table) (ha : va % pageSize = 0)
    (h0 : (va >>> 39) &&& 0x1FF ≠ 0) (hsmall : SmallPages s.mem pt.l4Table va)
    (hplain : PlainEntries s.mem pt.l4Table va) :
    getPhysicalAddr pt va s = .ok ((hwWalk s.mem pt.l4Table va).getD 0) s := by
  obtain ⟨hwalk, -⟩ := descend_hw none hroot ha hsmall hplain
  rw [getPhysicalAddr, bind_assert_of ha, bind_of_ok (getLowestPresentPage_eq ha h0), hwalk]
  by_cases hd : (descend s.mem pt.l4Table (pathOf va) none).2.1 = 0
  · simp [hd, levelOf]
  · simp [hd, levelOf_eq_physical_iff]

theorem getPhysicalAddr_hw_onePage :
    getPhysicalAddr ⟨0x1000⟩ 0x8000000000 (onePage 0x5003) = .ok 0x5000 (onePage 0x5003) := by
  have hentries : SmallPages (onePageMem 0x5003) 0x1000 0x8000000000 ∧
      PlainEntries (onePageMem 0x5003) 0x1000 0x8000000000 ∧
      (hwWalk (onePageMem 0x5003) 0x1000 0x8000000000).getD 0 = 0x5000 := by
    decide +kernel
  obtain ⟨hsmall, hplain, hwalk⟩ := hentries
  have hget : getPhysicalAddr ⟨0x1000⟩ 0x8000000000 (onePage 0x5003) =
      .ok ((hwWalk (onePageMem 0x5003) 0x1000 0x8000000000).getD 0) (onePage 0x5003) :=
    getPhysicalAddr_hw (by decide) (by decide) (by decide) hsmall hplain
  exact hget.trans (congrArg (EStateM.Result.ok · _) hwalk)

/-- In every reachable state an address below 512 GiB is taken to itself exactly if it is below 1
GiB. So the frames that lie there, and no others, are accessed at their own addresses. -/
theorem identity_walk_kept {B : BootPool} {s0 s : Machine} {live : Set Word} {va : Word}
    (hboot : Booted B s0) (hphys : ∀ f ∈ B.managed, f.toNat < 2 ^ 52)
    (hrun : PermittedRun (s0, ∅) (s, live)) (hnull : .pfAlloc 0 ∉ s.events)
    (hva : va.toNat < 2 ^ 39) :
    (hwWalk s.mem s.cr3 va = some va ↔ va.toNat < 2 ^ 30) ∧
      ∀ f ∈ B.managed, va ∈ frame f →
        (hwWalk s.mem s.cr3 va = some va ↔ f.toNat < 2 ^ 30) := by
  obtain ⟨limit, P, h⟩ := (PermittedRun.vmRun hboot hrun hnull).inv_of_booted hboot hnull
  rw [h.tables.hwWalk_eq hphys hva, Option.some.injEq]
  refine ⟨and_gigabyte_mask_eq_iff, fun f hf hin => ?_⟩
  rw [and_gigabyte_mask_eq_iff]
  have hal := B.inv.aligned f hf
  have hlt := hphys f hf
  rw [frame, mem_span] at hin
  rw [Aligned] at hal
  have hsum : va.toNat = f.toNat + (va - f).toNat := by bv_omega
  omega

theorem identity_walk_kept_roomy :
    hwWalk roomyTouched.mem roomyTouched.cr3 0xB8000 = some 0xB8000 ∧
      hwWalk roomyTouched.mem roomyTouched.cr3 0x40000000 ≠ some 0x40000000 := by
  have hphys : ∀ f ∈ roomyBoot.managed, f.toNat < 2 ^ 52 := fun f hf =>
    Nat.lt_trans (roomyBoot_low f hf) (by decide)
  have hrun := roomyTouched_run.permitted
  obtain ⟨-, -, hnull, -⟩ := roomyTouched_returned
  exact ⟨(identity_walk_kept roomyBoot_booted hphys hrun hnull (by decide)).1.mpr (by decide),
    fun h => absurd ((identity_walk_kept roomyBoot_booted hphys hrun hnull (by decide)).1.mp h)
      (by decide)⟩

end SkipOS
