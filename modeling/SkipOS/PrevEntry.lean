import SkipOS.WalkAgrees

/-! The entry pointer that `get_lowest_present_page` stores for `MMU_free_pages`. In L4 slot 0 it
reports PHYSICAL and stores nothing, so the pointer of the round before is used, or none at all. -/

namespace SkipOS

open Mem Exec Walk

/-- `prev` is the L1 entry of `va`, which maps it to `f`. -/
def OwnEntry (m : Mem) (l4Table va : Word) (prev : Option Word) (f : Word) : Prop :=
  ∃ t, walk (child m) l4Table (tablePath va) = some t ∧ prev = some (entryPtr t (l1Index va)) ∧
    child m t (l1Index va) = some f

/-- A page reported as PHYSICAL has its own entry stored. -/
def StoresEntry (s : Machine) (pt : PageTable) (va : Word) (prev : Option Word) : Prop :=
  ∀ f prev', getLowestPresentPage pt va prev s = .ok (f, .physical, prev') s →
    OwnEntry s.mem pt.l4Table va prev' f

/-- One round of `MMU_free_pages`, with the pointer before and after it. -/
def freeRound (vp nextToFree : Word) (prev : Option Word) : Exec Machine (Option Word) := do
  let s ← get
  let (lowestEntryPtr, level, prev) ← getLowestPresentPage s.pageTable nextToFree prev
  assert (level = .physical ∨ level = .l1)
  if level = .physical then
    let prevEntryPtr ← deref prev
    updateEntry prevEntryPtr (· &&& ~~~(presentMask ||| writeableMask))
    pfFree lowestEntryPtr
    invlpg vp
    return prev
  else
    let s ← get
    assert (s.mem.load64 lowestEntryPtr &&& demandMask ≠ 0)
    assert (s.mem.load64 lowestEntryPtr &&& (presentMask ||| writeableMask) = 0)
    updateEntry lowestEntryPtr (· &&& ~~~demandMask)
    return prev

def freeRounds (vp : Word) : Nat → Exec Machine (Option Word)
  | 0 => return none
  | k + 1 => do
    let prev ← freeRounds vp k
    freeRound vp (vp + BitVec.ofNat 64 (4096 * k)) prev

/-- Each round that gives a frame back writes to the entry that mapped the page to it. -/
def FreesOwnEntries (s : Machine) (vp num : Word) : Prop :=
  ∀ k < num.toNat, ∀ prev s', freeRounds vp k s = .ok prev s' →
    StoresEntry s' s'.pageTable (vp + BitVec.ofNat 64 (4096 * k)) prev

/-- No assertion fails in the call. -/
def PassesAsserts (s : Machine) (vp num : Word) : Prop :=
  ∀ s', mmuFreePages vp num s ≠ .error .assert s'

variable {m : Mem} {t f i j k va vp num : Word} {p q rest : List Word} {s s' : Machine}
  {pt : PageTable} {prev prev' : Option Word} {n : Nat}

/-! What the walk stores. -/

theorem child_aligned (h : child m t i = some f) : Aligned f := by
  have hm : (0xFFF : Word).toNat = 2 ^ 12 - 1 := rfl
  obtain ⟨-, rfl⟩ : isNextPagePresent (m.load64 (entryPtr t i)) = true ∧
      m.load64 (entryPtr t i) &&& ~~~0xFFF = f := by
    simpa [child] using h
  have hz : m.load64 (entryPtr t i) &&& ~~~0xFFF &&& 0xFFF = 0 := by
    rw [BitVec.and_assoc, show ~~~0xFFF &&& (0xFFF : Word) = 0 by decide]
    exact BitVec.and_zero
  have hn := and_mask_of_lt (k := 12) hm (m.load64 (entryPtr t i) &&& ~~~0xFFF)
  rw [hz] at hn
  exact hn.symm

theorem descend_of_missing_behind {k₀ k : Word} (hq : walk (child m) t q = some k₀)
    (hj : child m k₀ j = some k) (hi : child m k i = none) :
    descend m t (q ++ j :: i :: rest) prev =
      (entryPtr k i, rest.length + 1, some (entryPtr k₀ j)) := by
  induction q generalizing t prev with
  | nil =>
    obtain rfl : t = k₀ := Option.some.inj hq
    simp [descend, hj, hi]
  | cons l q ih =>
    obtain ⟨c, hc, hw⟩ := Option.bind_eq_some_iff.mp hq
    simp only [List.cons_append, descend, hc]
    exact ih hw

theorem storesEntry_of_l4Index (ha : va % pageSize = 0) (h0 : (va >>> 39) &&& 0x1FF ≠ 0)
    (prev : Option Word) : StoresEntry s pt va prev := by
  intro f prev' hget
  rcases walk_cases (child s.mem) pt.l4Table (pathOf va) with ⟨n, hn⟩ | ⟨q, i, rest, t, hp, hq, hi⟩
  · rw [pathOf_eq] at hn
    obtain ⟨t, ht⟩ := walk_prefix_isSome hn
    have hc : child s.mem t (l1Index va) = some n := (walk_snoc_of_some ht).symm.trans hn
    rw [getLowestPresentPage_of_mapped ha h0 ht hc, EStateM.Result.ok.injEq, Prod.mk.injEq,
      Prod.mk.injEq] at hget
    obtain ⟨⟨rfl, -, rfl⟩, -⟩ := hget
    exact ⟨t, ht, rfl, hc⟩
  · have hmiss : ∃ prev', getLowestPresentPage pt va prev s =
        .ok (entryPtr t i, levelOf (rest.length + 1), prev') s :=
      getLowestPresentPage_of_missing ha h0 hp hq hi
    obtain ⟨prev₀, hmiss⟩ := hmiss
    rw [hmiss, EStateM.Result.ok.injEq, Prod.mk.injEq, Prod.mk.injEq] at hget
    exact absurd (levelOf_eq_physical_iff.mp hget.1.2.1) (by omega)

theorem not_storesEntry_none (ha : va % pageSize = 0) (h0 : (va >>> 39) &&& 0x1FF = 0) :
    ¬ StoresEntry s pt va none := by
  intro h
  obtain ⟨t, -, hprev, -⟩ := h va none (getLowestPresentPage_of_identity ha h0)
  simp at hprev

/-! The loop as rounds. -/

theorem freePagesLoop_succ (vp : Word) (n : Nat) (va : Word) (prev : Option Word) :
    freePagesLoop vp (n + 1) va prev =
      freeRound vp va prev >>= fun prev' => freePagesLoop vp n (va + pageSize) prev' := by
  funext s
  rw [freePagesLoop, freeRound]
  simp only [bind_assoc, bind_get]
  rw [bind_apply, bind_apply]
  cases getLowestPresentPage s.pageTable va prev s with
  | error e s1 => rfl
  | ok r s1 =>
    dsimp only
    rw [bind_apply, bind_apply]
    cases (assert (r.2.1 = .physical ∨ r.2.1 = .l1) : Exec Machine Unit) s1 with
    | error e s2 => rfl
    | ok u s2 =>
      dsimp only
      by_cases hl : r.2.1 = .physical
      · simp only [if_pos hl, bind_assoc, pure_bind]
      · simp only [if_neg hl, bind_assoc, pure_bind]

theorem freePagesLoop_rounds (vp : Word) (k n : Nat) : freePagesLoop vp (k + n) vp none =
    freeRounds vp k >>= fun prev => freePagesLoop vp n (vp + BitVec.ofNat 64 (4096 * k)) prev := by
  induction k generalizing n with
  | zero => simp [freeRounds]
  | succ k ih =>
    have hnext : vp + BitVec.ofNat 64 (4096 * k) + pageSize = vp + BitVec.ofNat 64 (4096 * (k + 1)) := by
      rw [pageSize]
      bv_omega
    rw [Nat.add_right_comm, Nat.add_assoc, ih, freeRounds, bind_assoc]
    simp only [freePagesLoop_succ, hnext]

theorem pfFree_cases (f : Word) (s : Machine) :
    (∃ s', pfFree f s = .error .assert s') ∨ ∃ s', pfFree f s = .ok () s' := by
  by_cases hf : f ≠ 0
  · have hrun : mmuPfFree f s.mem = .ok () (addElem getLlHeadInfoPtr f s.mem) := by
      rw [mmuPfFree, bind_assert_of hf, modify_apply]
    exact Or.inr ⟨_, pfFree_of_ok hrun⟩
  · have hrun : mmuPfFree f s.mem = .error .assert s.mem := bind_assert_not hf _ _
    refine Or.inl ⟨s, ?_⟩
    rw [pfFree]
    refine bind_of_error ?_ _
    rw [onMem, zoom, hrun]

theorem freeRound_mapped (ha : va % pageSize = 0) (h0 : (va >>> 39) &&& 0x1FF ≠ 0)
    (ht : walk (child s.mem) s.pageTable.l4Table (tablePath va) = some t)
    (hf : child s.mem t (l1Index va) = some f) (vp : Word) (prev : Option Word) :
    (∃ s', freeRound vp va prev s = .error .assert s') ∨
      ∃ s', freeRound vp va prev s = .ok (some (entryPtr t (l1Index va))) s' := by
  have hget : getLowestPresentPage s.pageTable va prev s =
      .ok (f, .physical, some (entryPtr t (l1Index va))) s :=
    getLowestPresentPage_of_mapped ha h0 ht hf
  rw [freeRound, bind_get, bind_of_ok hget]
  dsimp only
  rw [bind_assert_of (Or.inl rfl), if_pos rfl, deref, pure_bind, bind_of_ok (updateEntry_apply _ _ _)]
  rcases pfFree_cases f { s with
      mem := s.mem.store64 (entryPtr t (l1Index va))
        (s.mem.load64 (entryPtr t (l1Index va)) &&& ~~~(presentMask ||| writeableMask))
      events := .setEntry (entryPtr t (l1Index va))
        (s.mem.load64 (entryPtr t (l1Index va)) &&& ~~~(presentMask ||| writeableMask)) :: s.events }
    with ⟨s', hfree⟩ | ⟨s', hfree⟩
  · exact Or.inl ⟨s', bind_of_error hfree _⟩
  · exact Or.inr ⟨_, bind_of_ok hfree _⟩

theorem freeRound_reserved {ptr : Word}
    (hget : getLowestPresentPage s.pageTable va prev s = .ok (ptr, .l1, prev') s) (vp : Word) :
    (∃ s', freeRound vp va prev s = .error .assert s') ∨ ∃ s', freeRound vp va prev s = .ok prev' s' := by
  rw [freeRound, bind_get, bind_of_ok hget]
  dsimp only
  rw [bind_assert_of (Or.inr rfl), if_neg (by decide), bind_get]
  by_cases hd : s.mem.load64 ptr &&& demandMask ≠ 0
  · rw [bind_assert_of hd]
    by_cases hw : s.mem.load64 ptr &&& (presentMask ||| writeableMask) = 0
    · rw [bind_assert_of hw]
      exact Or.inr ⟨_, rfl⟩
    · exact Or.inl ⟨s, bind_assert_not hw _ _⟩
  · exact Or.inl ⟨s, bind_assert_not hd _ _⟩

/-- Behind slot 0 a round fails an assertion, or it leaves a pointer to an entry of an aligned
table, at one of the last two indices of the page. -/
theorem freeRound_of_l4Index (ha : va % pageSize = 0) (h0 : (va >>> 39) &&& 0x1FF ≠ 0)
    (vp : Word) (prev : Option Word) (s : Machine) :
    (∃ s', freeRound vp va prev s = .error .assert s') ∨
      ∃ t i s', freeRound vp va prev s = .ok (some (entryPtr t i)) s' ∧ Aligned t ∧
        (i = l1Index va ∨ i = (va >>> 21) &&& 0x1FF) := by
  have haligned : ∀ q j k, walk (child s.mem) s.pageTable.l4Table (q ++ [j]) = some k → Aligned k := by
    intro q j k hk
    obtain ⟨k₀, hk₀⟩ := walk_prefix_isSome hk
    exact child_aligned ((walk_snoc_of_some hk₀).symm.trans hk)
  have hsplit : tablePath va = [(va >>> 39) &&& 0x1FF, (va >>> 30) &&& 0x1FF] ++
      [(va >>> 21) &&& 0x1FF] := rfl
  rcases walk_cases (child s.mem) s.pageTable.l4Table (pathOf va) with
    ⟨n, hn⟩ | ⟨q, i, rest, t, hp, hq, hi⟩
  · rw [pathOf_eq] at hn
    obtain ⟨t, ht⟩ := walk_prefix_isSome hn
    have hc : child s.mem t (l1Index va) = some n := (walk_snoc_of_some ht).symm.trans hn
    refine (freeRound_mapped ha h0 ht hc vp prev).imp_right fun hok => ?_
    obtain ⟨s', hok⟩ := hok
    exact ⟨t, _, s', hok, haligned _ _ t (hsplit ▸ ht), Or.inl rfl⟩
  · by_cases hrest : rest = []
    · subst hrest
      rw [pathOf_eq] at hp
      obtain ⟨rfl, hi'⟩ := List.append_inj' hp rfl
      obtain rfl : l1Index va = i := by simpa using hi'
      obtain ⟨k₀, hk₀⟩ := walk_prefix_isSome (hsplit ▸ hq)
      have hj : child s.mem k₀ ((va >>> 21) &&& 0x1FF) = some t :=
        (walk_snoc_of_some hk₀).symm.trans (hsplit ▸ hq)
      have hd : descend s.mem s.pageTable.l4Table (pathOf va) prev =
          (entryPtr t (l1Index va), [].length + 1, some (entryPtr k₀ ((va >>> 21) &&& 0x1FF))) :=
        descend_of_missing_behind hk₀ hj hi
      have hget : getLowestPresentPage s.pageTable va prev s =
          .ok (entryPtr t (l1Index va), .l1, some (entryPtr k₀ ((va >>> 21) &&& 0x1FF))) s := by
        rw [getLowestPresentPage_eq ha h0, hd]
        rfl
      refine (freeRound_reserved hget vp).imp_right fun hok => ?_
      obtain ⟨s', hok⟩ := hok
      exact ⟨k₀, _, s', hok, haligned [_] _ k₀ hk₀, Or.inr rfl⟩
    · have hmiss : ∃ prev', getLowestPresentPage s.pageTable va prev s =
          .ok (entryPtr t i, levelOf (rest.length + 1), prev') s :=
        getLowestPresentPage_of_missing ha h0 hp hq hi
      obtain ⟨prev', hget⟩ := hmiss
      have hl1 : levelOf (rest.length + 1) ≠ .l1 := fun hl => hrest (eq_nil_of_levelOf hl)
      have hphys : levelOf (rest.length + 1) ≠ .physical := fun hl =>
        absurd (levelOf_eq_physical_iff.mp hl) (by omega)
      refine Or.inl ⟨s, ?_⟩
      rw [freeRound, bind_get, bind_of_ok hget]
      exact bind_assert_not (not_or.mpr ⟨hphys, hl1⟩) _ _

theorem page_umod (hal : vp % pageSize = 0) (k : Nat) :
    (vp + BitVec.ofNat 64 (4096 * k)) % pageSize = 0 := by
  rw [umod_pageSize_eq_zero, Aligned] at hal ⊢
  rw [BitVec.toNat_add, BitVec.toNat_ofNat]
  omega

/-- The page before slot 0 has the last index at each level. -/
theorem indices_before_slot0 (h0 : (va >>> 39) &&& 0x1FF ≠ 0)
    (hnext : ((va + pageSize) >>> 39) &&& 0x1FF = 0) :
    l1Index va = 511 ∧ (va >>> 21) &&& 0x1FF = 511 ∧ l1Index (va + pageSize) = 0 := by
  rw [Ne, l4Index_eq_zero] at h0
  rw [l4Index_eq_zero] at hnext
  have hn : (va + pageSize).toNat = (va.toNat + 4096) % 2 ^ 64 := BitVec.toNat_add _ _
  have hlt := va.isLt
  have hidx : ∀ {x y : Word}, x.toNat = y.toNat → x = y := BitVec.eq_of_toNat_eq
  refine ⟨hidx ?_, hidx ?_, hidx ?_⟩
  · rw [l1Index, index_toNat, show (511 : Word).toNat = 511 from rfl]
    omega
  · rw [index_toNat, show (511 : Word).toNat = 511 from rfl]
    omega
  · rw [l1Index, index_toNat, show (0 : Word).toNat = 0 from rfl]
    omega

theorem entryPtr_last_ne_first {t' : Word} (ht : Aligned t) (ht' : Aligned t') :
    entryPtr t 511 ≠ entryPtr t' 0 := by
  rw [Aligned] at ht ht'
  rw [entryPtr, entryPtr]
  bv_omega

/-- Rounds behind slot 0 are passed, and each leaves a pointer to an entry of its page. -/
theorem freeRounds_reached (hal : vp % pageSize = 0) (hnum : 0 < num)
    (hpass : PassesAsserts s vp num) (k : Nat) (hk : k ≤ num.toNat)
    (h0 : ∀ j < k, ((vp + BitVec.ofNat 64 (4096 * j)) >>> 39) &&& 0x1FF ≠ 0) :
    ∃ prev s', freeRounds vp k s = .ok prev s' ∧ (k = 0 → prev = none) ∧
      ∀ j, k = j + 1 → ∃ t i, prev = some (entryPtr t i) ∧ Aligned t ∧
        (i = l1Index (vp + BitVec.ofNat 64 (4096 * j)) ∨
          i = ((vp + BitVec.ofNat 64 (4096 * j)) >>> 21) &&& 0x1FF) := by
  induction k with
  | zero => exact ⟨none, s, rfl, fun _ => rfl, fun j hj => by omega⟩
  | succ k ih =>
    obtain ⟨prev, s1, hrounds, -⟩ := ih (by omega) fun j hj => h0 j (by omega)
    rcases freeRound_of_l4Index (page_umod hal k) (h0 k (by omega)) vp prev s1 with
      ⟨s', hfail⟩ | ⟨t, i, s', hok, ht, hi⟩
    · refine absurd ?_ (hpass s')
      obtain ⟨n, hn⟩ : ∃ n, num.toNat = (k + 1) + n := ⟨num.toNat - (k + 1), by omega⟩
      rw [mmuFreePages, bind_assert_of hal, bind_assert_of hnum, hn, freePagesLoop_rounds]
      refine bind_of_error ?_ _
      rw [freeRounds, bind_of_ok hrounds, hfail]
    · refine ⟨some (entryPtr t i), s', ?_, by simp, ?_⟩
      · rw [freeRounds, bind_of_ok hrounds, hok]
      · intro j hj
        obtain rfl : k = j := by omega
        exact ⟨t, i, rfl, ht, hi⟩

theorem PassesAsserts.guards (h : PassesAsserts s vp num) : vp % pageSize = 0 ∧ 0 < num := by
  by_cases hal : vp % pageSize = 0
  · refine ⟨hal, ?_⟩
    by_contra hnum
    refine h s ?_
    rw [mmuFreePages, bind_assert_of hal, bind_assert_not hnum]
  · refine absurd ?_ (h s)
    rw [mmuFreePages, bind_assert_not hal]

/-- The first page in slot 0 is freed through a pointer that is not its entry. -/
theorem PassesAsserts.not_freesOwnEntries (hpass : PassesAsserts s vp num) {k : Nat}
    (hk : k < num.toNat) (hzero : ((vp + BitVec.ofNat 64 (4096 * k)) >>> 39) &&& 0x1FF = 0)
    (hbefore : ∀ j < k, ((vp + BitVec.ofNat 64 (4096 * j)) >>> 39) &&& 0x1FF ≠ 0) :
    ¬ FreesOwnEntries s vp num := by
  intro h
  obtain ⟨hal, hnum⟩ := hpass.guards
  obtain ⟨prev, s', hrounds, hfirst, hlater⟩ := freeRounds_reached hal hnum hpass k (by omega) hbefore
  have hstores := h k hk prev s' hrounds
  cases k with
  | zero =>
    rw [hfirst rfl] at hstores
    exact not_storesEntry_none (page_umod hal 0) hzero hstores
  | succ k =>
    obtain ⟨t, i, rfl, ht, hi⟩ := hlater k rfl
    have hnext : vp + BitVec.ofNat 64 (4096 * (k + 1)) = vp + BitVec.ofNat 64 (4096 * k) + pageSize := by
      rw [pageSize]
      bv_omega
    obtain ⟨t', hwalk, hprev, -⟩ := hstores _ _
      (getLowestPresentPage_of_identity (page_umod hal (k + 1)) hzero)
    rw [hnext] at hzero hwalk hprev
    obtain ⟨h1, h2, h3⟩ := indices_before_slot0 (hbefore k (by omega)) hzero
    have hi511 : i = 511 := by
      rcases hi with rfl | rfl
      · exact h1
      · exact h2
    obtain ⟨k₀, hk₀⟩ := walk_prefix_isSome (p := [_, _]) (q := [_]) hwalk
    have ht' : Aligned t' := child_aligned ((walk_snoc_of_some hk₀).symm.trans hwalk)
    rw [hi511, h3, Option.some.injEq] at hprev
    exact entryPtr_last_ne_first ht ht' hprev

/-- A page reported as PHYSICAL has its own entry stored, whatever the pointer held before, exactly
behind slot 0; and the frees of a call that passes its assertions go through the entries of
their own pages exactly when no page of the range lies in slot 0. -/
theorem stores_entry_iff (s : Machine) :
    (∀ (pt : PageTable) (va : Word), va % pageSize = 0 →
      ((∀ prev, StoresEntry s pt va prev) ↔ (va >>> 39) &&& 0x1FF ≠ 0)) ∧
    ∀ vp num, PassesAsserts s vp num → (FreesOwnEntries s vp num ↔
      ∀ k < num.toNat, ((vp + BitVec.ofNat 64 (4096 * k)) >>> 39) &&& 0x1FF ≠ 0) := by
  refine ⟨fun pt va ha => ⟨fun h h0 => not_storesEntry_none ha h0 (h none),
    fun h0 => storesEntry_of_l4Index ha h0⟩, fun vp num hpass => ⟨fun h => ?_, fun h0 => ?_⟩⟩
  · intro k
    induction k using Nat.strong_induction_on with
    | _ k ih =>
      intro hk hzero
      exact hpass.not_freesOwnEntries hk hzero (fun j hj => ih j hj (by omega)) h
  · intro k hk prev s' _
    exact storesEntry_of_l4Index (page_umod hpass.guards.1 k) (h0 k hk) prev

/-- The page at 512 GiB of the machine with one page is freed through its own entry. -/
theorem stores_entry_onePage : FreesOwnEntries (onePage 0x5003) 0x8000000000 1 := by
  have hrun : returned (mmuFreePages 0x8000000000 1 (onePage 0x5003)) = some () := by decide +kernel
  have hpass : PassesAsserts (onePage 0x5003) 0x8000000000 1 := by
    intro s' hfail
    rw [hfail] at hrun
    simp [returned] at hrun
  refine ((stores_entry_iff (onePage 0x5003)).2 0x8000000000 1 hpass).mpr ?_
  intro k hk
  obtain rfl : k = 0 := by
    have hone : (1 : Word).toNat = 1 := rfl
    omega
  decide

/-- Freeing an identity mapped page writes through the pointer before it is set. -/
theorem free_identity_unset : ¬ ∀ (s : Machine) (vp num : Word), PassesAsserts s vp num →
    FreesOwnEntries s vp num ∧ ∀ s', mmuFreePages vp num s ≠ .error .undefined s' := by
  intro h
  have hrun : mmuFreePages 0x5000 1 (onePage 0x5003) = .error .undefined (onePage 0x5003) := by
    rfl
  refine (h (onePage 0x5003) 0x5000 1 fun s' hfail => ?_).2 _ hrun
  rw [hrun] at hfail
  simp at hfail

end SkipOS
