import SkipOS.Strings

/-! `strcmp` against the sums of the bytes. The difference of the sums is cut down to an `int`,
so its sign is that of the difference only while the sums are near to each other. -/

namespace SkipOS

open Mem Exec

def CString.byteSum (str : CString) : Nat := (str.bytes.map BitVec.toNat).sum

namespace StringC

variable {m : Mem} {a : Word} {str : CString} {s t u : MemString m} {r r' : BitVec 32}
  {S : Set (MemString m)} {i fuel : Nat} {sum : Word}

def sumDiff (s t : MemString m) : Int := (s.str.byteSum : Int) - t.str.byteSum

def Compares (s t : MemString m) (r : BitVec 32) : Prop :=
  Returns (fun fuel => strcmp fuel s.addr t.addr) m r m

def SignOfSums (s t : MemString m) : Prop :=
  ∃ r, Compares s t r ∧ r.toInt.sign = (sumDiff s t).sign

def AtMost (s t : MemString m) : Prop := ∃ r, Compares s t r ∧ r.toInt ≤ 0

/-- Among the strings of `S`, `strcmp` is the order of the sums. -/
structure OrdersBySums (S : Set (MemString m)) : Prop where
  sign : ∀ s ∈ S, ∀ t ∈ S, SignOfSums s t
  antisymm : ∀ s ∈ S, ∀ t ∈ S, ∀ r r', Compares s t r → Compares t s r' →
    r.toInt.sign = -r'.toInt.sign
  trans : ∀ s ∈ S, ∀ t ∈ S, ∀ u ∈ S, AtMost s t → AtMost t u → AtMost s u

/-- The sums are equal, or their distance modulo `2 ^ 32` is less than `2 ^ 31` and not 0, or it is
`2 ^ 31` and the first is the smaller. -/
def NearSums (s t : MemString m) : Prop :=
  sumDiff s t = 0 ∨
    (0 < (sumDiff s t).natAbs % 2 ^ 32 ∧ (sumDiff s t).natAbs % 2 ^ 32 < 2 ^ 31) ∨
    ((sumDiff s t).natAbs % 2 ^ 32 = 2 ^ 31 ∧ sumDiff s t < 0)

/-- The index does not overflow. -/
def Indexed (s : MemString m) : Prop := s.str.bytes.length < 2 ^ 31

theorem strvalLoop_run (h : m.Holds a (str.bytes ++ [0])) (hlen : str.bytes.length < 2 ^ 31)
    (hi : i ≤ str.bytes.length) (hfuel : str.bytes.length - i < fuel) :
    strvalLoop a fuel (BitVec.ofNat 32 i) sum m =
      .ok (sum + BitVec.ofNat 64 ((str.bytes.drop i).map BitVec.toNat).sum) m := by
  induction fuel generalizing i sum with
  | zero => exact absurd hfuel (Nat.not_lt_zero _)
  | succ fuel ih =>
    rw [strvalLoop, charPtr_ofNat a (by omega), bind_of_ok (loadChar_apply _ _), char_at h hi]
    rcases Nat.lt_or_eq_of_le hi with hlt | rfl
    · have hadd : (str.at i).setWidth 64 = BitVec.ofNat 64 (str.at i).toNat := by
        rw [← BitVec.toNat_inj, BitVec.toNat_setWidth, BitVec.toNat_ofNat]
      rw [if_pos (char_ne_zero hlt), List.drop_eq_getElem_cons hlt, List.map_cons, List.sum_cons,
        ← CString.at_eq_getElem hlt, BitVec.ofNat_add, ← BitVec.add_assoc, ← hadd]
      exact (bind_of_ok (incInt_of_lt (by omega) m) _).trans (ih hlt (by omega))
    · rw [if_neg (not_not.mpr (CString.at_eq_zero_iff.mpr (Nat.le_refl _))), List.drop_length]
      exact congrArg (fun v => EStateM.Result.ok v m) (BitVec.add_zero sum).symm

theorem strvalLoop_overflows (h : m.Holds a (str.bytes ++ [0])) (hlen : 2 ^ 31 ≤ str.bytes.length)
    (hi : i < 2 ^ 31) {v : Word} {m' : Mem} :
    strvalLoop a fuel (BitVec.ofNat 32 i) sum m ≠ .ok v m' := by
  induction fuel generalizing i sum with
  | zero => exact fun h => nomatch h
  | succ fuel ih =>
    rw [strvalLoop, charPtr_ofNat a hi, bind_of_ok (loadChar_apply _ _), char_at h (by omega),
      if_pos (char_ne_zero (by omega))]
    rcases Nat.lt_or_eq_of_le (Nat.succ_le_of_lt hi) with hlt | hmax
    · intro hrun
      exact ih hlt ((bind_of_ok (incInt_of_lt hlt m) _).symm.trans hrun)
    · obtain rfl : i = 2 ^ 31 - 1 := by omega
      intro hrun
      exact nomatch (bind_of_error (incInt_max m) _).symm.trans hrun

theorem strval_returns (s : MemString m) (hs : Indexed s) :
    Returns (fun fuel => strval fuel s.addr) m (BitVec.ofNat 64 s.str.byteSum) m := by
  refine ⟨s.str.bytes.length + 1, fun fuel hfuel => ?_⟩
  refine (bind_assert_of s.notNull _ m).trans ?_
  refine (strvalLoop_run s.held hs (Nat.zero_le _) (by omega)).trans ?_
  exact congrArg (fun v => EStateM.Result.ok v m) (BitVec.zero_add _)

theorem strval_overflows (s : MemString m) (hs : ¬ Indexed s) {v : Word} {m' : Mem} :
    strval fuel s.addr m ≠ .ok v m' := by
  intro hrun
  exact strvalLoop_overflows s.held (Nat.le_of_not_lt hs) (Nat.two_pow_pos 31)
    ((bind_assert_of s.notNull _ m).symm.trans hrun)

theorem byteSum_le (str : CString) : str.byteSum ≤ 255 * str.bytes.length := by
  rw [CString.byteSum]
  induction str.bytes with
  | nil => exact Nat.le_refl 0
  | cons b bytes ih =>
    have hb := b.isLt
    rw [List.map_cons, List.sum_cons, List.length_cons]
    omega

def cmpResult (s t : MemString m) : BitVec 32 :=
  (BitVec.ofNat 64 s.str.byteSum - BitVec.ofNat 64 t.str.byteSum).setWidth 32

theorem compares_cmpResult (hs : Indexed s) (ht : Indexed t) : Compares s t (cmpResult s t) :=
  (strval_returns s hs).bind ((strval_returns t ht).bind (returns_pure _ m))

theorem Compares.indexed (h : Compares s t r) : Indexed s ∧ Indexed t := by
  obtain ⟨n, hn⟩ := h
  have hindexed : Indexed s := by
    by_contra hlong
    obtain ⟨v, m', hs, -⟩ := bind_eq_ok.mp (hn n (Nat.le_refl n))
    exact strval_overflows s hlong hs
  refine ⟨hindexed, ?_⟩
  by_contra hlong
  obtain ⟨k, hk⟩ := strval_returns s hindexed
  have hrun : strcmp (max n k) s.addr t.addr m = .ok r m := hn _ (Nat.le_max_left n k)
  rw [strcmp, bind_of_ok (hk _ (Nat.le_max_right n k))] at hrun
  obtain ⟨v, m', ht, -⟩ := bind_eq_ok.mp hrun
  exact strval_overflows t hlong ht

theorem Compares.eq_cmpResult (h : Compares s t r) : r = cmpResult s t :=
  (h.unique (compares_cmpResult h.indexed.1 h.indexed.2)).1

theorem toInt_cmpResult (hs : Indexed s) (ht : Indexed t) :
    (cmpResult s t).toInt = if 2 * (sumDiff s t % 2 ^ 32) < 2 ^ 32 then sumDiff s t % 2 ^ 32
      else sumDiff s t % 2 ^ 32 - 2 ^ 32 := by
  have hsum := byteSum_le s.str
  have hsum' := byteSum_le t.str
  rw [Indexed] at hs ht
  have hn : ((cmpResult s t).toNat : Int) = sumDiff s t % 2 ^ 32 := by
    rw [cmpResult, BitVec.toNat_setWidth, BitVec.toNat_sub, toNat_ofNat_of_lt (by omega),
      toNat_ofNat_of_lt (by omega), sumDiff]
    omega
  rw [BitVec.toInt_eq_toNat_cond, ← hn]
  norm_cast

theorem sign_eq_iff {x y : Int} : x.sign = y.sign ↔ (0 < x ↔ 0 < y) ∧ (x < 0 ↔ y < 0) := by
  rcases Int.lt_trichotomy x 0 with hx | rfl | hx <;>
    rcases Int.lt_trichotomy y 0 with hy | rfl | hy
  all_goals simp [Int.sign_eq_one_of_pos, Int.sign_eq_neg_one_of_neg, *]
  all_goals omega

/-- The sign of the result is that of the difference, if the index reaches both ends. -/
theorem signOfSums_iff : SignOfSums s t ↔ Indexed s ∧ Indexed t ∧ NearSums s t := by
  have hsign (hs : Indexed s) (ht : Indexed t) :
      (cmpResult s t).toInt.sign = (sumDiff s t).sign ↔ NearSums s t := by
    rw [sign_eq_iff, toInt_cmpResult hs ht, NearSums]
    split <;> omega
  constructor
  · rintro ⟨r, hr, hrsign⟩
    rw [hr.eq_cmpResult] at hrsign
    exact ⟨hr.indexed.1, hr.indexed.2, (hsign hr.indexed.1 hr.indexed.2).mp hrsign⟩
  · rintro ⟨hs, ht, hnear⟩
    exact ⟨_, compares_cmpResult hs ht, (hsign hs ht).mpr hnear⟩

theorem SignOfSums.atMost_iff (h : SignOfSums s t) :
    AtMost s t ↔ s.str.byteSum ≤ t.str.byteSum := by
  obtain ⟨r, hr, hrsign⟩ := h
  have hle : r.toInt ≤ 0 ↔ s.str.byteSum ≤ t.str.byteSum := by
    have hcases := sign_eq_iff.mp hrsign
    rw [sumDiff] at hcases
    omega
  refine Iff.trans ⟨?_, fun hr' => ⟨r, hr, hr'⟩⟩ hle
  rintro ⟨r', hr', hr0⟩
  rwa [(hr.unique hr').1]

theorem ordersBySums_of_sign (h : ∀ s ∈ S, ∀ t ∈ S, SignOfSums s t) : OrdersBySums S := by
  refine ⟨h, fun s hs t ht r r' hr hr' => ?_, fun s hs t ht u hu hst htu => ?_⟩
  · obtain ⟨q, hq, hqsign⟩ := h s hs t ht
    obtain ⟨q', hq', hqsign'⟩ := h t ht s hs
    have hneg : sumDiff s t = -sumDiff t s := by
      rw [sumDiff, sumDiff]
      omega
    rw [(hr.unique hq).1, (hr'.unique hq').1, hqsign, hqsign', hneg, Int.sign_neg]
  · rw [(h s hs t ht).atMost_iff] at hst
    rw [(h t ht u hu).atMost_iff] at htu
    rw [(h s hs u hu).atMost_iff]
    exact Nat.le_trans hst htu

/-- `strcmp` is the order of the sums just where the index does not overflow and the sums are near
to each other. -/
theorem strcmp_orders_iff {m : Mem} :
    (∀ s t : MemString m, SignOfSums s t ↔ Indexed s ∧ Indexed t ∧ NearSums s t) ∧
      ∀ S : Set (MemString m), OrdersBySums S ↔
        ∀ s ∈ S, ∀ t ∈ S, Indexed s ∧ Indexed t ∧ NearSums s t := by
  refine ⟨fun s t => signOfSums_iff, fun S => ⟨fun h s hs t ht => ?_, fun h => ?_⟩⟩
  · exact signOfSums_iff.mp (h.sign s hs t ht)
  · exact ordersBySums_of_sign fun s hs t ht => signOfSums_iff.mpr (h s hs t ht)

/-- 16777216 bytes `0x80`. -/
def heavyText : CString :=
  ⟨List.replicate (2 ^ 24) 0x80, fun h => absurd (List.eq_of_mem_replicate h) (by decide)⟩

def emptyText : CString := ⟨[], by decide⟩

theorem heavyText_length : heavyText.bytes.length = 2 ^ 24 := List.length_replicate

theorem heavyText_byteSum : heavyText.byteSum = 2 ^ 31 := by
  have hbytes : heavyText.bytes = List.replicate (2 ^ 24) 0x80 := rfl
  have hbyte : BitVec.toNat (0x80 : Byte) = 2 ^ 7 := by decide
  rw [CString.byteSum, hbytes, List.map_replicate, List.sum_replicate_nat, hbyte, ← Nat.pow_add]

abbrev heavyMem : Mem := ofBytes 0x1000 (heavyText.bytes ++ [0])

theorem heavyMem_holds : heavyMem.Holds 0x1000 (heavyText.bytes ++ [0]) := by
  apply holds_ofBytes
  rw [List.length_append, heavyText_length]
  decide

theorem heavyAddr_ne_zero : (0x1000 : Word) ≠ 0 := by decide

theorem heavyText_noWrap : (0x1000 : Word).toNat + heavyText.bytes.length < 2 ^ 64 := by
  rw [heavyText_length]
  decide

def heavyString : MemString heavyMem where
  addr := 0x1000
  str := heavyText
  notNull := heavyAddr_ne_zero
  noWrap := heavyText_noWrap
  held := heavyMem_holds

/-- The NUL at the end of the other. -/
def emptyString : MemString heavyMem where
  addr := 0x1000 + BitVec.ofNat 64 heavyText.bytes.length
  str := emptyText
  notNull := by
    rw [heavyText_length]
    decide
  noWrap := by
    rw [heavyText_length]
    decide
  held := (holds_append.mp heavyMem_holds).2

theorem heavy_sumDiff : sumDiff heavyString emptyString = 2 ^ 31 := by
  have hheavy : heavyString.str.byteSum = 2 ^ 31 := heavyText_byteSum
  have hempty : emptyString.str.byteSum = 0 := rfl
  rw [sumDiff, hheavy, hempty]
  rfl

/-- The difference `2 ^ 31` is a negative `int`. -/
theorem heavy_compares_less : (∃ r, Compares heavyString emptyString r ∧ r.toInt < 0) ∧
    0 < sumDiff heavyString emptyString ∧ ¬ SignOfSums heavyString emptyString := by
  have hlen : heavyString.str.bytes.length = 2 ^ 24 := heavyText_length
  have hs : Indexed heavyString := by
    rw [Indexed, hlen]
    decide
  have ht : Indexed emptyString := Nat.two_pow_pos 31
  have hdiff := heavy_sumDiff
  refine ⟨⟨_, compares_cmpResult hs ht, ?_⟩, by omega, fun h => ?_⟩
  · rw [toInt_cmpResult hs ht, hdiff]
    decide
  · have hnear := (signOfSums_iff.mp h).2.2
    rw [NearSums, hdiff] at hnear
    exact absurd hnear (by decide)

end StringC

end SkipOS
