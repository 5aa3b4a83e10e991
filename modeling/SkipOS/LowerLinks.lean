import SkipOS.BootInfo

/-! The links of the lower pages, byte by byte: page `k` of `n` points to the pages before and
after it, and page 0 is the head. -/

namespace SkipOS

open Mem Exec

variable {m : Mem} {a lowerLength : Word} {k n i : Nat}

/-- The link words of the first `n` pages. -/
def InLinks (n : Nat) (a : Word) : Prop := a.toNat / 4096 < n ∧ a.toNat % 4096 < 16

instance (n : Nat) (a : Word) : Decidable (InLinks n a) := inferInstanceAs (Decidable (_ ∧ _))

/-- The number of the page that the link word at `a` points to. -/
def linkedPage (n : Nat) (a : Word) : Nat :=
  if a.toNat % 4096 < 8 then (a.toNat / 4096 + 1) % n else (a.toNat / 4096 + n - 1) % n

def linkByte (n : Nat) (a : Word) : Byte :=
  BitVec.ofNat 8 (4096 * linkedPage n a / 256 ^ (a.toNat % 8))

theorem loadLE_digit (m : Mem) (a : Word) (hi : i < n) :
    m (a + BitVec.ofNat 64 i) = BitVec.ofNat 8 (m.loadLE a n / 256 ^ i) := by
  induction n generalizing a i with
  | zero => omega
  | succ n ih =>
    have hb := (m a).isLt
    cases i with
    | zero =>
      apply BitVec.eq_of_toNat_eq
      simp only [loadLE, BitVec.toNat_ofNat, Nat.pow_zero, Nat.div_one, BitVec.add_zero]
      omega
    | succ i =>
      have hstep : a + BitVec.ofNat 64 (i + 1) = a + 1 + BitVec.ofNat 64 i := by bv_omega
      have hdiv : m.loadLE a (n + 1) / 256 ^ (i + 1) = m.loadLE (a + 1) n / 256 ^ i := by
        rw [Nat.pow_succ', ← Nat.div_div_eq_div_mul, loadLE]
        congr 1
        omega
      rw [hstep, hdiv]
      exact ih (a + 1) (by omega)

theorem load64_digit (m : Mem) (a : Word) (hi : i < 8) :
    m (a + BitVec.ofNat 64 i) = BitVec.ofNat 8 ((m.load64 a).toNat / 256 ^ i) := by
  have hlt : m.loadLE a 8 < 2 ^ 64 := m.loadLE_lt a 8
  rw [loadLE_digit m a hi, load64, toNat_ofNat_of_lt hlt]

theorem pagesFrom_getElem? (b : Word) (hk : k < n) :
    (pagesFrom b n)[k]? = some (b + BitVec.ofNat 64 (4096 * k)) := by
  induction n generalizing b k with
  | zero => omega
  | succ n ih =>
    cases k with
    | zero => simp [pagesFrom]
    | succ k =>
      have he : b + pageSize + BitVec.ofNat 64 (4096 * k) =
          b + BitVec.ofNat 64 (4096 * (k + 1)) := by
        rw [pageSize]
        bv_omega
      rw [pagesFrom, List.getElem?_cons_succ, ih (b + pageSize) (by omega), he]

theorem cons_lowerPages (h : 4096 ≤ lowerLength.toNat) :
    0 :: lowerPages lowerLength = pagesFrom 0 (lowerLength.toNat / 4096) := by
  obtain ⟨n, hn⟩ : ∃ n, lowerLength.toNat / 4096 = n + 1 := ⟨lowerLength.toNat / 4096 - 1, by omega⟩
  rw [lowerPages, hn, pagesFrom, Nat.add_sub_cancel]
  simp

/-- Page `k` of a chain of `n` pages that comes back to page 0. -/
def pageAt (k : Nat) : Word := BitVec.ofNat 64 (4096 * k)

theorem lowerChain_getElem? (h : 4096 ≤ lowerLength.toNat) (hk : k ≤ lowerLength.toNat / 4096) :
    (0 :: lowerPages lowerLength ++ [0])[k]? =
      some (pageAt (k % (lowerLength.toNat / 4096))) := by
  have hlen : (pagesFrom 0 (lowerLength.toNat / 4096)).length = lowerLength.toNat / 4096 :=
    length_pagesFrom 0 _
  rw [cons_lowerPages h]
  rcases Nat.lt_or_eq_of_le hk with hlt | rfl
  · rw [List.getElem?_append_left (by omega), pagesFrom_getElem? 0 hlt, Nat.mod_eq_of_lt hlt]
    simp [pageAt]
  · rw [List.getElem?_append_right (by omega), hlen, Nat.sub_self, Nat.mod_self]
    rfl

theorem LlRing.linked (hr : LlRing m (lowerPages lowerLength)) (h : 4096 ≤ lowerLength.toNat)
    (hk : k < lowerLength.toNat / 4096) :
    llNext m (pageAt k) = pageAt ((k + 1) % (lowerLength.toNat / 4096)) ∧
      llPrev m (pageAt ((k + 1) % (lowerLength.toNat / 4096))) = pageAt k := by
  have hk₀ := lowerChain_getElem? h (Nat.le_of_lt hk)
  have hk₁ := lowerChain_getElem? h hk
  rw [Nat.mod_eq_of_lt hk] at hk₀
  obtain ⟨hlt₀, he₀⟩ := List.getElem?_eq_some_iff.mp hk₀
  obtain ⟨hlt₁, he₁⟩ := List.getElem?_eq_some_iff.mp hk₁
  have hl := List.isChain_iff_getElem.mp hr k hlt₁
  rw [he₀, he₁] at hl
  exact hl

theorem toNat_pageAt (hk : k < lowerLength.toNat / 4096) : (pageAt k).toNat = 4096 * k := by
  have hl := lowerLength.isLt
  rw [pageAt, toNat_ofNat_of_lt (by omega)]

theorem eq_pageAt_add (a : Word) :
    a = pageAt (a.toNat / 4096) + BitVec.ofNat 64 (a.toNat % 4096) := by
  apply BitVec.eq_of_toNat_eq
  have ha := a.isLt
  rw [pageAt, BitVec.toNat_add, BitVec.toNat_ofNat, BitVec.toNat_ofNat]
  omega

/-- The ring of the lower pages decides every byte of the link words. -/
theorem LlRing.linkByte (hr : LlRing m (lowerPages lowerLength)) (h : 4096 ≤ lowerLength.toNat)
    (ha : InLinks (lowerLength.toNat / 4096) a) :
    m a = SkipOS.linkByte (lowerLength.toNat / 4096) a := by
  obtain ⟨hk, hj⟩ := ha
  have hsplit := eq_pageAt_add a
  have hpos : 0 < lowerLength.toNat / 4096 := by omega
  by_cases hnext : a.toNat % 4096 < 8
  · have hload : m.load64 (pageAt (a.toNat / 4096)) =
        pageAt ((a.toNat / 4096 + 1) % (lowerLength.toNat / 4096)) := by
      have hn := (hr.linked h hk).1
      simpa [llNext, field] using hn
    have hdigit := load64_digit m (pageAt (a.toNat / 4096)) hnext
    rw [← hsplit, hload, toNat_pageAt (Nat.mod_lt _ hpos)] at hdigit
    have hmod : a.toNat % 8 = a.toNat % 4096 := by omega
    rw [hdigit, SkipOS.linkByte, linkedPage, if_pos hnext, hmod]
  · have hback : ((a.toNat / 4096 + lowerLength.toNat / 4096 - 1) % (lowerLength.toNat / 4096) +
        1) % (lowerLength.toNat / 4096) = a.toNat / 4096 := by
      rw [Nat.mod_add_mod, Nat.sub_add_cancel (by omega), Nat.add_mod_right, Nat.mod_eq_of_lt hk]
    have hload : m.load64 (pageAt (a.toNat / 4096) + 8) =
        pageAt ((a.toNat / 4096 + lowerLength.toNat / 4096 - 1) % (lowerLength.toNat / 4096)) := by
      have hp := (hr.linked (k := (a.toNat / 4096 + lowerLength.toNat / 4096 - 1) %
        (lowerLength.toNat / 4096)) h (Nat.mod_lt _ hpos)).2
      rwa [hback] at hp
    have hoff : pageAt (a.toNat / 4096) + 8 + BitVec.ofNat 64 (a.toNat % 4096 - 8) = a := by
      conv_rhs => rw [hsplit]
      bv_omega
    have hdigit := load64_digit (i := a.toNat % 4096 - 8) m (pageAt (a.toNat / 4096) + 8) (by omega)
    rw [hoff, hload, toNat_pageAt (Nat.mod_lt _ hpos)] at hdigit
    have hmod : a.toNat % 8 = a.toNat % 4096 - 8 := by omega
    rw [hdigit, SkipOS.linkByte, linkedPage, if_neg hnext, hmod]

end SkipOS
