import Mathlib.Data.Nat.Digits.Lemmas

/-! Positional numerals, most significant digit first and without leading zeros. -/

variable {α : Type} {digit : Nat → α} {base n : Nat}

/-- The digits of a positive number, most significant first. -/
def leadingDigits (digit : Nat → α) (base n : Nat) : List α :=
  (Nat.digits base n).reverse.map digit

def numeral (digit : Nat → α) (base n : Nat) : List α :=
  if n = 0 then [digit 0] else leadingDigits digit base n

/-- The number that digits with these values write in the base, if all of them have one. -/
def readNumeral (value : α → Option Nat) (base : Nat) (digits : List α) : Option Nat :=
  digits.foldlM (fun n d => (value d).map (n * base + ·)) 0

@[simp] theorem leadingDigits_zero : leadingDigits digit base 0 = [] := by
  simp [leadingDigits]

/-- The last digit is the remainder, and the others write the quotient. -/
theorem leadingDigits_of_pos (hbase : 1 < base) (hn : 0 < n) :
    leadingDigits digit base n = leadingDigits digit base (n / base) ++ [digit (n % base)] := by
  simp [leadingDigits, Nat.digits_def' hbase hn]

theorem numeral_of_pos (hn : 0 < n) : numeral digit base n = leadingDigits digit base n :=
  if_neg (by omega)

/-- A numeral of more than one digit does not start with a zero. -/
theorem numeral_head_ne (hbase : 1 < base) (hn : n ≠ 0)
    (hdigit : ∀ d < base, digit d = digit 0 → d = 0) :
    (numeral digit base n).head? ≠ some (digit 0) := by
  have hnil : Nat.digits base n ≠ [] := Nat.digits_ne_nil_iff_ne_zero.mpr hn
  have hlast := Nat.getLast_digit_ne_zero base hn
  have hlt : (Nat.digits base n).getLast hnil < base :=
    Nat.digits_lt_base hbase (List.getLast_mem hnil)
  rw [numeral_of_pos (by omega), leadingDigits, List.head?_map, List.head?_reverse,
    List.getLast?_eq_some_getLast hnil, Option.map_some]
  intro h
  exact hlast (hdigit _ hlt (Option.some_inj.mp h))

theorem numeral_ne_nil (digit : Nat → α) (base n : Nat) : numeral digit base n ≠ [] := by
  by_cases hn : n = 0
  · simp [numeral, hn]
  · simp [numeral, leadingDigits, hn, Nat.digits_ne_nil_iff_ne_zero.mpr hn]

theorem mem_leadingDigits (hbase : 1 < base) {c : α} (hc : c ∈ leadingDigits digit base n) :
    ∃ d < base, c = digit d := by
  obtain ⟨d, hd, rfl⟩ := List.mem_map.mp hc
  exact ⟨d, Nat.digits_lt_base hbase (List.mem_reverse.mp hd), rfl⟩

theorem mem_numeral (hbase : 1 < base) {c : α} (hc : c ∈ numeral digit base n) :
    ∃ d < base, c = digit d := by
  rcases Nat.eq_zero_or_pos n with rfl | hn
  · exact ⟨0, by omega, List.mem_singleton.mp hc⟩
  · rw [numeral_of_pos hn] at hc
    exact mem_leadingDigits hbase hc

theorem readNumeral_leadingDigits {value : α → Option Nat} (hbase : 1 < base)
    (h : ∀ d < base, value (digit d) = some d) (n : Nat) :
    readNumeral value base (leadingDigits digit base n) = some n := by
  induction n using Nat.strongRecOn with
  | ind n ih =>
    rcases Nat.eq_zero_or_pos n with rfl | hn
    · rw [leadingDigits_zero]
      rfl
    · have hlast := h (n % base) (Nat.mod_lt n (by omega))
      have hquot := ih (n / base) (Nat.div_lt_self hn hbase)
      rw [readNumeral] at hquot
      rw [leadingDigits_of_pos hbase hn, readNumeral, List.foldlM_append, hquot]
      simp [hlast, Nat.div_add_mod']

theorem readNumeral_numeral {value : α → Option Nat} (hbase : 1 < base)
    (h : ∀ d < base, value (digit d) = some d) (n : Nat) :
    readNumeral value base (numeral digit base n) = some n := by
  rcases Nat.eq_zero_or_pos n with rfl | hn
  · have hzero := h 0 (by omega)
    simp [numeral, readNumeral, hzero]
  · rw [numeral_of_pos hn, readNumeral_leadingDigits hbase h]
