import SkipOS.Rendering

/-! `print_unsigned_long_long_varbase` with its buffer and the `s8` that indexes it. -/

namespace SkipOS

open Exec

/-- `tmp_buff`, where elements not yet stored have no value. -/
abbrev TmpBuff := BitVec 8 → Option Byte

namespace TmpBuff

def InBuff (index : BitVec 8) : Prop := 0 ≤ index.toInt ∧ index.toInt < outbuffsize

instance : DecidablePred InBuff := fun _ => inferInstanceAs (Decidable (_ ∧ _))

def store (tmpBuff : TmpBuff) (index : BitVec 8) (c : Byte) : Printk TmpBuff :=
  if InBuff index then return Function.update tmpBuff index (some c) else throw .undefined

def load (tmpBuff : TmpBuff) (index : BitVec 8) : Printk Byte :=
  if InBuff index then
    match tmpBuff index with
    | some c => return c
    | none => throw .undefined
  else throw .undefined

/-- `index += d` for an `s8`, which must not overflow. -/
def addIndex (index : BitVec 8) (d : Int) : Printk (BitVec 8) :=
  if -128 ≤ index.toInt + d ∧ index.toInt + d ≤ 127 then
    return BitVec.ofInt 8 (index.toInt + d)
  else throw .undefined

def fillLoop (base : Byte) (cs : Case) :
    Nat → Word → BitVec 8 → TmpBuff → Printk (BitVec 8 × TmpBuff)
  | 0, _, _, _ => throw .fuel
  | fuel + 1, val, index, tmpBuff =>
    if 0 < val then do
      let tmpBuff ← tmpBuff.store index (intToChar ((val % base.setWidth 64).setWidth 8) cs)
      fillLoop base cs fuel (val / base.setWidth 64) (← addIndex index 1) tmpBuff
    else return (index, tmpBuff)

def displayLoop (tmpBuff : TmpBuff) : Nat → BitVec 8 → Printk Unit
  | 0, _ => throw .fuel
  | fuel + 1, index =>
    if 0 ≤ index.toInt then do
      displayChar (← tmpBuff.load index)
      displayLoop tmpBuff fuel (← addIndex index (-1))
    else return ()

def printUnsignedLongLongVarbase (fuel : Nat) (val : Word) (base : Byte) (cs : Case) :
    Printk Unit :=
  if val = 0 then displayChar (ch '0')
  else do
    let (index, tmpBuff) ← fillLoop base cs fuel val 0 fun _ => none
    displayLoop tmpBuff fuel (← addIndex index (-1))

/-- The elements up to the index, the newest first. -/
def Filled (tmpBuff : TmpBuff) : List Byte → Prop
  | [] => True
  | c :: l => tmpBuff (BitVec.ofNat 8 l.length) = some c ∧ Filled tmpBuff l

variable {base : Byte} {cs : Case} {val : Word} {tmpBuff : TmpBuff} {l l' : List Byte} {c : Byte}
  {s : PrintkState} {n room fuel : Nat}

theorem toInt_ofNat_of_lt (hn : n < 128) : (BitVec.ofNat 8 n).toInt = n := by
  rw [BitVec.toInt_eq_toNat_of_lt, toNat_ofNat_of_lt (by omega)]
  rw [toNat_ofNat_of_lt (by omega)]
  omega

theorem inBuff_ofNat (hn : n < outbuffsize) : InBuff (BitVec.ofNat 8 n) := by
  rw [outbuffsize] at hn
  rw [InBuff, toInt_ofNat_of_lt (by omega), outbuffsize]
  omega

theorem addIndex_one (hn : n < 127) (s : PrintkState) :
    addIndex (BitVec.ofNat 8 n) 1 s = .ok (BitVec.ofNat 8 (n + 1)) s := by
  rw [addIndex, toInt_ofNat_of_lt (by omega), if_pos (by omega)]
  rfl

theorem addIndex_neg_one (hn : n < 128) (s : PrintkState) :
    addIndex (BitVec.ofNat 8 n) (-1) s = .ok (BitVec.ofInt 8 (n - 1)) s := by
  rw [addIndex, toInt_ofNat_of_lt hn, if_pos (by omega)]
  rfl

theorem Filled.update (h : Filled tmpBuff l) (hn : l.length ≤ n) (hlt : n < 128)
    (v : Option Byte) :
    Filled (Function.update tmpBuff (BitVec.ofNat 8 n) v) l := by
  induction l with
  | nil => trivial
  | cons c l ih =>
    rw [List.length_cons] at hn
    have hne : BitVec.ofNat 8 l.length ≠ BitVec.ofNat 8 n := by bv_omega
    refine ⟨?_, ih h.2 (by omega)⟩
    rw [Function.update_of_ne hne]
    exact h.1

theorem fillLoop_zero (h : Filled tmpBuff l) (hl : l.length ≤ outbuffsize) :
    ∃ tmpBuff', fillLoop base cs (fuel + 1) 0 (BitVec.ofNat 8 l.length) tmpBuff s =
      .ok (BitVec.ofNat 8 l.length, tmpBuff') s ∧ Filled tmpBuff' l ∧
        l.length ≤ outbuffsize :=
  ⟨tmpBuff, rfl, h, hl⟩

/-- Where the digits fit into the room that is left, the buffer holds the list they give. -/
theorem fillLoop_run (hfill : fillBuff base cs room val l s = .ok l' s) (h : Filled tmpBuff l)
    (hroom : l.length + room ≤ outbuffsize) (hfuel : room ≤ fuel) :
    ∃ tmpBuff', fillLoop base cs (fuel + 1) val (BitVec.ofNat 8 l.length) tmpBuff s =
      .ok (BitVec.ofNat 8 l'.length, tmpBuff') s ∧ Filled tmpBuff' l' ∧
        l'.length ≤ outbuffsize := by
  induction room generalizing val l tmpBuff fuel with
  | zero =>
    by_cases hz : val = 0
    · rw [fillBuff, if_pos hz, pure_apply, EStateM.Result.ok.injEq] at hfill
      obtain ⟨rfl, -⟩ := hfill
      exact hz ▸ fillLoop_zero h (by omega)
    · rw [fillBuff, if_neg hz] at hfill
      simp at hfill
  | succ room ih =>
    by_cases hz : val = 0
    · rw [fillBuff, if_pos hz, pure_apply, EStateM.Result.ok.injEq] at hfill
      obtain ⟨rfl, -⟩ := hfill
      exact hz ▸ fillLoop_zero h (by omega)
    · rw [fillBuff, if_neg hz] at hfill
      have hlen : l.length < outbuffsize := by omega
      have hlen' : l.length < 64 := hlen
      have hpos : 0 < val := by bv_omega
      obtain ⟨fuel, rfl⟩ := Nat.exists_eq_succ_of_ne_zero (Nat.ne_zero_of_lt hfuel)
      have hnext : Filled (Function.update tmpBuff (BitVec.ofNat 8 l.length)
          (some (intToChar ((val % base.setWidth 64).setWidth 8) cs)))
          (intToChar ((val % base.setWidth 64).setWidth 8) cs :: l) :=
        ⟨Function.update_self .., h.update (Nat.le_refl _) (by omega) _⟩
      obtain ⟨tmpBuff', hrun, hfilled⟩ := ih hfill hnext (by rw [List.length_cons]; omega)
        (show room ≤ fuel by omega)
      refine ⟨tmpBuff', ?_, hfilled⟩
      rw [fillLoop, if_pos hpos, store, if_pos (inBuff_ofNat hlen)]
      exact (bind_of_ok (addIndex_one (by omega) s) _).trans hrun

theorem emits_displayLoop (h : Filled tmpBuff l) (hl : l.length ≤ outbuffsize)
    (hfuel : l.length ≤ fuel) :
    Emits (displayLoop tmpBuff (fuel + 1) (BitVec.ofInt 8 (l.length - 1)))
      (l.flatMap charCalls) := by
  induction l generalizing fuel with
  | nil => exact Emits.ret
  | cons c l ih =>
    rw [List.length_cons] at hl hfuel
    have hlen : l.length < outbuffsize := hl
    have hlen' : l.length < 64 := hlen
    obtain ⟨fuel, rfl⟩ := Nat.exists_eq_succ_of_ne_zero (Nat.ne_zero_of_lt hfuel)
    have hindex : BitVec.ofInt 8 ((c :: l).length - 1) = BitVec.ofNat 8 l.length := by
      rw [List.length_cons, Int.natCast_add, Int.natCast_one, Int.add_sub_cancel]
      exact BitVec.ofInt_natCast ..
    have hload : tmpBuff.load (BitVec.ofNat 8 l.length) = pure c := by
      rw [load, if_pos (inBuff_ofNat hlen), h.1]
    have hpos : 0 ≤ (BitVec.ofNat 8 l.length).toInt := by
      rw [toInt_ofNat_of_lt (by omega)]
      omega
    rw [hindex, displayLoop, if_pos hpos, hload, pure_bind, List.flatMap_cons]
    refine (emits_displayChar c).bind fun args calls => ?_
    exact (bind_of_ok (addIndex_neg_one (by omega) _) _).trans
      (ih h.2 (by omega) (Nat.le_of_succ_le_succ hfuel) args calls)

/-- The buffer and its index are those of the abstract list. -/
theorem printUnsignedLongLongVarbase_emits (hbase : 2 ≤ base.toNat) (hbase' : base.toNat ≤ 16)
    (val : Word) (hfuel : outbuffsize ≤ fuel) :
    Emits (printUnsignedLongLongVarbase (fuel + 1) val base cs)
      ((numeral (digitChar cs) base.toNat val.toNat).flatMap charCalls) := by
  have habstract := emits_printUnsignedLongLongVarbase base hbase hbase' val cs
  by_cases hz : val = 0
  · rw [SkipOS.printUnsignedLongLongVarbase, if_pos hz] at habstract
    rw [printUnsignedLongLongVarbase, if_pos hz]
    exact habstract
  · have hpos : 0 < val.toNat := Nat.pos_of_ne_zero fun he => hz (BitVec.eq_of_toNat_eq he)
    have hval : val.toNat < base.toNat ^ outbuffsize :=
      Nat.lt_of_lt_of_le val.isLt (Nat.pow_le_pow_left hbase 64)
    rw [printUnsignedLongLongVarbase, if_neg hz, numeral_of_pos hpos]
    intro args calls
    have hfill : fillBuff base cs outbuffsize val [] ⟨args, calls⟩ =
        .ok (leadingDigits (digitChar cs) base.toNat val.toNat ++ []) ⟨args, calls⟩ :=
      fillBuff_run hbase hbase' hval _
    rw [List.append_nil] at hfill
    have hempty : Filled (fun _ => none) [] := trivial
    obtain ⟨tmpBuff, hrun, hfilled, hlen⟩ := fillLoop_run hfill hempty (Nat.le_refl _) hfuel
    have hlen' : _ ≤ 64 := hlen
    refine (bind_of_ok hrun _).trans ?_
    exact (bind_of_ok (addIndex_neg_one (by omega) _) _).trans
      (emits_displayLoop hfilled hlen (hlen.trans hfuel) args calls)

/-- The value of a digit of the base. Other characters have none. -/
def digitValue (cs : Case) (base : Nat) (c : Byte) : Option Nat :=
  (List.range base).find? fun d => digitChar cs d = c

example : digitValue .lowercase 10 (ch '7') = some 7 ∧ digitValue .lowercase 10 (ch ' ') = none ∧
    digitValue .lowercase 2 (ch '3') = none := by
  decide

theorem digitChar_injOn : Set.InjOn (digitChar cs) {d | d < 16} := by
  have h : ∀ d < 16, ∀ e < 16, (digitChar .uppercase d = digitChar .uppercase e → d = e) ∧
      (digitChar .lowercase d = digitChar .lowercase e → d = e) := by decide
  intro d hd e he
  cases cs with
  | uppercase => exact (h d hd e he).1
  | lowercase => exact (h d hd e he).2

theorem digitValue_digitChar {b d : Nat} (hb : b ≤ 16) (hd : d < b) :
    digitValue cs b (digitChar cs d) = some d := by
  rw [digitValue, List.find?_range_eq_some]
  refine ⟨by simp, List.mem_range.mpr hd, fun e he => ?_⟩
  have hne : digitChar cs e ≠ digitChar cs d := fun heq =>
    absurd (digitChar_injOn (show e < 16 by omega) (show d < 16 by omega) heq) (by omega)
  simpa using hne

/-- The code returns with the digits displayed and sent. It has indexed the buffer inside its
bounds, and the index has not overflowed. -/
structure Prints (base : Byte) (cs : Case) (val : Word) (digits : List Byte) : Prop where
  returns : ∀ s, Returns (fun fuel => printUnsignedLongLongVarbase fuel val base cs) s ()
    ⟨s.args, s.calls ++ digits.flatMap charCalls⟩
  nonempty : digits ≠ []
  all_digits : ∀ c ∈ digits, ∃ d < base.toNat, c = digitChar cs d
  no_leading_zero : val ≠ 0 → digits.head? ≠ some (ch '0')
  reads_back : readNumeral (digitValue cs base.toNat) base.toNat digits = some val.toNat

theorem prints_numeral (cs : Case) (hbase : 2 ≤ base.toNat) (hbase' : base.toNat ≤ 16)
    (val : Word) : Prints base cs val (numeral (digitChar cs) base.toNat val.toNat) where
  returns s := by
    refine ⟨outbuffsize + 1, fun fuel hfuel => ?_⟩
    obtain ⟨fuel, rfl⟩ := Nat.exists_eq_succ_of_ne_zero (Nat.ne_zero_of_lt hfuel)
    exact printUnsignedLongLongVarbase_emits hbase hbase' val (Nat.le_of_succ_le_succ hfuel) _ _
  nonempty := numeral_ne_nil _ _ _
  all_digits _ := mem_numeral hbase
  no_leading_zero hz :=
    numeral_no_leading_zero hbase hbase' fun he => hz (BitVec.eq_of_toNat_eq he)
  reads_back := readNumeral_numeral hbase (fun _ => digitValue_digitChar hbase') _

/-- What is displayed is a numeral of the value, and tells it from all others. -/
theorem varbase_prints {base : Byte} (cs : Case) (hbase : 2 ≤ base.toNat)
    (hbase' : base.toNat ≤ 16) :
    (∀ val, ∃ digits, Prints base cs val digits) ∧
      ∀ val val' s t t', val ≠ val' →
        Returns (fun fuel => printUnsignedLongLongVarbase fuel val base cs) s () t →
        Returns (fun fuel => printUnsignedLongLongVarbase fuel val' base cs) s () t' →
        displayed t.calls ≠ displayed t'.calls ∧ offered t.calls ≠ offered t'.calls := by
  refine ⟨fun val => ⟨_, prints_numeral cs hbase hbase' val⟩, ?_⟩
  intro val val' s t t' hne ht ht'
  have hp := prints_numeral cs hbase hbase' val
  have hp' := prints_numeral cs hbase hbase' val'
  have hdigits : numeral (digitChar cs) base.toNat val.toNat ≠
      numeral (digitChar cs) base.toNat val'.toNat := by
    intro he
    have hread := hp.reads_back
    rw [he, hp'.reads_back, Option.some.injEq] at hread
    exact hne (BitVec.eq_of_toNat_eq hread.symm)
  rw [(ht.unique (hp.returns s)).2, (ht'.unique (hp'.returns s)).2, displayed_append,
    displayed_append, offered_append, offered_append, (outputs_charCalls _).1,
    (outputs_charCalls _).1, (outputs_charCalls _).2, (outputs_charCalls _).2]
  exact ⟨fun he => hdigits (List.append_cancel_left he),
    fun he => hdigits (List.append_cancel_left he)⟩

theorem varbase_prints_binary :
    (∀ val, ∃ digits, Prints 2 .lowercase val digits) ∧
      ∀ val val' s t t', val ≠ val' →
        Returns (fun fuel => printUnsignedLongLongVarbase fuel val 2 .lowercase) s () t →
        Returns (fun fuel => printUnsignedLongLongVarbase fuel val' 2 .lowercase) s () t' →
        displayed t.calls ≠ displayed t'.calls ∧ offered t.calls ≠ offered t'.calls :=
  varbase_prints .lowercase (by decide) (by decide)

end TmpBuff

end SkipOS
