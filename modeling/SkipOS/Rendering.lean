import SkipOS.Directive

/-! What `printk` shows and sends: item by item, and up to the first directive it does not know. -/

namespace SkipOS

open Exec

/-- The characters given to `VGA_display_char`. -/
def displayed (calls : List PrintCall) : List Byte :=
  calls.flatMap fun
    | .vgaDisplayChar c => [c]
    | .serWrite _ => []

/-- The bytes offered to `SER_write`. -/
def offered (calls : List PrintCall) : List Byte :=
  calls.flatMap fun
    | .vgaDisplayChar _ => []
    | .serWrite buff => buff

/-- The calls of `display_char`. -/
def charCalls (c : Byte) : List PrintCall := [.vgaDisplayChar c, .serWrite [c]]

/-- The calls of `display_str`. -/
def strCalls (s : CString) : List PrintCall :=
  s.bytes.map .vgaDisplayChar ++ [.serWrite (s.bytes ++ [0])]

def Item.calls : Item → List PrintCall
  | .str s _ => strCalls s
  | .ptr p => strCalls hexPrefix ++
      (numeral (digitChar .uppercase) 16 p.toNat).flatMap charCalls
  | item => item.shown.flatMap charCalls

/-- A part of `printk` that takes no argument and makes the calls `made`. -/
def Emits (x : Printk Unit) (made : List PrintCall) : Prop :=
  ∀ args calls, x ⟨args, calls⟩ = .ok () ⟨args, calls ++ made⟩

variable {x y : Printk Unit} {made made' calls l l' : List PrintCall} {args : List Arg}
  {c d : Byte} {cs : Case} {base : Byte} {s : CString} {fmt rest : List Byte} {items : List Item}

theorem Emits.ret : Emits (pure ()) [] := by
  intro args calls
  simp

theorem Emits.bind (hx : Emits x made) (hy : Emits y made') : Emits (x >>= fun _ => y)
    (made ++ made') := by
  intro args calls
  rw [bind_of_ok (hx args calls), hy, List.append_assoc]

theorem emits_call (c : PrintCall) : Emits (call c) [c] := fun _ _ => rfl

theorem emits_displayChar (c : Byte) : Emits (displayChar c) (charCalls c) :=
  (emits_call _).bind (emits_call _)

theorem emits_vgaDisplayStrLoop {n k : Nat} (hk : k ≤ s.bytes.length)
    (hn : s.bytes.length < k + n) (hs : s.bytes.length < 2 ^ 16) :
    Emits (vgaDisplayStrLoop s n (BitVec.ofNat 16 k))
      ((s.bytes.drop k).map .vgaDisplayChar) := by
  induction n generalizing k with
  | zero => omega
  | succ n ih =>
    have hidx : (BitVec.ofNat 16 k).toNat = k := toNat_ofNat_of_lt (by omega)
    rw [vgaDisplayStrLoop, hidx]
    rcases Nat.lt_or_eq_of_le hk with hlt | rfl
    · have hat : s.at k = s.bytes[k] := CString.at_eq_getElem hlt
      have hne : s.at k ≠ 0 := fun hz => Nat.not_le_of_lt hlt (CString.at_eq_zero_iff.mp hz)
      rw [if_neg hne, ofNat_add_one, hat, List.drop_eq_getElem_cons hlt, List.map_cons]
      exact (emits_call _).bind (ih (by omega) (by omega))
    · have hat : s.at s.bytes.length = 0 := CString.at_eq_zero_iff.mpr (Nat.le_refl _)
      rw [if_pos hat, List.drop_length, List.map_nil]
      exact Emits.ret

theorem emits_displayStr (hs : s.bytes.length < 2 ^ 16) :
    Emits (displayStr (some s)) (strCalls s) := by
  have hloop := emits_vgaDisplayStrLoop (Nat.zero_le _) (n := 2 ^ 16) (by omega) hs
  exact hloop.bind (emits_call _)

/-! Numbers. -/

theorem intToChar_eq {n : Nat} (hn : n < 16) (cs : Case) :
    intToChar (BitVec.ofNat 8 n) cs = digitChar cs n := by
  have h : ∀ n < 16, intToChar (BitVec.ofNat 8 n) .uppercase = digitChar .uppercase n ∧
      intToChar (BitVec.ofNat 8 n) .lowercase = digitChar .lowercase n := by decide
  cases cs with
  | uppercase => exact (h n hn).1
  | lowercase => exact (h n hn).2

/-- The loop writes the digits of `val` from the right, in front of what stands in the buffer. -/
theorem fillBuff_run {room : Nat} {val : Word} {tmpBuff : List Byte} (hbase : 1 < base.toNat)
    (hbase' : base.toNat ≤ 16) (hval : val.toNat < base.toNat ^ room) (s : PrintkState) :
    fillBuff base cs room val tmpBuff s =
      .ok (leadingDigits (digitChar cs) base.toNat val.toNat ++ tmpBuff) s := by
  induction room generalizing val tmpBuff with
  | zero =>
    have hz : val = 0 := BitVec.eq_of_toNat_eq (by simpa using hval)
    simp [fillBuff, hz]
  | succ room ih =>
    by_cases hz : val = 0
    · simp [fillBuff, hz]
    · have hpos : 0 < val.toNat := Nat.pos_of_ne_zero fun he => hz (BitVec.eq_of_toNat_eq he)
      have hb : (base.setWidth 64).toNat = base.toNat := by
        rw [BitVec.toNat_setWidth, Nat.mod_eq_of_lt (by omega)]
      have hquot : (val / base.setWidth 64).toNat = val.toNat / base.toNat := by
        rw [BitVec.toNat_udiv, hb]
      have hmod := Nat.mod_lt val.toNat (show 0 < base.toNat by omega)
      have hrem : (val % base.setWidth 64).setWidth 8 =
          BitVec.ofNat 8 (val.toNat % base.toNat) := by
        apply BitVec.eq_of_toNat_eq
        rw [BitVec.toNat_setWidth, BitVec.toNat_umod, hb, BitVec.toNat_ofNat]
      have hlt : val.toNat / base.toNat < base.toNat ^ room :=
        Nat.div_lt_of_lt_mul (by rwa [Nat.pow_succ'] at hval)
      rw [fillBuff, if_neg hz, hrem, intToChar_eq (by omega), ih (by rwa [hquot]), hquot,
        leadingDigits_of_pos hbase hpos, List.append_assoc, List.singleton_append]

theorem emits_displayBuff (l : List Byte) : Emits (displayBuff l) (l.flatMap charCalls) := by
  induction l with
  | nil => exact Emits.ret
  | cons c l ih => exact (emits_displayChar c).bind ih

theorem emits_printUnsignedLongLongVarbase (base : Byte) (hbase : 1 < base.toNat)
    (hbase' : base.toNat ≤ 16) (val : Word) (cs : Case) :
    Emits (printUnsignedLongLongVarbase val base cs)
      ((numeral (digitChar cs) base.toNat val.toNat).flatMap charCalls) := by
  by_cases hz : val = 0
  · have hzero : ch '0' = digitChar cs 0 := by cases cs <;> rfl
    rw [printUnsignedLongLongVarbase, if_pos hz, hz, hzero]
    simpa [numeral] using emits_displayChar (digitChar cs 0)
  · have hpos : 0 < val.toNat := Nat.pos_of_ne_zero fun he => hz (BitVec.eq_of_toNat_eq he)
    have hval : val.toNat < base.toNat ^ outbuffsize :=
      Nat.lt_of_lt_of_le val.isLt (Nat.pow_le_pow_left hbase 64)
    rw [printUnsignedLongLongVarbase, if_neg hz, numeral_of_pos hpos]
    intro args calls
    rw [bind_of_ok (fillBuff_run hbase hbase' hval _), List.append_nil, emits_displayBuff]

theorem emits_printUnsignedLongLong (val : Word) : Emits (printUnsignedLongLong val)
    ((NumFormat.unsigned.render val).flatMap charCalls) :=
  emits_printUnsignedLongLongVarbase 10 (by decide) (by decide) val .lowercase

theorem emits_printHexLongLong (val : Word) (cs : Case) : Emits (printHexLongLong val cs)
    ((numeral (digitChar cs) 16 val.toNat).flatMap charCalls) :=
  emits_printUnsignedLongLongVarbase 16 (by decide) (by decide) val cs

/-- `val * -1` is the distance from zero, also for the least number. -/
theorem toNat_mul_neg_one {val : Word} (h : val.toInt < 0) :
    (val * -1).toNat = val.toInt.natAbs := by
  have hn : val * -1 = -val := by
    rw [BitVec.mul_neg]
    simp
  rw [hn, BitVec.toNat_neg]
  rw [BitVec.toInt_eq_toNat_cond] at h ⊢
  have := val.isLt
  split at h <;> omega

theorem emits_printLongLong (val : Word) : Emits (printLongLong val)
    ((NumFormat.signed.render val).flatMap charCalls) := by
  have hslt : val.slt 0 = true ↔ val.toInt < 0 := by
    rw [BitVec.slt_iff_toInt_lt]
    rfl
  by_cases hneg : val.toInt < 0
  · rw [printLongLong, if_pos (hslt.mpr hneg), NumFormat.render, if_pos hneg,
      ← toNat_mul_neg_one hneg, List.flatMap_append]
    exact (emits_displayChar _).bind (emits_printUnsignedLongLong _)
  · have hnat : val.toInt.natAbs = val.toNat := by
      rw [BitVec.toInt_eq_toNat_cond] at hneg ⊢
      have := val.isLt
      split at hneg <;> omega
    rw [printLongLong, if_neg fun h => hneg (hslt.mp h), NumFormat.render, if_neg hneg, hnat,
      List.nil_append]
    exact emits_printUnsignedLongLong _

theorem render_widened {w : Nat} (hw : w ≤ 64) (v : BitVec w) :
    NumFormat.signed.render (v.signExtend 64) = NumFormat.signed.render v ∧
      NumFormat.unsigned.render (v.setWidth 64) = NumFormat.unsigned.render v ∧
      numeral (digitChar .lowercase) 16 (v.setWidth 64).toNat = NumFormat.hex.render v := by
  have hs : (v.signExtend 64).toInt = v.toInt := BitVec.toInt_signExtend_of_le hw
  have hu : (v.setWidth 64).toNat = v.toNat := BitVec.toNat_setWidth_of_le hw
  simp only [NumFormat.render, hs, hu, and_self]

/-! Directives with their arguments. -/

/-- A part of `printk` that takes the arguments `taken` and makes the calls `made`. -/
def Consumes (x : Printk Unit) (taken : List Arg) (made : List PrintCall) : Prop :=
  ∀ args calls, x ⟨taken ++ args, calls⟩ = .ok () ⟨args, calls ++ made⟩

theorem Emits.consumes (h : Emits x made) : Consumes x [] made := h

theorem consumes_int {f : BitVec 32 → Printk Unit} {v : BitVec 32} (h : Emits (f v) made) :
    Consumes (vaInt >>= f) [.int v] made := h

theorem consumes_long {f : Word → Printk Unit} {v : Word} (h : Emits (f v) made) :
    Consumes (vaLong >>= f) [.long v] made := h

theorem consumes_ptr {f : Word → Printk Unit} {p : Word} (h : Emits (f p) made) :
    Consumes (vaPtr >>= f) [.ptr p] made := h

theorem consumes_str {f : Option CString → Printk Unit} (h : Emits (f (some s)) made) :
    Consumes (vaStr >>= f) [.str (some s)] made := h

theorem consumes_shortDirective (f : NumFormat) (v : BitVec 32) :
    Consumes (shortDirective f.letter) [.int v]
      ((f.render (v.setWidth 16 : BitVec 16)).flatMap charCalls) := by
  obtain ⟨hs, hu, hx⟩ := render_widened (by decide) (v.setWidth 16 : BitVec 16)
  cases f with
  | signed => exact consumes_int (hs ▸ emits_printLongLong _)
  | unsigned => exact consumes_int (hu ▸ emits_printUnsignedLongLong _)
  | hex => exact consumes_int (hx ▸ emits_printHexLongLong _ .lowercase)

theorem consumes_intDirective (f : NumFormat) (v : BitVec 32) :
    Consumes (directive f.letter) [.int v] ((f.render v).flatMap charCalls) := by
  obtain ⟨hs, hu, hx⟩ := render_widened (by decide) v
  cases f with
  | signed => exact consumes_int (hs ▸ emits_printLongLong _)
  | unsigned => exact consumes_int (hu ▸ emits_printUnsignedLongLong _)
  | hex => exact consumes_int (hx ▸ emits_printHexLongLong _ .lowercase)

theorem consumes_longDirective (f : NumFormat) (v : Word) :
    Consumes (longDirective f.letter) [.long v] ((f.render v).flatMap charCalls) := by
  cases f with
  | signed => exact consumes_long (emits_printLongLong v)
  | unsigned => exact consumes_long (emits_printUnsignedLongLong v)
  | hex => exact consumes_long (emits_printHexLongLong v .lowercase)

theorem consumes_longLongDirective (f : NumFormat) (v : Word) :
    Consumes (longLongDirective f.letter) [.long v] ((f.render v).flatMap charCalls) := by
  cases f with
  | signed => exact consumes_long (emits_printLongLong v)
  | unsigned => exact consumes_long (emits_printUnsignedLongLong v)
  | hex => exact consumes_long (emits_printHexLongLong v .lowercase)

theorem Consumes.run {taken args : List Arg} (h : Consumes x taken made) (y : Printk Unit) :
    (x >>= fun _ => y) ⟨taken ++ args, calls⟩ = y ⟨args, calls ++ made⟩ :=
  bind_of_ok (h args calls) _

theorem printkLoop_literal (hc : c ≠ ch '%') (fmt : List Byte) :
    printkLoop (c :: fmt) = displayChar c >>= fun _ => printkLoop fmt := by
  rw [printkLoop.eq_def]
  exact if_pos hc

theorem printkLoop_directive (hd : ¬ (d = ch 'h' ∨ d = ch 'l' ∨ d = ch 'q')) (fmt : List Byte) :
    printkLoop (ch '%' :: d :: fmt) = directive d >>= fun _ => printkLoop fmt := by
  rw [printkLoop.eq_def]
  exact if_neg hd

theorem printkLoop_short (c : Byte) (fmt : List Byte) :
    printkLoop (ch '%' :: ch 'h' :: c :: fmt) = shortDirective c >>= fun _ => printkLoop fmt :=
  rfl

theorem printkLoop_long (c : Byte) (fmt : List Byte) :
    printkLoop (ch '%' :: ch 'l' :: c :: fmt) = longDirective c >>= fun _ => printkLoop fmt :=
  rfl

theorem printkLoop_longLong (c : Byte) (fmt : List Byte) :
    printkLoop (ch '%' :: ch 'q' :: c :: fmt) = longLongDirective c >>= fun _ => printkLoop fmt :=
  rfl

theorem letter_not_modifier (f : NumFormat) :
    ¬ (f.letter = ch 'h' ∨ f.letter = ch 'l' ∨ f.letter = ch 'q') := by
  cases f <;> decide

theorem consumes_directive_char (v : BitVec 32) :
    Consumes (directive (ch 'c')) [.int v] (charCalls (v.setWidth 8)) :=
  consumes_int (f := fun v => printChar (v.setWidth 8)) (emits_displayChar _)

theorem consumes_directive_str (hs : s.bytes.length < 2 ^ 16) :
    Consumes (directive (ch 's')) [.str (some s)] (strCalls s) :=
  consumes_str (f := printStr) (emits_displayStr hs)

theorem consumes_directive_ptr (p : Word) : Consumes (directive (ch 'p')) [.ptr p]
    (strCalls hexPrefix ++ (numeral (digitChar .uppercase) 16 p.toNat).flatMap charCalls) := by
  have hprefix : hexPrefix.bytes.length < 2 ^ 16 := by decide
  exact consumes_ptr (f := printPtr)
    ((emits_displayStr hprefix).bind (emits_printHexLongLong p .uppercase))

/-- An item of the format is worked off, and the loop goes on behind it. -/
theorem printkLoop_item (item : Item) :
    printkLoop (item.text ++ fmt) ⟨item.args ++ args, calls⟩ =
      printkLoop fmt ⟨args, calls ++ item.calls⟩ := by
  cases item with
  | literal c hc =>
    show printkLoop (c :: fmt) ⟨[] ++ args, calls⟩ = _
    rw [printkLoop_literal hc, (emits_displayChar c).consumes.run]
    rfl
  | percent =>
    show printkLoop (ch '%' :: ch '%' :: fmt) ⟨[] ++ args, calls⟩ = _
    rw [printkLoop_directive (by decide)]
    exact (emits_displayChar (ch '%')).consumes.run _
  | char v =>
    show printkLoop (ch '%' :: ch 'c' :: fmt) ⟨[.int v] ++ args, calls⟩ = _
    rw [printkLoop_directive (by decide), (consumes_directive_char v).run]
    rfl
  | str s hs =>
    show printkLoop (ch '%' :: ch 's' :: fmt) ⟨[.str (some s)] ++ args, calls⟩ = _
    rw [printkLoop_directive (by decide), (consumes_directive_str hs).run]
    rfl
  | ptr p =>
    show printkLoop (ch '%' :: ch 'p' :: fmt) ⟨[.ptr p] ++ args, calls⟩ = _
    rw [printkLoop_directive (by decide), (consumes_directive_ptr p).run]
    rfl
  | short f v =>
    show printkLoop (ch '%' :: ch 'h' :: f.letter :: fmt) ⟨[.int v] ++ args, calls⟩ = _
    rw [printkLoop_short, (consumes_shortDirective f v).run]
    rfl
  | int f v =>
    show printkLoop (ch '%' :: f.letter :: fmt) ⟨[.int v] ++ args, calls⟩ = _
    rw [printkLoop_directive (letter_not_modifier f), (consumes_intDirective f v).run]
    rfl
  | long f v =>
    show printkLoop (ch '%' :: ch 'l' :: f.letter :: fmt) ⟨[.long v] ++ args, calls⟩ = _
    rw [printkLoop_long, (consumes_longDirective f v).run]
    rfl
  | longLong f v =>
    show printkLoop (ch '%' :: ch 'q' :: f.letter :: fmt) ⟨[.long v] ++ args, calls⟩ = _
    rw [printkLoop_longLong, (consumes_longLongDirective f v).run]
    rfl

theorem printkLoop_items (items : List Item) (args : List Arg) (calls : List PrintCall) :
    printkLoop (items.flatMap Item.text ++ fmt) ⟨items.flatMap Item.args ++ args, calls⟩ =
      printkLoop fmt ⟨args, calls ++ items.flatMap Item.calls⟩ := by
  induction items generalizing calls with
  | nil => simp
  | cons item items ih =>
    simp only [List.flatMap_cons, List.append_assoc]
    rw [printkLoop_item, ih, List.append_assoc]

/-! Directives that are not known. -/

theorem switch_halts (h : ∀ f : NumFormat, c ≠ f.letter) (x y z : Printk Unit) :
    (if c = ch 'd' then x else if c = ch 'u' then y else if c = ch 'x' then z
      else assertNoprint False) = throw .halt := by
  have hd : c ≠ ch 'd' := h .signed
  have hu : c ≠ ch 'u' := h .unsigned
  have hx : c ≠ ch 'x' := h .hex
  rw [if_neg hd, if_neg hu, if_neg hx]
  rfl

theorem shortDirective_halts (h : ∀ f : NumFormat, c ≠ f.letter) :
    shortDirective c = throw .halt := switch_halts h _ _ _

theorem longDirective_halts (h : ∀ f : NumFormat, c ≠ f.letter) :
    longDirective c = throw .halt := switch_halts h _ _ _

theorem longLongDirective_halts (h : ∀ f : NumFormat, c ≠ f.letter) :
    longLongDirective c = throw .halt := switch_halts h _ _ _

theorem Malformed.ne (h : Malformed (ch '%' :: c :: fmt)) {x : Char}
    (hx : [ch '%', ch x] ∈ directives) : c ≠ ch x := by
  rintro rfl
  exact h.none_starts _ hx ⟨fmt, rfl⟩

theorem Malformed.ne_letter (h : Malformed (ch '%' :: d :: c :: fmt)) (f : NumFormat)
    (hf : [ch '%', d, f.letter] ∈ directives) : c ≠ f.letter := by
  rintro rfl
  exact h.none_starts _ hf ⟨fmt, rfl⟩

theorem directive_halts (h : Malformed (ch '%' :: c :: fmt)) : directive c = throw .halt := by
  have hdir : ∀ x ∈ ['%', 'c', 's', 'p', 'd', 'u', 'x'], [ch '%', ch x] ∈ directives := by
    simp [directives]
  have hne : ∀ x ∈ ['%', 'c', 's', 'p', 'd', 'u', 'x'], c ≠ ch x := fun x hx => h.ne (hdir x hx)
  rw [directive, if_neg (hne '%' (by simp)), if_neg (hne 'c' (by simp)), if_neg (hne 's' (by simp)),
    if_neg (hne 'p' (by simp)), if_neg (hne 'd' (by simp)), if_neg (hne 'u' (by simp)),
    if_neg (hne 'x' (by simp))]
  rfl

theorem printkLoop_malformed (h : Malformed rest) (s : PrintkState) :
    printkLoop rest s = .error .halt s := by
  cases rest with
  | nil => exact absurd h.head (by simp)
  | cons c rest =>
    obtain rfl : c = ch '%' := Option.some_inj.mp h.head
    cases rest with
    | nil => rfl
    | cons d rest =>
      by_cases hd : d = ch 'h' ∨ d = ch 'l' ∨ d = ch 'q'
      · cases rest with
        | nil =>
          rw [printkLoop.eq_def]
          simp only [ne_eq, not_true_eq_false, if_false, if_pos hd]
          rfl
        | cons c rest =>
          have hne : (∀ f : NumFormat, [ch '%', d, f.letter] ∈ directives) →
              ∀ f : NumFormat, c ≠ f.letter := fun hall f => h.ne_letter f (hall f)
          rcases hd with rfl | rfl | rfl
          · rw [printkLoop_short, shortDirective_halts (hne fun f => by cases f <;> decide)]
            rfl
          · rw [printkLoop_long, longDirective_halts (hne fun f => by cases f <;> decide)]
            rfl
          · rw [printkLoop_longLong, longLongDirective_halts (hne fun f => by cases f <;> decide)]
            rfl
      · rw [printkLoop_directive hd, directive_halts h]
        rfl

/-! Both outputs of the calls made. -/

theorem displayed_append : displayed (l ++ l') = displayed l ++ displayed l' :=
  List.flatMap_append

theorem offered_append : offered (l ++ l') = offered l ++ offered l' :=
  List.flatMap_append

theorem outputs_charCalls (l : List Byte) :
    displayed (l.flatMap charCalls) = l ∧ offered (l.flatMap charCalls) = l := by
  induction l with
  | nil => exact ⟨rfl, rfl⟩
  | cons c l ih =>
    rw [List.flatMap_cons, displayed_append, offered_append, ih.1, ih.2]
    exact ⟨rfl, rfl⟩

theorem outputs_strCalls (s : CString) :
    displayed (strCalls s) = s.bytes ∧ offered (strCalls s) = s.bytes ++ [0] := by
  have hmap : ∀ l : List Byte, displayed (l.map .vgaDisplayChar) = l ∧
      offered (l.map .vgaDisplayChar) = [] := by
    intro l
    induction l with
    | nil => exact ⟨rfl, rfl⟩
    | cons c l ih => exact ⟨congrArg (c :: ·) ih.1, ih.2⟩
  rw [strCalls, displayed_append, offered_append, (hmap _).1, (hmap _).2]
  simp [displayed, offered]

theorem outputs_item (item : Item) :
    displayed item.calls = item.shown ∧ offered item.calls = item.sent := by
  cases item with
  | str s hs => exact outputs_strCalls s
  | ptr p =>
    have hnum := outputs_charCalls (numeral (digitChar .uppercase) 16 p.toNat)
    have hstr := outputs_strCalls hexPrefix
    rw [Item.calls, displayed_append, offered_append, hnum.1, hnum.2, hstr.1, hstr.2]
    exact ⟨rfl, rfl⟩
  | literal c hc => exact outputs_charCalls _
  | percent => exact outputs_charCalls _
  | char v => exact outputs_charCalls _
  | short f v => exact outputs_charCalls _
  | int f v => exact outputs_charCalls _
  | long f v => exact outputs_charCalls _
  | longLong f v => exact outputs_charCalls _

theorem outputs_items (items : List Item) :
    displayed (items.flatMap Item.calls) = items.flatMap Item.shown ∧
      offered (items.flatMap Item.calls) = items.flatMap Item.sent := by
  induction items with
  | nil => exact ⟨rfl, rfl⟩
  | cons item items ih =>
    obtain ⟨hshown, hsent⟩ := outputs_item item
    simp only [List.flatMap_cons, displayed_append, offered_append, hshown, hsent, ih.1, ih.2,
      and_self]

/-- `printk` returns exactly for a well-formed text; shown and sent are the items up to its end,
or up to the directive at which it halts. -/
theorem printk_renders {fmt : CString} {args : List Arg} {items : List Item} {rest : List Byte}
    (h : Reads fmt.bytes args items rest) (calls : List PrintCall) :
    ∃ made, displayed made = items.flatMap Item.shown ∧ offered made = items.flatMap Item.sent ∧
      ((WellFormed fmt.bytes ∧ rest = [] ∧
          printk (some fmt) args calls = .ok 0 (calls ++ made)) ∨
        (¬ WellFormed fmt.bytes ∧ Malformed rest ∧
          printk (some fmt) args calls = .error .halt (calls ++ made))) := by
  obtain ⟨more, hmore⟩ := h.args
  obtain ⟨hshown, hsent⟩ := outputs_items items
  have hrun : printkLoop fmt.bytes ⟨args, calls⟩ =
      printkLoop rest ⟨more, calls ++ items.flatMap Item.calls⟩ := by
    rw [h.text, ← hmore, printkLoop_items]
  refine ⟨items.flatMap Item.calls, hshown, hsent, ?_⟩
  rcases h.rest with hnil | hm
  · left
    refine ⟨h.wellFormed_iff.mpr hnil, hnil, ?_⟩
    rw [printk, hrun, hnil]
    rfl
  · right
    have hne : rest ≠ [] := by
      rintro rfl
      exact absurd hm.head (by simp)
    refine ⟨fun hw => hne (h.wellFormed_iff.mp hw), hm, ?_⟩
    simp only [printk, hrun, printkLoop_malformed hm]

/-- `"a%hd%y"` -/
def minText : CString := ⟨['a', '%', 'h', 'd', '%', 'y'].map ch, by decide⟩

theorem minText_reads : Reads minText.bytes [.int 0x8000]
    [.literal (ch 'a') (by decide), .short .signed 0x8000] [ch '%', ch 'y'] where
  text := rfl
  args := List.prefix_rfl
  rest := .inr ⟨rfl, by decide⟩

/-- The least `short` is shown before the directive at which `printk` halts. -/
theorem minText_rendered : ∃ made, displayed made = ['a', '-', '3', '2', '7', '6', '8'].map ch ∧
    offered made = ['a', '-', '3', '2', '7', '6', '8'].map ch ∧
    printk (some minText) [.int 0x8000] [] = .error .halt made := by
  obtain ⟨made, hshown, hsent, hrun⟩ := printk_renders minText_reads []
  refine ⟨made, hshown.trans (by decide), hsent.trans (by decide), ?_⟩
  rcases hrun with ⟨-, hnil, -⟩ | ⟨-, -, hhalt⟩
  · cases hnil
  · exact hhalt

end SkipOS
