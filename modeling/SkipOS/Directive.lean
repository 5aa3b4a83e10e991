import SkipOS.Lib.Numeral
import SkipOS.Printk

/-! Format strings as sequences of items: literal characters, and directives with the argument
that each takes. What an item shows is stated without the code. -/

namespace SkipOS

/-- All that may stand where a `%` stands. -/
def directives : List (List Byte) :=
  [['%', '%'], ['%', 'c'], ['%', 's'], ['%', 'p'], ['%', 'd'], ['%', 'u'], ['%', 'x'],
    ['%', 'h', 'd'], ['%', 'h', 'u'], ['%', 'h', 'x'],
    ['%', 'l', 'd'], ['%', 'l', 'u'], ['%', 'l', 'x'],
    ['%', 'q', 'd'], ['%', 'q', 'u'], ['%', 'q', 'x']].map (List.map ch)

inductive WellFormed : List Byte → Prop
  | nil : WellFormed []
  | literal {c : Byte} {fmt : List Byte} (hc : c ≠ ch '%') (h : WellFormed fmt) :
      WellFormed (c :: fmt)
  | directive {d fmt : List Byte} (hd : d ∈ directives) (h : WellFormed fmt) :
      WellFormed (d ++ fmt)

/-- A `%` that starts no directive. -/
structure Malformed (rest : List Byte) : Prop where
  head : rest.head? = some (ch '%')
  none_starts : ∀ d ∈ directives, ¬ d <+: rest

def digitChar (cs : Case) (d : Nat) : Byte :=
  (match cs with
    | .uppercase => ['0', '1', '2', '3', '4', '5', '6', '7', '8', '9', 'A', 'B', 'C', 'D', 'E', 'F']
    | .lowercase => ['0', '1', '2', '3', '4', '5', '6', '7', '8', '9', 'a', 'b', 'c', 'd', 'e',
        'f']).map ch |>.getD d 0

/-- A number shown in some base up to 16 starts with a zero only if it is zero. -/
theorem numeral_no_leading_zero {base n : Nat} {cs : Case} (hbase : 1 < base) (hbase' : base ≤ 16)
    (hn : n ≠ 0) : (numeral (digitChar cs) base n).head? ≠ some (ch '0') := by
  have hzero : ∀ d < 16, (digitChar .uppercase d = ch '0' → d = 0) ∧
      (digitChar .lowercase d = ch '0' → d = 0) := by decide
  cases cs with
  | uppercase => exact numeral_head_ne hbase hn fun d hd => (hzero d (by omega)).1
  | lowercase => exact numeral_head_ne hbase hn fun d hd => (hzero d (by omega)).2

inductive NumFormat where
  | signed
  | unsigned
  | hex

def NumFormat.letter : NumFormat → Byte
  | .signed => ch 'd'
  | .unsigned => ch 'u'
  | .hex => ch 'x'

def NumFormat.render {w : Nat} (v : BitVec w) : NumFormat → List Byte
  | .signed => (if v.toInt < 0 then [ch '-'] else []) ++
      numeral (digitChar .lowercase) 10 v.toInt.natAbs
  | .unsigned => numeral (digitChar .lowercase) 10 v.toNat
  | .hex => numeral (digitChar .lowercase) 16 v.toNat

example : NumFormat.signed.render (0x8000 : BitVec 16) = ['-', '3', '2', '7', '6', '8'].map ch := by
  decide

/-- A piece of the format with its argument. -/
inductive Item where
  | literal (c : Byte) (hc : c ≠ ch '%')
  | percent
  | char (v : BitVec 32)
  | str (s : CString) (hs : s.bytes.length < 2 ^ 16)
  | ptr (p : Word)
  | short (f : NumFormat) (v : BitVec 32)
  | int (f : NumFormat) (v : BitVec 32)
  | long (f : NumFormat) (v : Word)
  | longLong (f : NumFormat) (v : Word)

namespace Item

def text : Item → List Byte
  | literal c _ => [c]
  | percent => [ch '%', ch '%']
  | char _ => [ch '%', ch 'c']
  | str _ _ => [ch '%', ch 's']
  | ptr _ => [ch '%', ch 'p']
  | short f _ => [ch '%', ch 'h', f.letter]
  | int f _ => [ch '%', f.letter]
  | long f _ => [ch '%', ch 'l', f.letter]
  | longLong f _ => [ch '%', ch 'q', f.letter]

def args : Item → List Arg
  | literal _ _ => []
  | percent => []
  | char v => [.int v]
  | str s _ => [.str (some s)]
  | ptr p => [.ptr p]
  | short _ v => [.int v]
  | int _ v => [.int v]
  | long _ v => [.long v]
  | longLong _ v => [.long v]

/-- The characters on the screen. -/
def shown : Item → List Byte
  | literal c _ => [c]
  | percent => [ch '%']
  | char v => [v.setWidth 8]
  | str s _ => s.bytes
  | ptr p => [ch '0', ch 'x'] ++ numeral (digitChar .uppercase) 16 p.toNat
  | short f v => f.render (v.setWidth 16)
  | int f v => f.render v
  | long f v => f.render v
  | longLong f v => f.render v

/-- The bytes on the serial line: a NUL goes out behind a string. -/
def sent : Item → List Byte
  | str s _ => s.bytes ++ [0]
  | ptr p => [ch '0', ch 'x'] ++ [0] ++ numeral (digitChar .uppercase) 16 p.toNat
  | item => item.shown

end Item

/-- The arguments fit the directives of `fmt` up to its end or to a malformed one. -/
structure Reads (fmt : List Byte) (args : List Arg) (items : List Item) (rest : List Byte) :
    Prop where
  text : fmt = items.flatMap Item.text ++ rest
  args : items.flatMap Item.args <+: args
  rest : rest = [] ∨ Malformed rest

variable {d d' fmt rest : List Byte} {args : List Arg} {items : List Item} {item : Item}

/-! A format is cut into items in one way only. -/

theorem directives_head (hd : d ∈ directives) : ∃ tail, d = ch '%' :: tail := by
  have h : ∀ d ∈ directives, d = ch '%' :: d.tail := by decide
  exact ⟨d.tail, h d hd⟩

theorem directives_prefix_free (hd : d ∈ directives) (hd' : d' ∈ directives) (h : d <+: d') :
    d = d' := by
  have hall : ∀ d ∈ directives, ∀ d' ∈ directives, d.isPrefixOf d' = true → d = d' := by decide
  exact hall d hd d' hd' (List.isPrefixOf_iff_prefix.mpr h)

theorem WellFormed.of_directive (hd : d ∈ directives) (h : WellFormed (d ++ fmt)) :
    WellFormed fmt := by
  obtain ⟨tail, rfl⟩ := directives_head hd
  generalize htext : ch '%' :: tail ++ fmt = text at h
  cases h with
  | nil => simp at htext
  | literal hc _ => exact absurd (List.cons.inj htext).1.symm hc
  | @directive d' fmt' hd' h' =>
    have hpre : ch '%' :: tail <+: d' ∨ d' <+: ch '%' :: tail :=
      List.prefix_or_prefix_of_prefix (List.prefix_append _ fmt)
        (htext ▸ List.prefix_append d' fmt')
    have he : ch '%' :: tail = d' := by
      rcases hpre with h | h
      · exact directives_prefix_free hd hd' h
      · exact (directives_prefix_free hd' hd h).symm
    rw [he] at htext
    rwa [List.append_cancel_left htext]

theorem WellFormed.of_literal {c : Byte} (hc : c ≠ ch '%') (h : WellFormed (c :: fmt)) :
    WellFormed fmt := by
  generalize htext : c :: fmt = text at h
  cases h with
  | nil => simp at htext
  | literal _ h =>
    obtain ⟨-, rfl⟩ := List.cons.inj htext
    exact h
  | directive hd _ =>
    obtain ⟨tail, rfl⟩ := directives_head hd
    exact absurd (List.cons.inj htext).1 hc

theorem Malformed.not_wellFormed (hm : Malformed rest) : ¬ WellFormed rest := by
  intro h
  cases h with
  | nil => exact absurd hm.head (by simp)
  | literal hc _ => exact hc (Option.some_inj.mp hm.head)
  | directive hd _ => exact hm.none_starts _ hd (List.prefix_append _ _)

theorem Item.text_cases (item : Item) :
    (∃ c, c ≠ ch '%' ∧ item.text = [c]) ∨ item.text ∈ directives := by
  cases item with
  | literal c hc => exact .inl ⟨c, hc, rfl⟩
  | percent => exact .inr (by simp only [text]; decide)
  | char v => exact .inr (by simp only [text]; decide)
  | str s hs => exact .inr (by simp only [text]; decide)
  | ptr p => exact .inr (by simp only [text]; decide)
  | short f v => exact .inr (by simp only [text]; cases f <;> decide)
  | int f v => exact .inr (by simp only [text]; cases f <;> decide)
  | long f v => exact .inr (by simp only [text]; cases f <;> decide)
  | longLong f v => exact .inr (by simp only [text]; cases f <;> decide)

theorem wellFormed_item : WellFormed (item.text ++ fmt) ↔ WellFormed fmt := by
  rcases item.text_cases with ⟨c, hc, he⟩ | hd
  · rw [he]
    exact ⟨.of_literal hc, .literal hc⟩
  · exact ⟨.of_directive hd, .directive hd⟩

theorem wellFormed_items : WellFormed (items.flatMap Item.text ++ fmt) ↔ WellFormed fmt := by
  induction items with
  | nil => rfl
  | cons item items ih => rw [List.flatMap_cons, List.append_assoc, wellFormed_item, ih]

theorem Reads.wellFormed_iff (h : Reads fmt args items rest) : WellFormed fmt ↔ rest = [] := by
  rw [h.text, wellFormed_items]
  constructor
  · intro hw
    exact h.rest.resolve_right fun hm => hm.not_wellFormed hw
  · rintro rfl
    exact .nil

theorem exists_item (hd : d ∈ directives) : ∃ item : Item, item.text = d := by
  simp only [directives, List.map_cons, List.map_nil, List.mem_cons, List.not_mem_nil,
    or_false] at hd
  rcases hd with rfl | rfl | rfl | rfl | rfl | rfl | rfl | rfl | rfl | rfl | rfl | rfl | rfl |
    rfl | rfl | rfl
  · exact ⟨.percent, rfl⟩
  · exact ⟨.char 0, rfl⟩
  · exact ⟨.str ⟨[], by simp⟩ (by simp), rfl⟩
  · exact ⟨.ptr 0, rfl⟩
  · exact ⟨.int .signed 0, rfl⟩
  · exact ⟨.int .unsigned 0, rfl⟩
  · exact ⟨.int .hex 0, rfl⟩
  · exact ⟨.short .signed 0, rfl⟩
  · exact ⟨.short .unsigned 0, rfl⟩
  · exact ⟨.short .hex 0, rfl⟩
  · exact ⟨.long .signed 0, rfl⟩
  · exact ⟨.long .unsigned 0, rfl⟩
  · exact ⟨.long .hex 0, rfl⟩
  · exact ⟨.longLong .signed 0, rfl⟩
  · exact ⟨.longLong .unsigned 0, rfl⟩
  · exact ⟨.longLong .hex 0, rfl⟩

theorem Item.text_length_pos (item : Item) : 0 < item.text.length := by
  cases item <;> simp [text]

/-- Every text has arguments that fit it. -/
theorem exists_reads (fmt : List Byte) : ∃ args items rest, Reads fmt args items rest := by
  induction hn : fmt.length using Nat.strong_induction_on generalizing fmt with
  | _ n ih =>
    have hitem : ∀ (item : Item) (tail : List Byte), fmt = item.text ++ tail →
        ∃ args items rest, Reads fmt args items rest := by
      intro item tail he
      have hlen := item.text_length_pos
      obtain ⟨args, items, rest, h⟩ := ih tail.length (by simp [← hn, he]; omega) tail rfl
      refine ⟨item.args ++ args, item :: items, rest, ?_, ?_, h.rest⟩
      · rw [he, h.text, List.flatMap_cons, List.append_assoc]
      · rw [List.flatMap_cons]
        exact (List.prefix_append_right_inj _).mpr h.args
    cases fmt with
    | nil => exact ⟨[], [], [], rfl, List.prefix_rfl, .inl rfl⟩
    | cons c tail =>
      by_cases hc : c = ch '%'
      · by_cases hd : ∃ d ∈ directives, d <+: c :: tail
        · obtain ⟨d, hd, tail, he⟩ := hd
          obtain ⟨item, rfl⟩ := exists_item hd
          exact hitem item tail he.symm
        · refine ⟨[], [], c :: tail, rfl, List.prefix_rfl, .inr ⟨by rw [hc]; rfl, ?_⟩⟩
          intro d hmem hpre
          exact hd ⟨d, hmem, hpre⟩
      · exact hitem (.literal c hc) tail rfl

end SkipOS
