import SkipOS.Keyboard
import SkipOS.Lib.Bytes
import SkipOS.Lib.Loads

/-! `char_from_scode` on its table in memory: its loop runs for as many elements as the table
has bytes. -/

namespace SkipOS

open Mem

deriving instance DecidableEq for ScodeMapElem

/-- The elements of an array, which is at most half of memory. -/
structure ScodeTable where
  elems : List ScodeMapElem
  fits : 3 * elems.length < 2 ^ 63

/-- `sizeof` -/
def ScodeTable.mapSize (table : ScodeTable) : Nat := 3 * table.elems.length

/-- The member of element `i` at offset `off`. -/
def loadMember (base i off : Word) : Loader Byte := Loader.loadByte (base + 3 * i + off)

/-- The loop of `char_from_scode` from `i` on with its loads. -/
def charFromScodeLoop (base : Word) (scode : Byte) (shiftPressed : Bool) : Nat → Word → Loader Byte
  | 0, _ => return 0x20
  | n + 1, i => do
    if (← loadMember base i 2) = scode then
      if shiftPressed then loadMember base i 1 else loadMember base i 0
    else charFromScodeLoop base scode shiftPressed n (i + 1)

def charFromScodeLoads (base : Word) (mapSize : Nat) (scode : Byte) (shiftPressed : Bool) :
    Loader Byte := charFromScodeLoop base scode shiftPressed mapSize 0

def elemAt (m : Mem) (base : Word) (i : Nat) : ScodeMapElem :=
  ⟨m (base + BitVec.ofNat 64 (3 * i)), m (base + BitVec.ofNat 64 (3 * i + 1)),
    m (base + BitVec.ofNat 64 (3 * i + 2))⟩

def TableAt (m : Mem) (base : Word) (elems : List ScodeMapElem) : Prop :=
  (List.range elems.length).map (elemAt m base) = elems

instance (m : Mem) (base : Word) (elems : List ScodeMapElem) : Decidable (TableAt m base elems) :=
  inferInstanceAs (Decidable (_ = _))

/-- The character of the first element with the code, or a blank. -/
def findScode (elems : List ScodeMapElem) (scode : Byte) (shiftPressed : Bool) : Byte :=
  match elems.find? fun elem => elem.s == scode with
  | some elem => if shiftPressed then elem.shiftC else elem.c
  | none => 0x20

/-- Only bytes of the table are read, and the character is that of its first element with the
code. -/
structure LooksUp (m : Mem) (base : Word) (table : ScodeTable) (scode : Byte)
    (shiftPressed : Bool) : Prop where
  inside : (charFromScodeLoads base table.mapSize scode shiftPressed).Within m
    (span base table.mapSize)
  char : (charFromScodeLoads base table.mapSize scode shiftPressed).run m =
    findScode table.elems scode shiftPressed

variable {m : Mem} {base : Word} {table : ScodeTable} {elems more : List ScodeMapElem}
  {elem : ScodeMapElem} {scode : Byte} {shiftPressed : Bool} {R : Set Word} {i n : Nat}

theorem findScode_cons : findScode (elem :: elems) scode shiftPressed =
    if elem.s = scode then if shiftPressed then elem.shiftC else elem.c
    else findScode elems scode shiftPressed := by
  rw [findScode, List.find?_cons]
  by_cases h : elem.s = scode
  · rw [if_pos h, beq_iff_eq.mpr h]
  · rw [if_neg h, beq_eq_false_iff_ne.mpr h]
    rfl

theorem findScode_append (h : ∃ elem ∈ elems, elem.s = scode) :
    findScode (elems ++ more) scode shiftPressed = findScode elems scode shiftPressed := by
  induction elems with
  | nil => simp at h
  | cons elem elems ih =>
    rw [List.cons_append, findScode_cons, findScode_cons]
    by_cases hs : elem.s = scode
    · rw [if_pos hs, if_pos hs]
    · rw [if_neg hs, if_neg hs]
      refine ih ?_
      obtain ⟨e, he, hes⟩ := h
      rcases List.mem_cons.mp he with rfl | he
      · exact absurd hes hs
      · exact ⟨e, he, hes⟩

theorem loadMember_eq (off : Nat) : loadMember base (BitVec.ofNat 64 i) (BitVec.ofNat 64 off) =
    Loader.loadByte (base + BitVec.ofNat 64 (3 * i + off)) := by
  have hmul : (3 : Word) * BitVec.ofNat 64 i = BitVec.ofNat 64 (3 * i) := by
    rw [BitVec.ofNat_mul]
    rfl
  rw [loadMember, hmul, BitVec.add_assoc, ← BitVec.ofNat_add]

theorem charFromScodeLoop_succ :
    charFromScodeLoop base scode shiftPressed (n + 1) (BitVec.ofNat 64 i) = (do
      if (← Loader.loadByte (base + BitVec.ofNat 64 (3 * i + 2))) = scode then
        if shiftPressed then Loader.loadByte (base + BitVec.ofNat 64 (3 * i + 1))
        else Loader.loadByte (base + BitVec.ofNat 64 (3 * i))
      else charFromScodeLoop base scode shiftPressed n (BitVec.ofNat 64 (i + 1))) := by
  have h0 : loadMember base (BitVec.ofNat 64 i) 0 = _ := loadMember_eq 0
  have h1 : loadMember base (BitVec.ofNat 64 i) 1 = _ := loadMember_eq 1
  have h2 : loadMember base (BitVec.ofNat 64 i) 2 = _ := loadMember_eq 2
  rw [charFromScodeLoop, ofNat_add_one, h0, h1, h2]
  rfl

theorem run_charFromScodeLoop :
    (charFromScodeLoop base scode shiftPressed n (BitVec.ofNat 64 i)).run m =
      findScode ((List.range' i n).map (elemAt m base)) scode shiftPressed := by
  induction n generalizing i with
  | zero => rfl
  | succ n ih =>
    rw [List.range'_succ, List.map_cons, findScode_cons, ← ih, charFromScodeLoop_succ,
      Loader.run_bind, Loader.run_ite, Loader.run_ite]
    rfl

theorem within_charFromScodeLoop_succ :
    (charFromScodeLoop base scode shiftPressed (n + 1) (BitVec.ofNat 64 i)).Within m R ↔
      base + BitVec.ofNat 64 (3 * i + 2) ∈ R ∧
        if (elemAt m base i).s = scode then
          if shiftPressed then base + BitVec.ofNat 64 (3 * i + 1) ∈ R
          else base + BitVec.ofNat 64 (3 * i) ∈ R
        else
          (charFromScodeLoop base scode shiftPressed n (BitVec.ofNat 64 (i + 1))).Within m R := by
  rw [charFromScodeLoop_succ, Loader.within_bind, Loader.within_ite, Loader.within_ite,
    Loader.within_loadByte, Loader.within_loadByte, Loader.within_loadByte]
  rfl

theorem TableAt.elemAt_eq (h : TableAt m base elems) (hi : i < elems.length) :
    elemAt m base i = elems[i] := by
  have hget := List.getElem_of_eq h.symm hi
  rw [hget, List.getElem_map, List.getElem_range]

/-- From `i` on, with `n` rounds to go, the loop stays inside the table just when it meets the
code or has no round for an element behind. -/
theorem within_charFromScodeLoop (hheld : TableAt m base table.elems)
    (hi : i ≤ table.elems.length) :
    (charFromScodeLoop base scode shiftPressed n (BitVec.ofNat 64 i)).Within m
      (span base table.mapSize) ↔
      (∃ elem ∈ table.elems.drop i, elem.s = scode) ∨ i + n ≤ table.elems.length := by
  have hfits := table.fits
  have hsize : table.mapSize = 3 * table.elems.length := rfl
  induction n generalizing i with
  | zero => exact iff_of_true trivial (Or.inr hi)
  | succ n ih =>
    rw [within_charFromScodeLoop_succ]
    rcases Nat.lt_or_eq_of_le hi with hlt | rfl
    · have hin {k : Nat} (hk : k < 3) :
          base + BitVec.ofNat 64 (3 * i + k) ∈ span base table.mapSize :=
        add_mem_span (by omega) (by omega)
      rw [hheld.elemAt_eq hlt, List.drop_eq_getElem_cons hlt]
      by_cases hs : (table.elems[i]).s = scode
      · rw [if_pos hs]
        refine iff_of_true ⟨hin (by omega), ?_⟩ (Or.inl ⟨_, List.mem_cons_self, hs⟩)
        cases shiftPressed with
        | true => exact hin (k := 1) (by omega)
        | false => exact hin (k := 0) (by omega)
      · rw [if_neg hs, and_iff_right (hin (by omega))]
        refine (ih (i := i + 1) hlt).trans ?_
        simp only [List.mem_cons, exists_eq_or_imp, hs, false_or]
        exact or_congr_right (by omega)
    · -- the code of the element behind is outside
      have hout :
          base + BitVec.ofNat 64 (3 * table.elems.length + 2) ∉ span base table.mapSize := by
        have hoff : base + BitVec.ofNat 64 (3 * table.elems.length + 2) - base =
            BitVec.ofNat 64 (3 * table.elems.length + 2) := by bv_omega
        rw [mem_span, hoff, toNat_ofNat_of_lt (by omega)]
        omega
      refine iff_of_false (fun h => hout h.1) ?_
      rintro (⟨elem, hmem, -⟩ | h)
      · rw [List.drop_length] at hmem
        exact absurd hmem List.not_mem_nil
      · omega

theorem run_charFromScodeLoads (hheld : TableAt m base elems) (hn : elems.length ≤ n) :
    (charFromScodeLoads base n scode shiftPressed).run m = findScode
      (elems ++ (List.range' elems.length (n - elems.length)).map (elemAt m base))
      scode shiftPressed := by
  have hsplit : List.range' 0 n = List.range elems.length ++
      List.range' elems.length (n - elems.length) := by
    have happend := @List.range'_append_1 0 elems.length (n - elems.length)
    rwa [Nat.zero_add, Nat.add_sub_cancel' hn, ← List.range_eq_range', eq_comm] at happend
  have hall : (charFromScodeLoads base n scode shiftPressed).run m = _ :=
    run_charFromScodeLoop (i := 0)
  have htable : (List.range elems.length).map (elemAt m base) = elems := hheld
  rw [hall, hsplit, List.map_append, htable]

theorem mapSize_ge (table : ScodeTable) : table.elems.length ≤ table.mapSize := by
  rw [ScodeTable.mapSize]
  omega

/-- The lookup is right just when the code is in the table, or the table has no element. -/
theorem looksUp_iff {m : Mem} {base : Word} {table : ScodeTable} {scode : Byte}
    {shiftPressed : Bool} (hheld : TableAt m base table.elems) :
    LooksUp m base table scode shiftPressed ↔
      (∃ elem ∈ table.elems, elem.s = scode) ∨ table.elems = [] := by
  have hinside : (charFromScodeLoads base table.mapSize scode shiftPressed).Within m
      (span base table.mapSize) ↔ _ := within_charFromScodeLoop hheld (Nat.zero_le _)
  rw [List.drop_zero, Nat.zero_add] at hinside
  have hrun : (charFromScodeLoads base table.mapSize scode shiftPressed).run m = _ :=
    run_charFromScodeLoads hheld (mapSize_ge table)
  constructor
  · intro h
    rcases hinside.mp h.inside with hfound | hsize
    · exact Or.inl hfound
    · right
      rw [ScodeTable.mapSize] at hsize
      exact List.length_eq_zero_iff.mp (by omega)
  · rintro (hfound | hempty)
    · exact ⟨hinside.mpr (Or.inl hfound), hrun.trans (findScode_append hfound)⟩
    · have hsize : table.mapSize = 0 := by rw [ScodeTable.mapSize, hempty]; rfl
      refine ⟨hinside.mpr (Or.inr (by omega)), ?_⟩
      rw [hrun, hsize, hempty]
      rfl

/-- The loop on `sc_map` is `char_from_scode` with what lies behind. -/
theorem charFromScode_eq_run (hheld : TableAt m base scMap) :
    charFromScode ((List.range' scMap.length (mapSize - scMap.length)).map (elemAt m base)) scode
      shiftPressed = (charFromScodeLoads base mapSize scode shiftPressed).run m := by
  rw [run_charFromScodeLoads hheld (by decide)]
  generalize hbehind :
    (List.range' scMap.length (mapSize - scMap.length)).map (elemAt m base) = behind
  have hlen : (scMap ++ behind).length = mapSize := by
    rw [← hbehind, List.length_append, List.length_map, List.length_range']
    rfl
  rw [charFromScode, ← hlen, List.take_length]
  rfl

/-- Memory that holds the elements at `base`, with zeros everywhere else. -/
def tableMem (base : Word) (elems : List ScodeMapElem) : Mem :=
  Mem.ofBytes base (elems.flatMap fun elem => [elem.c, elem.shiftC, elem.s])

def scTable : ScodeTable := ⟨scMap, by decide⟩

theorem looksUp_shiftA : LooksUp (tableMem 0x100000 scMap) 0x100000 scTable 0x1C true :=
  (looksUp_iff (by decide +kernel)).mpr (Or.inl ⟨scodeMapElem 'a' 'A' 0x1C, by decide, rfl⟩)

/-- The escape key is not in `sc_map`, where an element behind gives it a character. -/
theorem escape_not_looked_up :
    TableAt (tableMem 0x100000 (scMap ++ [⟨0x41, 0x42, 0x76⟩])) 0x100000 scMap ∧
      ¬ LooksUp (tableMem 0x100000 (scMap ++ [⟨0x41, 0x42, 0x76⟩])) 0x100000 scTable 0x76 false ∧
      (charFromScodeLoads 0x100000 mapSize 0x76 false).run
        (tableMem 0x100000 (scMap ++ [⟨0x41, 0x42, 0x76⟩])) = 0x41 ∧
      findScode scMap 0x76 false = 0x20 := by
  have hrun : (charFromScodeLoads 0x100000 mapSize 0x76 false).run
      (tableMem 0x100000 (scMap ++ [⟨0x41, 0x42, 0x76⟩])) = 0x41 := by decide +kernel
  have hfind : findScode scMap 0x76 false = 0x20 := by decide +kernel
  refine ⟨by decide +kernel, fun h => ?_, hrun, hfind⟩
  have hchar : (0x41 : Byte) = 0x20 := hrun.symm.trans (h.char.trans hfind)
  exact absurd hchar (by decide)

end SkipOS
