import SkipOS.Lib.Memory

/-! The 8259A interrupt controller with fixed priorities, and two of them in cascade. What its
lines request is given from outside, at the moment it is asked for. -/

/-- What the next write to the data port is taken for. -/
inductive Awaits where
  | icw2 | icw3 | icw4
  /-- the mask -/
  | ocw1
  deriving DecidableEq

structure Pic8259 where
  awaits : Awaits
  single : Bool
  icw4Needed : Bool
  icw2 : Byte
  icw3 : Byte
  icw4 : Byte
  mask : Byte
  inService : Byte
  deriving DecidableEq

namespace Pic8259

/-- The end of the interrupt of highest priority, which is the lowest bit. -/
def endOfInterrupt (p : Pic8259) : Pic8259 :=
  { p with inService := p.inService &&& (p.inService - 1) }

/-- ICW1 and the two ends of interrupt without rotation; of other commands nothing is said. -/
def writeCommand (val : Byte) (p : Pic8259) : Option Pic8259 :=
  if val.getLsbD 4 then
    some { p with
      awaits := .icw2
      single := val.getLsbD 1
      icw4Needed := val.getLsbD 0
      icw4 := 0
      mask := 0
      inService := 0 }
  else if val &&& 0xF8 = 0x20 then some p.endOfInterrupt
  else if val &&& 0xF8 = 0x60 then
    some { p with inService := p.inService &&& ~~~((1 : Byte) <<< (val &&& 0x07).toNat) }
  else none

def afterIcw3 (p : Pic8259) : Awaits := if p.icw4Needed then .icw4 else .ocw1

def writeData (val : Byte) (p : Pic8259) : Pic8259 :=
  match p.awaits with
  | .icw2 => { p with icw2 := val, awaits := if p.single then p.afterIcw3 else .icw3 }
  | .icw3 => { p with icw3 := val, awaits := p.afterIcw3 }
  | .icw4 => { p with icw4 := val, awaits := .ocw1 }
  | .ocw1 => { p with mask := val }

/-- The request of line `k` is passed on: the line is not masked, and neither it nor a line of
higher priority is in service. -/
def passes (p : Pic8259) (requests : Nat → Bool) (k : Nat) : Bool :=
  requests k && !p.mask.getLsbD k && (List.range (k + 1)).all fun j => !p.inService.getLsbD j

def winner (p : Pic8259) (requests : Nat → Bool) : Option Nat :=
  (List.range 8).find? (p.passes requests)

def vector (p : Pic8259) (k : Nat) : Byte := (p.icw2 &&& 0xF8) ||| BitVec.ofNat 8 k

/-- With automatic ends of interrupt nothing stays in service. -/
def service (p : Pic8259) (k : Nat) : Pic8259 :=
  if p.icw4.getLsbD 1 then p
  else { p with inService := p.inService ||| (1 : Byte) <<< k }

end Pic8259

/-- The second controller requests on line 2 of the first. -/
structure PicPair where
  master : Pic8259
  slave : Pic8259
  deriving DecidableEq

namespace PicPair

def slaveLine : Nat := 2

/-- What the first controller finds requested, given what devices request on both. -/
def requests (c : PicPair) (r₁ r₂ : Nat → Bool) : Nat → Bool :=
  Function.update r₁ slaveLine (c.slave.winner r₂).isSome

/-- The processor asks for a vector. On a line that has a slave, the slave that has its number
answers. -/
def acknowledge (c : PicPair) (r₁ r₂ : Nat → Bool) : Option (Byte × PicPair) :=
  (c.master.winner (c.requests r₁ r₂)).bind fun k =>
    if c.master.icw3.getLsbD k then
      if c.slave.icw3.toNat % 8 = k then (c.slave.winner r₂).map fun j =>
        (c.slave.vector j, ⟨c.master.service k, c.slave.service j⟩)
      else none
    else some (c.master.vector k, { c with master := c.master.service k })

/-- A vector that the processor gets. A request that is gone when it asks is answered like one
on line 7, with nothing put in service for it. -/
inductive Accepts (c : PicPair) : Byte → PicPair → Prop
  | request {r₁ r₂ : Nat → Bool} {vec : Byte} {c' : PicPair}
      (h : c.acknowledge r₁ r₂ = some (vec, c')) : Accepts c vec c'
  | spurious : Accepts c (c.master.vector 7) c
  | spuriousSlave (hm : c.master.icw3.getLsbD slaveLine = true)
      (hs : c.slave.icw3.toNat % 8 = slaveLine) :
      Accepts c (c.slave.vector 7) { c with master := c.master.service slaveLine }

end PicPair

/-- A line of either controller. -/
inductive PicLine where
  | first (k : Nat)
  | second (j : Nat)
  deriving DecidableEq

namespace PicPair

/-- The lines of the pair by priority, those of the second controller in place of the line it is
on. -/
def byPriority : List PicLine := (List.range 8).flatMap fun k =>
  if k = slaveLine then (List.range 8).map .second else [.first k]

/-- A line is requested and masked nowhere on its way. -/
def passing (c : PicPair) (r₁ r₂ : Nat → Bool) : PicLine → Bool
  | .first k => r₁ k && !c.master.mask.getLsbD k
  | .second j => r₂ j && !c.slave.mask.getLsbD j && !c.master.mask.getLsbD slaveLine

def vectorOf (c : PicPair) : PicLine → Byte
  | .first k => c.master.vector k
  | .second j => c.slave.vector j

/-- Both are past their initialization, in cascade and with explicit ends of interrupt. -/
structure Programmed (c : PicPair) : Prop where
  master : c.master.awaits = .ocw1
  slave : c.slave.awaits = .ocw1
  cascade : c.master.icw3 = (1 : Byte) <<< slaveLine
  number : c.slave.icw3.toNat % 8 = slaveLine
  masterEoi : c.master.icw4.getLsbD 1 = false
  slaveEoi : c.slave.icw4.getLsbD 1 = false

structure Idle (c : PicPair) : Prop where
  master : c.master.inService = 0
  slave : c.slave.inService = 0

end PicPair

namespace Pic8259

variable {p : Pic8259} {r : Nat → Bool} {k j : Nat}

theorem winner_eq_some (h : p.winner r = some k) : k < 8 ∧ p.passes r k = true :=
  ⟨List.mem_range.mp (List.mem_of_find?_eq_some h), List.find?_some h⟩

theorem passes_of_idle (h : p.inService = 0) : p.passes r = fun k => r k && !p.mask.getLsbD k := by
  funext k
  simp [passes, h]

theorem service_idle (h : p.inService = 0) (hmode : p.icw4.getLsbD 1 = false) :
    p.service k = { p with inService := (1 : Byte) <<< k } := by
  have hbit : (0 : Byte) ||| (1 : Byte) <<< k = (1 : Byte) <<< k := BitVec.zero_or
  rw [service, hmode, if_neg Bool.false_ne_true, h, hbit]

theorem writeData_mask (h : p.awaits = .ocw1) (val : Byte) :
    p.writeData val = { p with mask := val } := by
  obtain ⟨awaits, single, icw4Needed, icw2, icw3, icw4, mask, inService⟩ := p
  obtain rfl : awaits = .ocw1 := h
  rfl

theorem endOfInterrupt_idle (h : p.inService = 0) : p.endOfInterrupt = p := by
  have hbits : (0 : Byte) &&& (0 - 1) = 0 := rfl
  rw [endOfInterrupt, h, hbits, ← h]

/-- The only bit is the lowest. -/
theorem endOfInterrupt_bit (hk : k < 8) :
    { p with inService := (1 : Byte) <<< k }.endOfInterrupt = { p with inService := 0 } := by
  have hbit : ((1 : Byte) <<< k) &&& ((1 : Byte) <<< k - 1) = 0 := by
    revert k
    decide
  rw [endOfInterrupt, hbit]

end Pic8259

namespace PicPair

variable {c : PicPair} {r₁ r₂ : Nat → Bool}

theorem find?_byPriority (P : PicLine → Bool) : byPriority.find? P =
    (List.range 8).findSome? fun k => if k = slaveLine then
      ((List.range 8).find? fun j => P (.second j)).map .second
      else if P (.first k) then some (.first k) else none := by
  rw [byPriority, List.find?_flatMap]
  congr 1
  funext k
  by_cases hk : k = slaveLine
  · rw [if_pos hk, if_pos hk, List.find?_map]
    rfl
  · rw [if_neg hk, if_neg hk, List.find?_singleton]

/-- The first that is found is what is found of the first. -/
theorem map_find?_bind {α β γ δ : Type} {q : α → Bool} {f : α → Option β} {g : α → Option γ}
    {u : β → δ} {w : γ → δ} {l : List α} (hq : ∀ a ∈ l, q a = (g a).isSome)
    (hf : ∀ a ∈ l, q a = true → (f a).map u = (g a).map w) :
    ((l.find? q).bind f).map u = (l.findSome? g).map w := by
  induction l with
  | nil => rfl
  | cons a l ih =>
    have ha := hq a List.mem_cons_self
    rw [List.find?_cons, List.findSome?_cons]
    cases hg : g a with
    | none =>
      rw [hg] at ha
      rw [ha]
      exact ih (fun b hb => hq b (List.mem_cons_of_mem _ hb))
        fun b hb => hf b (List.mem_cons_of_mem _ hb)
    | some b =>
      rw [hg] at ha
      have hfa := hf a List.mem_cons_self ha
      rw [hg] at hfa
      rw [ha]
      exact hfa

/-- With nothing in service the request of highest priority that is not masked gets its vector. -/
theorem acknowledge_idle (h : c.Programmed) (hidle : c.Idle) :
    (c.acknowledge r₁ r₂).map Prod.fst =
      (byPriority.find? (c.passing r₁ r₂)).map c.vectorOf := by
  have hslave : c.slave.winner r₂ =
      (List.range 8).find? fun j => r₂ j && !c.slave.mask.getLsbD j := by
    rw [Pic8259.winner, Pic8259.passes_of_idle hidle.slave]
  have hline (k : Nat) (hk : k < 8) : c.master.icw3.getLsbD k = decide (k = slaveLine) := by
    rw [h.cascade]
    revert k
    decide
  have hbehind : (List.range 8).find? (fun j => c.passing r₁ r₂ (.second j)) =
      if c.master.mask.getLsbD slaveLine then none else c.slave.winner r₂ := by
    cases hm : c.master.mask.getLsbD slaveLine with
    | true => simp [passing, hm]
    | false => simp [passing, hm, hslave]
  rw [acknowledge, Pic8259.winner, Pic8259.passes_of_idle hidle.master, find?_byPriority, hbehind]
  refine map_find?_bind (fun k hk => ?_) fun k hk hq => ?_
  · by_cases he : k = slaveLine
    · subst he
      rw [if_pos rfl, requests, Function.update_self]
      cases c.master.mask.getLsbD slaveLine with
      | true => simp
      | false => simp
    · rw [if_neg he, requests, Function.update_of_ne he, passing]
      cases r₁ k && !c.master.mask.getLsbD k with
      | true => rfl
      | false => rfl
  · by_cases he : k = slaveLine
    · subst he
      have hopen : c.master.mask.getLsbD slaveLine = false := by
        simpa using (Bool.and_eq_true_iff.mp hq).2
      rw [if_pos rfl, hline slaveLine (by decide), if_pos (by decide), if_pos h.number, hopen]
      cases c.slave.winner r₂ with
      | none => rfl
      | some j => rfl
    · rw [requests, Function.update_of_ne he] at hq
      rw [if_neg he, hline k (List.mem_range.mp hk), decide_eq_false he, if_neg Bool.false_ne_true,
        passing, hq]
      rfl

/-- An end of interrupt on each controller leaves nothing in service. -/
structure Closing (c : PicPair) : Prop where
  master : c.master.endOfInterrupt.inService = 0
  slave : c.slave.endOfInterrupt.inService = 0

theorem Idle.closing (h : c.Idle) : c.Closing :=
  ⟨by rw [Pic8259.endOfInterrupt_idle h.master, h.master],
    by rw [Pic8259.endOfInterrupt_idle h.slave, h.slave]⟩

/-- Only what is in service changes. -/
structure SameSetting (c c' : PicPair) : Prop where
  master : { c'.master with inService := c.master.inService } = c.master
  slave : { c'.slave with inService := c.slave.inService } = c.slave

/-- What acceptance may do to one controller. -/
inductive Takes (p : Pic8259) : Pic8259 → Prop
  | none : Takes p p
  | line {k : Nat} (hk : k < 8) : Takes p (p.service k)

theorem Accepts.takes {vec : Byte} {c' : PicPair} (h : c.Accepts vec c') :
    Takes c.master c'.master ∧ Takes c.slave c'.slave ∧
      ∃ k < 8, vec = c.master.vector k ∨ vec = c.slave.vector k := by
  cases h with
  | spurious => exact ⟨.none, .none, 7, by decide, Or.inl rfl⟩
  | spuriousSlave => exact ⟨.line (by decide), .none, 7, by decide, Or.inr rfl⟩
  | request h =>
    obtain ⟨k, hk, hrest⟩ := Option.bind_eq_some_iff.mp h
    have hlt := (Pic8259.winner_eq_some hk).1
    split at hrest
    · split at hrest
      · obtain ⟨j, hj, he⟩ := Option.map_eq_some_iff.mp hrest
        obtain ⟨rfl, rfl⟩ := Prod.mk.inj he
        have hlt' := (Pic8259.winner_eq_some hj).1
        exact ⟨.line hlt, .line hlt', j, hlt', Or.inr rfl⟩
      · cases hrest
    · obtain ⟨rfl, rfl⟩ := Prod.mk.inj (Option.some.inj hrest)
      exact ⟨.line hlt, .none, k, hlt, Or.inl rfl⟩

theorem Takes.setting {p q : Pic8259} (h : Takes p q) : { q with inService := p.inService } = p := by
  cases h with
  | none => rfl
  | line hk =>
    rw [Pic8259.service]
    split <;> rfl

theorem Takes.closing {p q : Pic8259} (h : Takes p q) (hidle : p.inService = 0)
    (hmode : p.icw4.getLsbD 1 = false) : q.endOfInterrupt.inService = 0 := by
  cases h with
  | none => rw [Pic8259.endOfInterrupt_idle hidle, hidle]
  | line hk => rw [Pic8259.service_idle hidle hmode, Pic8259.endOfInterrupt_bit hk]

/-- From an idle pair one end of interrupt on each controller is enough, whatever was accepted. -/
theorem Accepts.closing {vec : Byte} {c' : PicPair} (h : c.Accepts vec c') (hset : c.Programmed)
    (hidle : c.Idle) : c'.Closing ∧ c.SameSetting c' := by
  obtain ⟨hm, hs, -⟩ := h.takes
  exact ⟨⟨hm.closing hidle.master hset.masterEoi, hs.closing hidle.slave hset.slaveEoi⟩,
    ⟨hm.setting, hs.setting⟩⟩

end PicPair
