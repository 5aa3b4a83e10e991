import SkipOS.Serial
import SkipOS.Device

/-! The ring buffer of the serial driver as a queue of bytes. -/

namespace SkipOS

open Prog

def slot (base : Word) (i : Nat) : Word := base + BitVec.ofNat 64 i

abbrev comPort (offset : Byte) : BitVec 16 := com1Iop + offset.setWidth 16

/-- The bytes from the consumer's slot to the producer's. -/
def queued (base : Word) (s : DriverState) : List Byte :=
  (List.range ((s.vars .serP - s.vars .serC).toNat % 1024)).map fun k =>
    s.vars (.byte (slot base (((s.vars .serC - base).toNat + k) % 1024)))

/-- From slot `i` on the buffer holds the bytes `q`. -/
structure SerRep (base : Word) (s : DriverState) (i : Nat) (q : List Byte) : Prop where
  head_lt : i < 1024
  length_lt : q.length < 1024
  consumer : s.vars .serC = slot base i
  producer : s.vars .serP = slot base ((i + q.length) % 1024)
  bytes : ∀ k b, q[k]? = some b → s.vars (.byte (slot base ((i + k) % 1024))) = b

def InBuffer (base a : Word) : Prop := (a - base).toNat < 1024

/-- Bytes are accessed inside the buffer only. -/
def Action.InBuffer (base : Word) : Action → Prop
  | .load (.byte a) => SkipOS.InBuffer base a
  | .store (.byte a) _ => SkipOS.InBuffer base a
  | _ => True

/-- Moreover no assertion fails and no bound on iterations is reached. -/
def Action.Disciplined (base : Word) (o : Action) : Prop :=
  o ≠ .halt ∧ o ≠ .fuel ∧ o.InBuffer base

variable {δ α : Type} {D : Device δ} {base : Word} {s s' : DriverState} {d : δ} {i j : Nat}
  {q : List Byte} {b : Byte}

abbrev InRing (base : Word) : Action → DriverState × δ → Prop := fun o _ => o.Disciplined base

theorem toNat_slot_sub (hi : i < 1024) : (slot base i - base).toNat = i := by
  simp only [slot]
  bv_omega

theorem slot_inj (hi : i < 1024) (hj : j < 1024) : slot base i = slot base j ↔ i = j := by
  constructor
  · intro he
    calc
      i = (slot base i - base).toNat := (toNat_slot_sub hi).symm
      _ = (slot base j - base).toNat := by rw [he]
      _ = j := toNat_slot_sub hj
  · rintro rfl
    rfl

theorem inBuffer_slot (hi : i < 1024) : InBuffer base (slot base i) := by
  rw [InBuffer, toNat_slot_sub hi]
  exact hi

theorem slot_eq_pred_iff (hi : i < 1024) (hj : j < 1024) :
    slot base j = slot base i - 1 ↔ j + 1 = i := by
  have h1 : (1 : Word).toNat = 1 := rfl
  simp only [slot, BitVec.toNat_eq, BitVec.toNat_add, BitVec.toNat_sub, BitVec.toNat_ofNat, h1]
  omega

theorem slot_eq_above_iff (hi : i < 1024) (hj : j < 1024) :
    slot base j = slot base i + buffSize - 1 ↔ i = 0 ∧ j = 1023 := by
  have h1 : (1 : Word).toNat = 1 := rfl
  have hb : buffSize.toNat = 1024 := rfl
  simp only [slot, BitVec.toNat_eq, BitVec.toNat_add, BitVec.toNat_sub, BitVec.toNat_ofNat, h1, hb]
  omega

theorem slot_succ : slot base i + 1 = slot base (i + 1) := by
  simp only [slot]
  bv_omega

theorem slot_end_iff (hi : i < 1024) : slot base (i + 1) = base + buffSize ↔ i = 1023 := by
  simp only [slot, buffSize]
  constructor
  · intro he
    bv_omega
  · rintro rfl
    rfl

theorem SerRep.empty_iff (h : SerRep base s i q) : s.vars .serC = s.vars .serP ↔ q = [] := by
  have hi := h.head_lt
  have hlen := h.length_lt
  rw [h.consumer, h.producer, slot_inj hi (Nat.mod_lt _ (by decide)), ← List.length_eq_zero_iff]
  omega

/-- The two comparisons of `is_buff_full` leave one slot unused. -/
theorem SerRep.full_iff (h : SerRep base s i q) :
    (s.vars .serP = s.vars .serC - 1 ∨ s.vars .serP = s.vars .serC + buffSize - 1) ↔
      q.length = 1023 := by
  have hi := h.head_lt
  have hlen := h.length_lt
  have hp : (i + q.length) % 1024 < 1024 := Nat.mod_lt _ (by decide)
  rw [h.producer, h.consumer, slot_eq_pred_iff hi hp, slot_eq_above_iff hi hp]
  omega

theorem SerRep.tail (h : SerRep base s i (b :: q))
    (hc : s'.vars .serC = slot base ((i + 1) % 1024)) (hp : s'.vars .serP = s.vars .serP)
    (hb : ∀ a, s'.vars (.byte a) = s.vars (.byte a)) : SerRep base s' ((i + 1) % 1024) q := by
  have hlen := h.length_lt
  simp only [List.length_cons] at hlen
  refine ⟨Nat.mod_lt _ (by decide), by omega, hc, ?_, ?_⟩
  · rw [hp, h.producer, List.length_cons]
    congr 1
    omega
  · intro k (c : Byte) hk
    have hm : ((i + 1) % 1024 + k) % 1024 = (i + (k + 1)) % 1024 := by omega
    rw [hb, hm]
    exact h.bytes (k + 1) c (by simpa using hk)

theorem SerRep.congr (h : SerRep base s i q) (hc : s'.vars .serC = s.vars .serC)
    (hp : s'.vars .serP = s.vars .serP) (hb : ∀ a, s'.vars (.byte a) = s.vars (.byte a)) :
    SerRep base s' i q := by
  refine ⟨h.head_lt, h.length_lt, hc.trans h.consumer, hp.trans h.producer, ?_⟩
  intro k b hk
  rw [hb]
  exact h.bytes k b hk

theorem SerRep.concat (h : SerRep base s i q) (hq : q.length ≠ 1023)
    (hc : s'.vars .serC = s.vars .serC)
    (hp : s'.vars .serP = slot base ((i + q.length + 1) % 1024))
    (hnew : s'.vars (.byte (slot base ((i + q.length) % 1024))) = b)
    (hold : ∀ a, a ≠ slot base ((i + q.length) % 1024) → s'.vars (.byte a) = s.vars (.byte a)) :
    SerRep base s' i (q ++ [b]) := by
  have hi := h.head_lt
  have hlen := h.length_lt
  refine ⟨hi, ?_, hc.trans h.consumer, ?_, ?_⟩
  · rw [List.length_append, List.length_singleton]
    omega
  · rw [hp, List.length_append, List.length_singleton, Nat.add_assoc]
  · intro k c hk
    by_cases hlast : k < q.length
    · rw [List.getElem?_append_left hlast] at hk
      rw [hold]
      · exact h.bytes k c hk
      · rw [Ne, slot_inj (Nat.mod_lt _ (by decide)) (Nat.mod_lt _ (by decide))]
        omega
    · rw [List.getElem?_append_right (by omega)] at hk
      obtain ⟨hz, he⟩ := List.getElem?_eq_some_iff.mp hk
      simp only [List.length_singleton] at hz
      obtain rfl : k = q.length := by omega
      simp only [List.getElem_singleton] at he
      rw [hnew, he]

theorem SerRep.queued_eq (h : SerRep base s i q) : queued base s = q := by
  have hi := h.head_lt
  have hlen := h.length_lt
  have hn : (s.vars .serP - s.vars .serC).toNat % 1024 = q.length := by
    rw [h.producer, h.consumer]
    simp only [slot, BitVec.toNat_sub, BitVec.toNat_add, BitVec.toNat_ofNat]
    omega
  rw [queued, hn, h.consumer, toNat_slot_sub hi]
  apply List.ext_getElem
  · simp
  · intro k hk hk'
    rw [List.getElem_map, List.getElem_range]
    exact h.bytes k _ (List.getElem?_eq_getElem hk')

/-! The operations of the ring. -/

theorem readSerReg_wp {offset : Byte} {f : Byte → Driver α} {Q : α → DriverState × δ → Prop}
    (h : ∀ r d', D.inb (comPort offset) d r d' → (f r).wp (InRing base) D.Exec Q (s, d')) :
    (readSerReg offset >>= f).wp (InRing base) D.Exec Q (s, d) := by
  have he : (readSerReg offset >>= f) = .op (.inb (comPort offset)) f := rfl
  rw [he, wp_inb]
  exact ⟨⟨by simp, by simp, trivial⟩, h⟩

theorem writeSerReg_wp {offset val : Byte} {f : Unit → Driver α}
    {Q : α → DriverState × δ → Prop}
    (h : ∀ d', D.outb (comPort offset) val d d' → (f ()).wp (InRing base) D.Exec Q (s, d')) :
    (writeSerReg offset val >>= f).wp (InRing base) D.Exec Q (s, d) := by
  have he : (writeSerReg offset val >>= f) = .op (.outb (comPort offset) val) f := rfl
  rw [he, wp_outb]
  exact ⟨⟨by simp, by simp, trivial⟩, h⟩

theorem assertInterruptsOff_wp {f : Unit → Driver α} {Q : α → DriverState × δ → Prop}
    (h : (f ()).wp (InRing base) D.Exec Q (s, d)) :
    (assertInterruptsOff >>= f).wp (InRing base) D.Exec Q (s, d) := by
  have he : (assertInterruptsOff >>= f) = .op .pushfq fun _ => f () := by
    simp [assertInterruptsOff, irqAreInterruptsEnabled_eq, driverAssert]
  rw [he, wp_pushfq]
  exact ⟨⟨by simp, by simp, trivial⟩, h⟩

theorem disciplined_load {v : Var} (h : ∀ a, v ≠ .byte a) : (Action.load v).Disciplined base := by
  refine ⟨by simp, by simp, ?_⟩
  cases v with
  | byte a => exact absurd rfl (h a)
  | _ => trivial

theorem disciplined_store {v : Var} {x : v.Ty} (h : ∀ a, v ≠ .byte a) :
    (Action.store v x).Disciplined base := by
  refine ⟨by simp, by simp, ?_⟩
  cases v with
  | byte a => exact absurd rfl (h a)
  | _ => trivial

theorem load_wp {v : Var} {f : v.Ty → Driver α} {Q : α → DriverState × δ → Prop}
    (hv : ∀ a, v ≠ .byte a) (h : (f (s.vars v)).wp (InRing base) D.Exec Q (s, d)) :
    (load v >>= f).wp (InRing base) D.Exec Q (s, d) :=
  wp_load_bind.mpr ⟨disciplined_load hv, h⟩

theorem store_wp {v : Var} {x : v.Ty} {f : Unit → Driver α} {Q : α → DriverState × δ → Prop}
    (hv : ∀ a, v ≠ .byte a) (h : (f ()).wp (InRing base) D.Exec Q (s.set v x, d)) :
    (store v x >>= f).wp (InRing base) D.Exec Q (s, d) :=
  wp_store_bind.mpr ⟨disciplined_store hv, h⟩

/-- The three ways through the handler, by what the interrupt register says. -/
theorem serIrqHandler_wp {Q : Unit → DriverState × δ → Prop}
    (hstatus : ∀ r d₁ r' d₂, D.inb (comPort iirOffset) d r d₁ → (r >>> 1) &&& 0xFF = 0b11 →
      D.inb (comPort lsrOffset) d₁ r' d₂ → Q () (s, d₂))
    (hdrained : ∀ r d₁, D.inb (comPort iirOffset) d r d₁ → (r >>> 1) &&& 0xFF = 0b01 →
      (initHwWrite base).wp (InRing base) D.Exec Q (s.set .serBusy false, d₁))
    (hother : ∀ r d₁, D.inb (comPort iirOffset) d r d₁ → (r >>> 1) &&& 0xFF ≠ 0b11 →
      (r >>> 1) &&& 0xFF ≠ 0b01 → Q () (s, d₁)) :
    (serIrqHandler base com1IrqNum).wp (InRing base) D.Exec Q (s, d) := by
  have he : serIrqHandler base com1IrqNum = (readSerReg iirOffset >>= fun iirVal =>
      if (iirVal >>> 1) &&& 0xFF = 0b11 then readSerReg lsrOffset >>= fun _ => .ret ()
      else if (iirVal >>> 1) &&& 0xFF = 0b01 then
        store .serBusy false >>= fun _ => initHwWrite base
      else .ret ()) := rfl
  rw [he]
  apply readSerReg_wp
  intro r d₁ hr
  by_cases hl : (r >>> 1) &&& 0xFF = 0b11
  · rw [if_pos hl]
    apply readSerReg_wp
    intro r' d₂ hr'
    exact hstatus r d₁ r' d₂ hr hl hr'
  · rw [if_neg hl]
    by_cases hi : (r >>> 1) &&& 0xFF = 0b01
    · rw [if_pos hi]
      exact store_wp (by simp) (hdrained r d₁ hr hi)
    · rw [if_neg hi]
      exact hother r d₁ hr hl hi

theorem isBuffEmpty_wp {Q : Bool → DriverState × δ → Prop}
    (hQ : Q (s.vars .serC == s.vars .serP) (s, d)) :
    isBuffEmpty.wp (InRing base) D.Exec Q (s, d) := by
  rw [isBuffEmpty]
  apply assertInterruptsOff_wp
  exact load_wp (by simp) (load_wp (by simp) hQ)

theorem isBuffFull_wp (h : SerRep base s i q) {Q : Bool → DriverState × δ → Prop}
    (hQ : Q (decide (q.length = 1023)) (s, d)) :
    isBuffFull.wp (InRing base) D.Exec Q (s, d) := by
  have hfull := h.full_iff
  rw [isBuffFull]
  apply assertInterruptsOff_wp
  refine load_wp (by simp) (load_wp (by simp) ?_)
  by_cases hbelow : s.vars .serP = s.vars .serC - 1
  · rw [if_pos hbelow]
    rw [decide_eq_true (hfull.mp (Or.inl hbelow))] at hQ
    exact hQ
  · rw [if_neg hbelow]
    refine load_wp (by simp) (load_wp (by simp) ?_)
    have he : (s.vars .serP == s.vars .serC + buffSize - 1) = decide (q.length = 1023) := by
      rw [beq_eq_decide, decide_eq_decide]
      rw [or_iff_right hbelow] at hfull
      exact hfull
    rw [he]
    exact hQ

theorem consume_empty_wp (h : s.vars .serC = s.vars .serP)
    {Q : Option Byte → DriverState × δ → Prop} (hQ : Q none (s, d)) :
    (consume base).wp (InRing base) D.Exec Q (s, d) := by
  rw [consume]
  apply assertInterruptsOff_wp
  apply wp_bind
  apply isBuffEmpty_wp
  rw [beq_iff_eq.mpr h, if_pos rfl]
  exact hQ

theorem consume_wp (h : SerRep base s i (b :: q)) {Q : Option Byte → DriverState × δ → Prop}
    (hnext : ∀ s', SerRep base s' ((i + 1) % 1024) q →
      s'.vars .serBusy = s.vars .serBusy → Q (some b) (s', d)) :
    (consume base).wp (InRing base) D.Exec Q (s, d) := by
  have hi := h.head_lt
  have hne : (s.vars .serC == s.vars .serP) = false := by
    simp [h.empty_iff]
  have hbyte : s.vars (.byte (slot base i)) = b := by
    have hb := h.bytes 0 b rfl
    rwa [Nat.add_zero, Nat.mod_eq_of_lt hi] at hb
  rw [consume]
  apply assertInterruptsOff_wp
  apply wp_bind
  apply isBuffEmpty_wp
  rw [hne, if_neg (by simp)]
  refine load_wp (by simp) (wp_load_bind.mpr ⟨⟨by simp, by simp, ?_⟩, ?_⟩)
  · rw [h.consumer]
    exact inBuffer_slot hi
  refine load_wp (by simp) (store_wp (by simp) ?_)
  refine load_wp (by simp) (wp_bind (wp_when (fun hend => ?_) fun hend => ?_))
  · rw [DriverState.set_self, h.consumer, slot_succ, slot_end_iff hi] at hend
    refine wp_store.mpr ⟨disciplined_store (by simp), ?_⟩
    rw [h.consumer, hbyte]
    refine hnext _ (h.tail ?_ (by simp) fun a => by simp) (by simp)
    simp [hend, slot]
  · rw [DriverState.set_self, h.consumer, slot_succ, slot_end_iff hi] at hend
    rw [h.consumer, hbyte]
    refine hnext _ (h.tail ?_ (by simp) fun a => by simp) (by simp)
    rw [DriverState.set_self, slot_succ, Nat.mod_eq_of_lt (by omega)]

theorem produce_wp (h : SerRep base s i q) {Q : Bool → DriverState × δ → Prop}
    (hfull : q.length = 1023 → Q false (s, d))
    (hroom : q.length ≠ 1023 → ∀ s', SerRep base s' i (q ++ [b]) →
      s'.vars .serBusy = s.vars .serBusy → Q true (s', d)) :
    (produce base b).wp (InRing base) D.Exec Q (s, d) := by
  have hp : (i + q.length) % 1024 < 1024 := Nat.mod_lt _ (by decide)
  rw [produce]
  apply assertInterruptsOff_wp
  refine wp_bind (isBuffFull_wp h ?_)
  by_cases hlen : q.length = 1023
  · rw [decide_eq_true hlen, if_pos rfl]
    exact hfull hlen
  · have hnext : (s.set (.byte (s.vars .serP)) b).vars .serP + 1 =
        slot base ((i + q.length) % 1024 + 1) := by
      have hkeep : (s.set (.byte (s.vars .serP)) b).vars .serP = s.vars .serP := by simp
      rw [hkeep, h.producer, slot_succ]
    have hnew : (s.set (.byte (s.vars .serP)) b).vars
        (.byte (slot base ((i + q.length) % 1024))) = b := by
      rw [← h.producer]
      simp
    rw [decide_eq_false hlen, if_neg (by simp)]
    refine load_wp (by simp) (wp_store_bind.mpr ⟨⟨by simp, by simp, ?_⟩, ?_⟩)
    · rw [h.producer]
      exact inBuffer_slot hp
    refine load_wp (by simp) (store_wp (by simp) ?_)
    refine load_wp (by simp) (wp_bind (wp_when (fun hend => ?_) fun hend => ?_))
    · rw [DriverState.set_self, hnext, slot_end_iff hp] at hend
      have hm : (i + q.length + 1) % 1024 = 0 := by omega
      refine wp_store.mpr ⟨disciplined_store (by simp), ?_⟩
      refine hroom hlen _ (h.concat hlen (by simp) ?_ (by simp [hnew]) fun a ha => ?_) (by simp)
      · simp [hm, slot]
      · simp [h.producer, ha]
    · rw [DriverState.set_self, hnext, slot_end_iff hp] at hend
      have hm : (i + q.length + 1) % 1024 = (i + q.length) % 1024 + 1 := by omega
      refine hroom hlen _ (h.concat hlen (by simp) ?_ (by simp [hnew]) fun a ha => ?_) (by simp)
      · rw [DriverState.set_self, hnext, hm]
      · simp [h.producer, ha]

end SkipOS
