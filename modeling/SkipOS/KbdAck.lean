import SkipOS.KbdHandshake
import SkipOS.Lib.Calls
import Mathlib.Data.Nat.Find

/-! `verify_kbd_ack` against every stream of responses. -/

namespace SkipOS

open Prog

/-- What the ports of the keyboard give, read by read. The controller takes bytes again and
again. -/
structure KbdLine where
  response : Nat → Byte
  status : Nat → Byte
  takes : ∀ n, ∃ k, status (n + k) &&& inputBuffStatusMsk = 0

/-- How often the two ports were read and what was written to the first. -/
structure LineState where
  received : Nat
  polled : Nat
  sent : List Byte

def KbdLine.device (line : KbdLine) : Device LineState where
  inb port d r d' :=
    if port = ioP1 then r = line.response d.received ∧ d' = { d with received := d.received + 1 }
    else if port = ioP2 then r = line.status d.polled ∧ d' = { d with polled := d.polled + 1 }
    else d' = d
  outb port val d d' := d' = if port = ioP1 then { d with sent := d.sent ++ [val] } else d
  step _ _ := False

/-- `MAX_KBD_RESEND` -/
def resendLimit : Nat := maxKbdResend.toNat

section

variable (line : KbdLine) (kbdSentByte : Byte) (u : DriverState × LineState)

/-- `verify_kbd_ack` returns after `n` resends. -/
def SucceedsAfter (n : Nat) : Prop :=
  ∃ fuel t, (verifyKbdAck fuel kbdSentByte).Runs line.device.Exec u () t ∧
    t.2.sent = u.2.sent ++ List.replicate n kbdSentByte

/-- An assertion of `verify_kbd_ack` fails after `n` resends. -/
def FailsAfter (n : Nat) : Prop :=
  ∃ fuel t, (verifyKbdAck fuel kbdSentByte).Performs line.device.Exec u .halt t ∧
    t.2.sent = u.2.sent ++ List.replicate n kbdSentByte

/-- The response number `i` from now on, where 0 is that to the original byte. -/
def responseTo (i : Nat) : Byte := line.response (u.2.received + i)

def FirstAck (n : Nat) : Prop :=
  responseTo line u n = kbdAckRsp ∧ ∀ i, i < n → responseTo line u i ≠ kbdAckRsp

/-- Success is that one of the first responses is an ACK; the byte was sent again once for each
response before it, or as often as the limit allows. -/
structure VerifiesAck : Prop where
  succeeds : (∃ n, SucceedsAfter line kbdSentByte u n) ↔
    ∃ i, i ≤ resendLimit ∧ responseTo line u i = kbdAckRsp
  resends : ∀ n, SucceedsAfter line kbdSentByte u n → FirstAck line u n
  fails : (¬ ∃ i, i ≤ resendLimit ∧ responseTo line u i = kbdAckRsp) →
    FailsAfter line kbdSentByte u resendLimit

end

variable {line : KbdLine} {kbdSentByte : Byte} {s : DriverState} {d d' : LineState}
  {u : DriverState × LineState} {fuel n k : Nat}

/-- The byte was sent again `k` times, and `k` responses were not an ACK. -/
structure Resent (line : KbdLine) (kbdSentByte : Byte) (d : LineState) (k : Nat) (d' : LineState) :
    Prop where
  sent : d'.sent = d.sent ++ List.replicate k kbdSentByte
  unacked : ∀ i, i < k → line.response (d.received + i) ≠ kbdAckRsp

theorem device_inb_data {r : Byte} : line.device.inb ioP1 d r d' ↔
    r = line.response d.received ∧ d' = { d with received := d.received + 1 } := by
  simp [KbdLine.device]

theorem device_inb_status {r : Byte} : line.device.inb ioP2 d r d' ↔
    r = line.status d.polled ∧ d' = { d with polled := d.polled + 1 } := by
  have hne : ioP2 ≠ ioP1 := by decide
  simp [KbdLine.device, hne]

theorem device_outb_data {val : Byte} :
    line.device.outb ioP1 val d d' ↔ d' = { d with sent := d.sent ++ [val] } := by
  simp [KbdLine.device]

theorem writeDataByte_wp (fuel : Nat) (dataByte : Byte) (d : LineState) :
    (writeDataByte fuel dataByte).wp (fun _ _ => True) line.device.Exec
      (fun _ v => v.2.sent = d.sent ++ [dataByte] ∧ v.2.received = d.received) (s, d) := by
  have hwait : (waitWriteData fuel).wp (fun _ _ => True) line.device.Exec
      (fun _ v => v.2.sent = d.sent ∧ v.2.received = d.received) (s, d) := by
    have hpoll (d₁ : LineState) (r : Byte) (d₂ : LineState)
        (h : d₁.sent = d.sent ∧ d₁.received = d.received) (hin : line.device.inb ioP2 d₁ r d₂) :
        d₂.sent = d.sent ∧ d₂.received = d.received := by
      obtain ⟨-, rfl⟩ := device_inb_status.mp hin
      exact h
    exact waitWriteData_rule (fun _ => ⟨trivial, trivial⟩)
      (fun d₁ r d₂ h hin _ => hpoll d₁ r d₂ h hin) (fun d₁ r d₂ h hin _ => hpoll d₁ r d₂ h hin)
      fuel ⟨rfl, rfl⟩
  refine wp_bind (wp_mono hwait ?_)
  rintro - ⟨s', d'⟩ ⟨hsent, hreceived⟩
  refine wp_outb.mpr ⟨trivial, fun d'' hout => ?_⟩
  obtain rfl := device_outb_data.mp hout
  refine ⟨?_, hreceived⟩
  show d'.sent ++ [dataByte] = d.sent ++ [dataByte]
  rw [hsent]

theorem reads_status : line.device.Exec (.inb ioP2) (s, d) (line.status d.polled)
    (s, { d with polled := d.polled + 1 }) := ⟨device_inb_status.mpr ⟨rfl, rfl⟩, rfl⟩

theorem reads_response : line.device.Exec (.inb ioP1) (s, d) (line.response d.received)
    (s, { d with received := d.received + 1 }) := ⟨device_inb_data.mpr ⟨rfl, rfl⟩, rfl⟩

theorem waitWriteData_step (h : (if line.status d.polled &&& inputBuffStatusMsk ≠ 0 then
    waitWriteData fuel else pure ()).Runs line.device.Exec
      (s, { d with polled := d.polled + 1 }) () (s, d')) :
    (waitWriteData (fuel + 1)).Runs line.device.Exec (s, d) () (s, d') := .op reads_status h

/-- The wait ends with the first poll that finds the buffer clear. -/
theorem waitWriteData_runs (hclear : line.status (d.polled + k) &&& inputBuffStatusMsk = 0)
    (hbusy : ∀ i, i < k → line.status (d.polled + i) &&& inputBuffStatusMsk ≠ 0)
    (hfuel : k < fuel) : (waitWriteData fuel).Runs line.device.Exec (s, d) ()
      (s, { d with polled := d.polled + (k + 1) }) := by
  induction k generalizing d fuel with
  | zero =>
    obtain ⟨fuel, rfl⟩ := Nat.exists_eq_add_one_of_ne_zero (Nat.ne_zero_of_lt hfuel)
    have hnow : line.status d.polled &&& inputBuffStatusMsk = 0 := hclear
    refine waitWriteData_step ?_
    rw [if_neg (not_not.mpr hnow)]
    exact .ret () _
  | succ k ih =>
    obtain ⟨fuel, rfl⟩ := Nat.exists_eq_add_one_of_ne_zero (Nat.ne_zero_of_lt hfuel)
    have hshift (i : Nat) : d.polled + 1 + i = d.polled + (i + 1) := by omega
    have hnow : line.status d.polled &&& inputBuffStatusMsk ≠ 0 := hbusy 0 (Nat.zero_lt_succ k)
    have hrest := ih (d := { d with polled := d.polled + 1 }) ((hshift k).symm ▸ hclear)
      (fun i hi => (hshift i).symm ▸ hbusy (i + 1) (Nat.succ_lt_succ hi))
      (Nat.lt_of_succ_lt_succ hfuel)
    refine waitWriteData_step ?_
    rw [if_pos hnow, ← hshift (k + 1)]
    exact hrest

theorem writeDataByte_runs (line : KbdLine) (dataByte : Byte) (s : DriverState) (d : LineState) :
    ∃ d' enough, ∀ fuel, enough < fuel →
      (writeDataByte fuel dataByte).Runs line.device.Exec (s, d) () (s, d') := by
  let k := Nat.find (line.takes d.polled)
  have hclear : line.status (d.polled + k) &&& inputBuffStatusMsk = 0 :=
    Nat.find_spec (line.takes d.polled)
  have hbusy (i : Nat) (hi : i < k) : line.status (d.polled + i) &&& inputBuffStatusMsk ≠ 0 :=
    Nat.find_min (line.takes d.polled) hi
  refine ⟨{ d with polled := d.polled + (k + 1), sent := d.sent ++ [dataByte] }, k, ?_⟩
  intro fuel hfuel
  refine runs_bind_iff.mpr ⟨(), _, waitWriteData_runs hclear hbusy hfuel, ?_⟩
  exact runs_perform_iff.mpr ⟨device_outb_data.mpr rfl, rfl⟩

/-- `numResend` is exact up to the limit. -/
theorem resend_again_iff {j : Nat} (hj : j ≤ resendLimit) :
    BitVec.ofNat 8 j < maxKbdResend ↔ j < resendLimit := by
  have hlimit : resendLimit = 3 := rfl
  rw [BitVec.lt_def, toNat_ofNat_of_lt (by omega)]
  rfl

/-- The loop was left after `k` resends. -/
structure LoopEnd (line : KbdLine) (kbdSentByte : Byte) (d : LineState) (k : Nat) (d' : LineState) :
    Prop extends Resent line kbdSentByte d k d' where
  limit : k ≤ resendLimit
  done : line.response (d.received + k) = kbdAckRsp ∨ k = resendLimit

theorem Resent.again {d₀ d₁ : LineState} {j : Nat} (h : Resent line kbdSentByte d₀ j d)
    (hne : line.response (d₀.received + j) ≠ kbdAckRsp)
    (hsent : d₁.sent = d.sent ++ [kbdSentByte]) : Resent line kbdSentByte d₀ (j + 1) d₁ := by
  refine ⟨?_, fun i hi => ?_⟩
  · rw [hsent, h.sent, List.append_assoc, List.replicate_succ']
  · rcases Nat.lt_succ_iff_lt_or_eq.mp hi with hlt | rfl
    · exact h.unacked i hlt
    · exact hne

theorem resendLoop_succ (j : Byte) : resendLoop fuel kbdSentByte (n + 1) j =
    .op (.inb ioP1) fun ackByte => if ackByte ≠ kbdAckRsp ∧ j < maxKbdResend then
      writeDataByte fuel kbdSentByte >>= fun _ => resendLoop fuel kbdSentByte n (j + 1)
    else pure j := rfl

/-- With `n` more resends allowed after `j`. -/
theorem resendLoop_wp {d₀ : LineState} {j : Nat} (hj : j + n = resendLimit)
    (h : Resent line kbdSentByte d₀ j d) (hrec : d.received = d₀.received + j) :
    (resendLoop fuel kbdSentByte (n + 1) (BitVec.ofNat 8 j)).wp (fun _ _ => True) line.device.Exec
      (fun numResend v => ∃ k, numResend = BitVec.ofNat 8 k ∧ LoopEnd line kbdSentByte d₀ k v.2)
      (s, d) := by
  induction n using Nat.strong_induction_on generalizing d j s with
  | _ n ih =>
    have hlimit := resend_again_iff (j := j) (by omega)
    rw [resendLoop_succ, wp_inb]
    refine ⟨trivial, fun ackByte d' hin => ?_⟩
    obtain ⟨rfl, rfl⟩ := device_inb_data.mp hin
    rw [hrec]
    by_cases hagain : line.response (d₀.received + j) ≠ kbdAckRsp ∧
        BitVec.ofNat 8 j < maxKbdResend
    · have hlt := hlimit.mp hagain.2
      obtain ⟨n, rfl⟩ := Nat.exists_eq_add_one_of_ne_zero (show n ≠ 0 by omega)
      rw [if_pos hagain, ofNat_add_one]
      refine wp_bind (wp_mono (writeDataByte_wp fuel kbdSentByte _) ?_)
      rintro - ⟨s', d'⟩ ⟨hsent, hreceived⟩
      exact ih n (Nat.lt_succ_self n) (by omega) (h.again hagain.1 hsent) hreceived
    · rw [if_neg hagain]
      refine ⟨j, rfl, ⟨h.sent, h.unacked⟩, by omega, ?_⟩
      rw [not_and_or, not_not, hlimit] at hagain
      exact hagain.imp_right fun hge => by omega

theorem resendLoop_runs (line : KbdLine) (kbdSentByte : Byte) (s : DriverState) (d : LineState)
    {j : Nat} (hj : j + n = resendLimit) :
    ∃ numResend d' enough, ∀ fuel, enough < fuel →
      (resendLoop fuel kbdSentByte (n + 1) (BitVec.ofNat 8 j)).Runs line.device.Exec (s, d)
        numResend (s, d') := by
  induction n using Nat.strong_induction_on generalizing d j with
  | _ n ih =>
    have hlimit := resend_again_iff (j := j) (by omega)
    by_cases hagain : line.response d.received ≠ kbdAckRsp ∧ BitVec.ofNat 8 j < maxKbdResend
    · have hlt := hlimit.mp hagain.2
      obtain ⟨n, rfl⟩ := Nat.exists_eq_add_one_of_ne_zero (show n ≠ 0 by omega)
      obtain ⟨d₁, enough₁, hwrite⟩ :=
        writeDataByte_runs line kbdSentByte s { d with received := d.received + 1 }
      obtain ⟨numResend, d₂, enough₂, hrest⟩ :=
        ih n (Nat.lt_succ_self n) d₁ (show j + 1 + n = resendLimit by omega)
      refine ⟨numResend, d₂, max enough₁ enough₂, fun fuel hfuel => ?_⟩
      rw [max_lt_iff] at hfuel
      rw [resendLoop_succ]
      refine .op reads_response ?_
      rw [if_pos hagain, ofNat_add_one]
      exact runs_bind_iff.mpr ⟨(), _, hwrite fuel hfuel.1, hrest fuel hfuel.2⟩
    · refine ⟨BitVec.ofNat 8 j, { d with received := d.received + 1 }, 0, fun fuel _ => ?_⟩
      rw [resendLoop_succ]
      refine .op reads_response ?_
      rw [if_neg hagain]
      exact .ret _ _

theorem resent_zero : Resent line kbdSentByte d 0 d :=
  ⟨(List.append_nil _).symm, fun i hi => absurd hi (Nat.not_lt_zero i)⟩

theorem verifyKbdAck_eq : verifyKbdAck fuel kbdSentByte =
    (resendLoop fuel kbdSentByte (resendLimit + 1) (BitVec.ofNat 8 0) >>= fun numResend =>
      driverAssert (numResend ≠ maxKbdResend)) := rfl

theorem resends_eq_limit_iff (hk : k ≤ resendLimit) :
    BitVec.ofNat 8 k = maxKbdResend ↔ k = resendLimit := by
  have hlimit : resendLimit = 3 := rfl
  have hmax : maxKbdResend.toNat = 3 := rfl
  rw [← BitVec.toNat_inj, toNat_ofNat_of_lt (by omega), hmax, hlimit]

/-- It returns only after an ACK, and before the limit is reached. -/
theorem SucceedsAfter.firstAck (h : SucceedsAfter line kbdSentByte u n) :
    n < resendLimit ∧ FirstAck line u n := by
  obtain ⟨s, d⟩ := u
  obtain ⟨fuel, ⟨s', d'⟩, hrun, hsent⟩ := h
  rw [verifyKbdAck_eq] at hrun
  obtain ⟨numResend, ⟨s₁, d₁⟩, hloop, hassert⟩ := runs_bind_iff.mp hrun
  obtain ⟨k, rfl, hend⟩ := (resendLoop_wp (Nat.zero_add _) resent_zero rfl).runs hloop
  by_cases hmax : BitVec.ofNat 8 k = maxKbdResend
  · rw [driverAssert, if_neg (by simpa using hmax), runs_op_iff] at hassert
    obtain ⟨r, -⟩ := hassert
    exact r.elim
  · rw [driverAssert, if_pos (by simpa using hmax), pure_eq, runs_ret_iff] at hassert
    obtain rfl : d' = d₁ := congrArg Prod.snd hassert.2
    have hne : k ≠ resendLimit := fun he => hmax ((resends_eq_limit_iff hend.limit).mpr he)
    have hkn : k = n := by
      have hlen := congrArg List.length (hend.sent.symm.trans hsent)
      simpa using hlen
    subst hkn
    exact ⟨Nat.lt_of_le_of_ne hend.limit hne, hend.done.resolve_right hne, hend.unacked⟩

theorem verifyKbdAck_ends (line : KbdLine) (kbdSentByte : Byte) (u : DriverState × LineState) :
    (∃ k, k < resendLimit ∧ SucceedsAfter line kbdSentByte u k) ∨
      (∀ i, i < resendLimit → responseTo line u i ≠ kbdAckRsp) ∧
        FailsAfter line kbdSentByte u resendLimit := by
  obtain ⟨s, d⟩ := u
  obtain ⟨numResend, d', enough, hruns⟩ :=
    resendLoop_runs line kbdSentByte s d (Nat.zero_add resendLimit)
  have hloop := hruns (enough + 1) (Nat.lt_succ_self enough)
  obtain ⟨k, rfl, hend⟩ := (resendLoop_wp (Nat.zero_add _) resent_zero rfl).runs hloop
  rcases Nat.lt_or_eq_of_le hend.limit with hlt | rfl
  · left
    have hmax : BitVec.ofNat 8 k ≠ maxKbdResend := fun he =>
      Nat.ne_of_lt hlt ((resends_eq_limit_iff hend.limit).mp he)
    refine ⟨k, hlt, enough + 1, (s, d'), ?_, hend.sent⟩
    rw [verifyKbdAck_eq]
    refine runs_bind_iff.mpr ⟨_, _, hloop, ?_⟩
    rw [driverAssert, if_pos (by simpa using hmax)]
    exact .ret () _
  · right
    have hmax := (resends_eq_limit_iff hend.limit).mpr rfl
    refine ⟨hend.unacked, enough + 1, (s, d'), ?_, hend.sent⟩
    rw [verifyKbdAck_eq]
    refine hloop.performs_bind ?_
    rw [driverAssert, if_neg (by simpa using hmax)]
    exact .here

/-- The ACK of the last resend allowed is taken for a failure; every other stream is told right. -/
theorem verifiesAck_iff {line : KbdLine} {kbdSentByte : Byte} {u : DriverState × LineState} :
    VerifiesAck line kbdSentByte u ↔ ¬ FirstAck line u resendLimit := by
  constructor
  · rintro h ⟨hack, hbefore⟩
    obtain ⟨n, hn⟩ := h.succeeds.mpr ⟨resendLimit, Nat.le_refl _, hack⟩
    obtain ⟨hlt, hfirst⟩ := hn.firstAck
    exact hbefore n hlt hfirst.1
  · intro hnot
    refine ⟨⟨?_, ?_⟩, fun n hn => hn.firstAck.2, ?_⟩
    · rintro ⟨n, hn⟩
      exact ⟨n, Nat.le_of_lt hn.firstAck.1, hn.firstAck.2.1⟩
    · rintro ⟨i, hi, hack⟩
      rcases verifyKbdAck_ends line kbdSentByte u with ⟨k, -, hk⟩ | ⟨hnone, -⟩
      · exact ⟨k, hk⟩
      · rcases Nat.lt_or_eq_of_le hi with hlt | rfl
        · exact absurd hack (hnone i hlt)
        · exact absurd ⟨hack, hnone⟩ hnot
    · intro hnone
      rcases verifyKbdAck_ends line kbdSentByte u with ⟨k, hlt, hk⟩ | ⟨-, hfails⟩
      · exact absurd ⟨k, Nat.le_of_lt hlt, hk.firstAck.2.1⟩ hnone
      · exact hfails

/-- Three requests to send again, then an ACK. -/
def lastAck : KbdLine :=
  ⟨fun i => if i = 3 then kbdAckRsp else 0xFE, fun _ => 0, fun _ => ⟨0, rfl⟩⟩

theorem lastAck_rejected : ¬ VerifiesAck lastAck kbdRstCmd (⟨0, zeroVars⟩, ⟨0, 0, []⟩) := by
  intro h
  obtain ⟨n, hn⟩ := h.succeeds.mpr ⟨3, by decide, rfl⟩
  obtain ⟨hlt, hfirst⟩ := hn.firstAck
  have hnone : ∀ i, i < resendLimit →
      responseTo lastAck (⟨0, zeroVars⟩, ⟨0, 0, []⟩) i ≠ kbdAckRsp := by decide
  exact hnone n hlt hfirst.1

end SkipOS
