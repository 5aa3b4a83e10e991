import SkipOS.Printk
import SkipOS.Sheet

/-! `VGA_display_str` on the screen. Its index is 16 bits wide where `strlen` counts the same
characters in 64. -/

namespace SkipOS

open Prog

variable {δ : Type} {D : Device δ} {s : CString} {t u v : DriverState × δ} {pg : Page}
  {calls : List VgaCall} {fuel i : Nat}

namespace Screen

/-- The loop of `VGA_display_str`. -/
def vgaDisplayStrLoop (s : CString) : Nat → BitVec 16 → Driver Unit
  | 0, _ => .op .fuel Empty.elim
  | fuel + 1, index =>
    if s.at index.toNat = 0 then return ()
    else do
      vgaDisplayChar (s.at index.toNat)
      vgaDisplayStrLoop s fuel (index + 1)

def vgaDisplayStr (fuel : Nat) : Option CString → Driver Unit
  | none => driverAssert false
  | some s => vgaDisplayStrLoop s fuel 0

end Screen

/-- The loop of `strlen`. -/
def strlenLoop (s : CString) : Nat → Word → Option Word
  | 0, _ => none
  | fuel + 1, len => if s.at len.toNat = 0 then some len else strlenLoop s fuel (len + 1)

def strlen (fuel : Nat) (s : CString) : Option Word := strlenLoop s fuel 0

/-- No assertion fails and the iteration bound is not reached. -/
abbrev Ends : Action → DriverState × δ → Prop := fun o _ => o ≠ .halt ∧ o ≠ .fuel

/-- `VGA_display_str` ends with each character of the string displayed once and in order, and
these are the characters `strlen` counts. -/
structure DisplaysStr (D : Device δ) (s : CString) (t : DriverState × δ) : Prop where
  shown : ∃ fuel, (Screen.vgaDisplayStr fuel (some s)).wp Ends D.Exec
      (fun _ u => VgaRun D t (s.bytes.map .display) u ∧
        Draws (s.bytes.foldl Page.display (pageOf t.1)) u.1) t ∧
    ∃ u, (Screen.vgaDisplayStr fuel (some s)).Runs D.Exec t () u
  counted : ∃ fuel len, strlen fuel s = some len ∧ (List.range len.toNat).map s.at = s.bytes

theorem displayChar_wp {c : Byte} (hrun : VgaRun D t calls u) (h : Draws pg u.1) :
    (vgaDisplayChar c).wp Ends D.Exec
      (fun _ v => VgaRun D t (calls ++ [.display c]) v ∧ Draws (pg.display c) v.1) u := by
  obtain ⟨s, d⟩ := u
  have hwp := vgaDisplayChar_wp (D := D) (d := d) (c := c) h
  refine wp_iff.mpr ⟨fun o v hp => ⟨hwp.performs hp, ?_⟩, fun _ v hr => ⟨hrun.call hr, hwp.runs hr⟩⟩
  rintro rfl
  exact (screen_vgaDisplayChar c).performs hp

/-- From index `i` on the rest of the string is displayed. -/
theorem displayStrLoop_wp (hlen : s.bytes.length < 2 ^ 16) (hi : i ≤ s.bytes.length)
    (hfuel : s.bytes.length - i < fuel) (hrun : VgaRun D t calls u) (h : Draws pg u.1) :
    (Screen.vgaDisplayStrLoop s fuel (BitVec.ofNat 16 i)).wp Ends D.Exec
      (fun _ v => VgaRun D t (calls ++ (s.bytes.drop i).map .display) v ∧
        Draws ((s.bytes.drop i).foldl Page.display pg) v.1) u := by
  induction fuel generalizing i calls u pg with
  | zero => exact absurd hfuel (Nat.not_lt_zero _)
  | succ fuel ih =>
    have hidx : (BitVec.ofNat 16 i).toNat = i := toNat_ofNat_of_lt (by omega)
    rw [Screen.vgaDisplayStrLoop, hidx]
    rcases Nat.lt_or_eq_of_le hi with hlt | rfl
    · have hne : s.at i ≠ 0 := fun hz => Nat.not_le_of_lt hlt (CString.at_eq_zero_iff.mp hz)
      rw [if_neg hne, ofNat_add_one, List.drop_eq_getElem_cons hlt, List.map_cons, List.foldl_cons,
        ← CString.at_eq_getElem hlt, List.append_cons]
      refine wp_bind (wp_mono (displayChar_wp hrun h) ?_)
      rintro - v ⟨hrun', h'⟩
      exact ih hlt (by omega) hrun' h'
    · rw [if_pos (CString.at_eq_zero_iff.mpr (Nat.le_refl _)), List.drop_length, List.map_nil,
        List.append_nil]
      exact ⟨hrun, h⟩

theorem displayStrLoop_only (fuel : Nat) (index : BitVec 16) :
    (Screen.vgaDisplayStrLoop s fuel index).Only fun o => o.OnScreen ∨ o = .fuel := by
  induction fuel generalizing index with
  | zero => exact ⟨Or.inr rfl, fun r => r.elim⟩
  | succ fuel ih =>
    rw [Screen.vgaDisplayStrLoop]
    exact Only.ite (only_ret _)
      (((screen_vgaDisplayChar _).mono fun _ => Or.inl).bind fun _ => ih _)

theorem Action.OnScreen.enabled {o : Action} (ho : o.OnScreen) (hhalt : o ≠ .halt)
    (u : DriverState × δ) : ∃ r u', D.Exec o u r u' := by
  cases o with
  | pushfq => exact ⟨_, u, ⟨rfl, rfl⟩, rfl⟩
  | load v => exact ⟨_, u, ⟨rfl, rfl⟩, rfl⟩
  | store v x => exact ⟨(), (_, u.2), rfl, rfl⟩
  | halt => exact absurd rfl hhalt
  | _ => exact ho.elim

/-- An index of 16 bits never reaches the end of a string of `2 ^ 16` characters. -/
theorem displayStrLoop_endless (hlen : 2 ^ 16 ≤ s.bytes.length) (fuel : Nat) (index : BitVec 16) :
    ¬ (Screen.vgaDisplayStrLoop s fuel index).Runs D.Exec t () u := by
  induction fuel generalizing index t with
  | zero =>
    intro h
    obtain ⟨r, -⟩ := runs_op_iff.mp h
    exact r.elim
  | succ fuel ih =>
    have hne : s.at index.toNat ≠ 0 := fun hz =>
      Nat.not_le_of_lt index.isLt (hlen.trans (CString.at_eq_zero_iff.mp hz))
    rw [Screen.vgaDisplayStrLoop, if_neg hne, runs_bind_iff]
    rintro ⟨-, v, -, h⟩
    exact ih _ h

theorem strlenLoop_eq (hlen : s.bytes.length < 2 ^ 64) (hi : i ≤ s.bytes.length)
    (hfuel : s.bytes.length - i < fuel) :
    strlenLoop s fuel (BitVec.ofNat 64 i) = some (BitVec.ofNat 64 s.bytes.length) := by
  induction fuel generalizing i with
  | zero => exact absurd hfuel (Nat.not_lt_zero _)
  | succ fuel ih =>
    have hidx : (BitVec.ofNat 64 i).toNat = i := toNat_ofNat_of_lt (by omega)
    rw [strlenLoop, hidx]
    rcases Nat.lt_or_eq_of_le hi with hlt | rfl
    · have hne : s.at i ≠ 0 := fun hz => Nat.not_le_of_lt hlt (CString.at_eq_zero_iff.mp hz)
      rw [if_neg hne, ofNat_add_one]
      exact ih hlt (by omega)
    · rw [if_pos (CString.at_eq_zero_iff.mpr (Nat.le_refl _))]

theorem map_at_range (s : CString) : (List.range s.bytes.length).map s.at = s.bytes := by
  apply List.ext_getElem
  · rw [List.length_map, List.length_range]
  · intro i hi hi'
    rw [List.getElem_map, List.getElem_range, CString.at_eq_getElem hi']

/-- A string is displayed just when its length is a value of the index. -/
theorem displaysStr_iff (h : Positioned t.1) : DisplaysStr D s t ↔ s.bytes.length < 65536 := by
  constructor
  · rintro ⟨⟨fuel, -, u, hrun⟩, -⟩
    by_contra hlen
    exact displayStrLoop_endless (Nat.le_of_not_lt hlen) fuel 0 hrun
  · intro hlen
    have hrefl : VgaRun D t [] t := .refl
    have hwp := displayStrLoop_wp hlen (Nat.zero_le _) (Nat.lt_succ_self _) hrefl h.draws
    rw [List.drop_zero, List.nil_append] at hwp
    obtain ⟨_, u, hrun⟩ := hwp.exists_runs (displayStrLoop_only _ _) fun o v ho hok =>
      (ho.resolve_right hok.2).enabled hok.1 v
    refine ⟨⟨s.bytes.length + 1, hwp, u, hrun⟩, s.bytes.length + 1, _,
      strlenLoop_eq (by omega) (Nat.zero_le _) (Nat.lt_succ_self _), ?_⟩
    rw [toNat_ofNat_of_lt (by omega), map_at_range]

theorem positioned_zero : Positioned ⟨0, zeroVars⟩ := ⟨by decide, by decide⟩

def okText : CString := ⟨['o', 'k'].map ch, by decide⟩

theorem displaysStr_okText : DisplaysStr unplugged okText (⟨0, zeroVars⟩, ()) :=
  (displaysStr_iff positioned_zero).mpr (by decide)

/-- As many characters as the index has values. -/
def longText : CString :=
  ⟨List.replicate 65536 0x61, fun h => absurd (List.eq_of_mem_replicate h) (by decide)⟩

theorem longText_not_displayed :
    Positioned ⟨0, zeroVars⟩ ∧ ¬ DisplaysStr unplugged longText (⟨0, zeroVars⟩, ()) := by
  refine ⟨positioned_zero, fun h => ?_⟩
  obtain ⟨fuel, -, u, hrun⟩ := h.shown
  exact displayStrLoop_endless (List.length_replicate ▸ Nat.le_refl _) fuel 0 hrun

end SkipOS
