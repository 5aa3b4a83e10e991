import SkipOS.Lib.Program

/-! Preconditions of programs. `wp ok exec p Q s` holds when every operation that `p` performs
from `s` meets `ok` where it is performed and every run that ends does so in `Q`. -/

namespace Prog

variable {Op : Type} {Res : Op → Type} {α β σ τ : Type}

/-- The program started in a state performs an operation in a later one. -/
inductive Performs (exec : (o : Op) → σ → Res o → σ → Prop) :
    Prog Op Res α → σ → Op → σ → Prop
  | here {o : Op} {k : Res o → Prog Op Res α} {s : σ} : Performs exec (op o k) s o s
  | later {o o' : Op} {k : Res o → Prog Op Res α} {r : Res o} {s s' t : σ} (h : exec o s r s')
      (hk : Performs exec (k r) s' o' t) : Performs exec (op o k) s o' t

def wp (ok : Op → σ → Prop) (exec : (o : Op) → σ → Res o → σ → Prop) :
    Prog Op Res α → (α → σ → Prop) → σ → Prop
  | ret a, Q, s => Q a s
  | op o k, Q, s => ok o s ∧ ∀ r s', exec o s r s' → (k r).wp ok exec Q s'

/-- The run of a deterministic handler of operations. -/
def eval (step : (o : Op) → σ → Option (Res o × σ)) : Prog Op Res α → σ → Option (α × σ)
  | ret a, s => some (a, s)
  | op o k, s => (step o s).bind fun x => (k x.1).eval step x.2

/-- The state at the end of the run, if there is an end. -/
def final (step : (o : Op) → σ → Option (Res o × σ)) (p : Prog Op Res Unit) (s : σ) : σ :=
  ((p.eval step s).map Prod.snd).getD s

variable {ok : Op → σ → Prop} {exec : (o : Op) → σ → Res o → σ → Prop} {Q R : α → σ → Prop}
  {S : β → σ → Prop} {s t : σ} {a b : α} {o : Op} {p : Prog Op Res α} {f : α → Prog Op Res β}

@[simp] theorem wp_ret : (ret a : Prog Op Res α).wp ok exec Q s ↔ Q a s := Iff.rfl

theorem wp_op {k : Res o → Prog Op Res α} : (op o k).wp ok exec Q s ↔
    ok o s ∧ ∀ r s', exec o s r s' → (k r).wp ok exec Q s' := Iff.rfl

theorem wp_mono (h : p.wp ok exec Q s) (hQ : ∀ a t, Q a t → R a t) : p.wp ok exec R s := by
  induction p generalizing s with
  | ret a => exact hQ a s h
  | op o k ih => exact ⟨h.1, fun r s' he => ih r (h.2 r s' he)⟩

theorem wp_bind_iff :
    (p >>= f).wp ok exec S s ↔ p.wp ok exec (fun a t => (f a).wp ok exec S t) s := by
  induction p generalizing s with
  | ret a => exact Iff.rfl
  | op o k ih =>
    apply and_congr_right
    intro _
    exact forall₂_congr fun r s' => imp_congr_right fun _ => ih r

theorem wp_bind (h : p.wp ok exec (fun a t => (f a).wp ok exec S t) s) :
    (p >>= f).wp ok exec S s := wp_bind_iff.mpr h

theorem wp_when {c : Prop} [Decidable c] {p : Prog Op Res Unit} {Q : Unit → σ → Prop}
    (hp : c → p.wp ok exec Q s) (hn : ¬ c → Q () s) : (Prog.when c p).wp ok exec Q s := by
  by_cases hc : c
  · rw [Prog.when, if_pos hc]
    exact hp hc
  · rw [Prog.when, if_neg hc]
    exact hn hc

/-- What each of its operations keeps a program keeps. -/
theorem Only.wp {P : Op → Prop} {I : σ → Prop} (hp : p.Only P) (hok : ∀ o s, P o → ok o s)
    (hI : ∀ o s r s', P o → exec o s r s' → I s → I s') (hs : I s) :
    p.wp ok exec (fun _ t => I t) s := by
  induction p generalizing s with
  | ret a => exact hs
  | op o k ih => exact ⟨hok o s hp.1, fun r s' he => ih r (hp.2 r) (hI o s r s' hp.1 he hs)⟩

/-- What each of the operations keeps is kept besides. -/
theorem wp.frame {P : Op → Prop} {ok' : Op → σ → Prop} {I : σ → Prop} (h : p.wp ok exec Q s)
    (hp : p.Only P) (hok : ∀ o s, P o → ok o s → ok' o s)
    (hI : ∀ o s r s', P o → ok o s → exec o s r s' → I s → I s') (hs : I s) :
    p.wp ok' exec (fun a t => Q a t ∧ I t) s := by
  induction p generalizing s with
  | ret a => exact ⟨h, hs⟩
  | op o k ih =>
    exact ⟨hok o s hp.1 h.1, fun r s' he => ih r (h.2 r s' he) (hp.2 r) (hI o s r s' hp.1 h.1 he hs)⟩

/-- What the rules derive holds of every run. -/
theorem wp.runs (h : p.wp ok exec Q s) (hrun : p.Runs exec s a t) : Q a t := by
  induction hrun with
  | ret a s => exact h
  | op he _ ih => exact ih (h.2 _ _ he)

theorem wp.performs (h : p.wp ok exec Q s) (hp : p.Performs exec s o t) : ok o t := by
  induction hp with
  | here => exact h.1
  | later he _ ih => exact ih (h.2 _ _ he)

/-- Nothing is lost: the rules describe what is performed and how runs end, no more. -/
theorem wp_iff : p.wp ok exec Q s ↔
    (∀ o t, p.Performs exec s o t → ok o t) ∧ ∀ a t, p.Runs exec s a t → Q a t := by
  constructor
  · intro h
    exact ⟨fun o t hp => h.performs hp, fun a t hr => h.runs hr⟩
  · rintro ⟨hok, hQ⟩
    induction p generalizing s with
    | ret a => exact hQ a s (.ret a s)
    | op o k ih =>
      refine ⟨hok o s .here, fun r s' he => ih r ?_ ?_⟩
      · intro o' t hp
        exact hok o' t (.later he hp)
      · intro a t hr
        exact hQ a t (.op he hr)

theorem Only.performs {P : Op → Prop} (hp : p.Only P) (h : p.Performs exec s o t) : P o := by
  induction h with
  | here => exact hp.1
  | later _ _ ih => exact ih (hp.2 _)

/-- Where every operation can be performed there is a run. -/
theorem wp.exists_runs {P : Op → Prop} (h : p.wp ok exec Q s) (hp : p.Only P)
    (hcan : ∀ o s, P o → ok o s → ∃ r s', exec o s r s') : ∃ a t, p.Runs exec s a t := by
  induction p generalizing s with
  | ret a => exact ⟨a, s, .ret a s⟩
  | op o k ih =>
    obtain ⟨r, s', he⟩ := hcan o s hp.1 h.1
    obtain ⟨a, t, hr⟩ := ih r (h.2 r s' he) (hp.2 r)
    exact ⟨a, t, .op he hr⟩

theorem runs_of_eval {step : (o : Op) → σ → Option (Res o × σ)}
    (hstep : ∀ o s r s', step o s = some (r, s') → exec o s r s')
    (h : p.eval step s = some (a, t)) : p.Runs exec s a t := by
  induction p generalizing s with
  | ret b =>
    simp only [eval, Option.some.injEq, Prod.mk.injEq] at h
    obtain ⟨rfl, rfl⟩ := h
    exact .ret b s
  | op o k ih =>
    obtain ⟨⟨r, s'⟩, hs, hk⟩ := Option.bind_eq_some_iff.mp h
    exact .op (hstep o s r s' hs) (ih r hk)

theorem runs_final {step : (o : Op) → σ → Option (Res o × σ)} {p : Prog Op Res Unit}
    (hstep : ∀ o s r s', step o s = some (r, s') → exec o s r s')
    (h : (p.eval step s).isSome = true) : p.Runs exec s () (p.final step s) := by
  obtain ⟨⟨u, t⟩, he⟩ := Option.isSome_iff_exists.mp h
  rw [final, he]
  exact runs_of_eval hstep he

theorem runs_ret_iff : (ret a : Prog Op Res α).Runs exec s b t ↔ b = a ∧ t = s := by
  constructor
  · rintro ⟨⟩
    exact ⟨rfl, rfl⟩
  · rintro ⟨rfl, rfl⟩
    exact .ret b t

theorem runs_op_iff {k : Res o → Prog Op Res α} :
    (op o k).Runs exec s a t ↔ ∃ r s', exec o s r s' ∧ (k r).Runs exec s' a t := by
  constructor
  · intro h
    cases h with
    | op he hk => exact ⟨_, _, he, hk⟩
  · rintro ⟨r, s', he, hk⟩
    exact .op he hk

/-- A run of two programs in sequence goes through the end of the first. -/
theorem runs_bind_iff {b : β} : (p >>= f).Runs exec s b t ↔
    ∃ a u, p.Runs exec s a u ∧ (f a).Runs exec u b t := by
  induction p generalizing s with
  | ret a =>
    constructor
    · intro h
      exact ⟨a, s, .ret a s, h⟩
    · rintro ⟨c, u, hc, h⟩
      obtain ⟨rfl, rfl⟩ := runs_ret_iff.mp hc
      exact h
  | op o k ih =>
    rw [op_bind, runs_op_iff]
    constructor
    · rintro ⟨r, s', he, hk⟩
      obtain ⟨a, u, ha, hb⟩ := ih r |>.mp hk
      exact ⟨a, u, .op he ha, hb⟩
    · rintro ⟨a, u, ha, hb⟩
      obtain ⟨r, s', he, hk⟩ := runs_op_iff.mp ha
      exact ⟨r, s', he, ih r |>.mpr ⟨a, u, hk, hb⟩⟩

theorem Runs.performs_bind {u : σ} (h : p.Runs exec s a t) (hf : (f a).Performs exec t o u) :
    (p >>= f).Performs exec s o u := by
  induction h with
  | ret a s => exact hf
  | op he _ ih => exact .later he (ih hf)

/-- An execution that does no more can do nothing else. -/
theorem Runs.map {exec' : (o : Op) → τ → Res o → τ → Prop} {g : σ → τ}
    (hg : ∀ o s r s', exec o s r s' → exec' o (g s) r (g s')) (hrun : p.Runs exec s a t) :
    p.Runs exec' (g s) a (g t) := by
  induction hrun with
  | ret a s => exact .ret a (g s)
  | op he _ ih => exact .op (hg _ _ _ _ he) ih

/-- The same for a program of certain operations only, where an invariant of theirs is needed. -/
theorem Runs.map_only {P : Op → Prop} {I : σ → Prop}
    {exec' : (o : Op) → τ → Res o → τ → Prop} {g : σ → τ}
    (hI : ∀ o s r s', P o → exec o s r s' → I s → I s')
    (hg : ∀ o s r s', P o → I s → exec o s r s' → exec' o (g s) r (g s')) (hp : p.Only P) (hs : I s)
    (hrun : p.Runs exec s a t) : p.Runs exec' (g s) a (g t) ∧ I t := by
  induction hrun with
  | ret a s => exact ⟨.ret a (g s), hs⟩
  | op he _ ih =>
    obtain ⟨hrest, ht⟩ := ih (hp.2 _) (hI _ _ _ _ hp.1 he hs)
    exact ⟨.op (hg _ _ _ _ hp.1 hs he) hrest, ht⟩

end Prog
