import Mathlib.Logic.Relation

/-! Programs as trees of single operations, and runs of them in which a handler may start
before any operation and the program interrupted goes on when the handler ends. -/

/-- `Res o` is what the operation `o` returns. -/
inductive Prog (Op : Type) (Res : Op → Type) (α : Type) where
  | ret (a : α)
  | op (o : Op) (k : Res o → Prog Op Res α)

namespace Prog

variable {Op : Type} {Res : Op → Type} {α β : Type}

def bind : Prog Op Res α → (α → Prog Op Res β) → Prog Op Res β
  | ret a, f => f a
  | op o k, f => op o fun r => (k r).bind f

instance : Monad (Prog Op Res) where
  pure := ret
  bind := bind

def perform (o : Op) : Prog Op Res (Res o) := op o ret

def when (c : Prop) [Decidable c] (p : Prog Op Res Unit) : Prog Op Res Unit :=
  if c then p else ret ()

/-- The operation that comes next. -/
def next : Prog Op Res α → Option Op
  | ret _ => none
  | op o _ => some o

/-- Every operation in the tree meets `P`. -/
def Only (P : Op → Prop) : Prog Op Res α → Prop
  | ret _ => True
  | op o k => P o ∧ ∀ r, (k r).Only P

/-- A run without interruption. -/
inductive Runs {σ : Type} (exec : (o : Op) → σ → Res o → σ → Prop) :
    Prog Op Res α → σ → α → σ → Prop
  | ret (a : α) (s : σ) : Runs exec (ret a) s a s
  | op {o : Op} {k : Res o → Prog Op Res α} {s s' t : σ} {r : Res o} {a : α}
      (h : exec o s r s') (hk : Runs exec (k r) s' a t) : Runs exec (op o k) s a t

variable {P : Op → Prop} {o : Op} {k : Res o → Prog Op Res α} {f : α → Prog Op Res β}

@[simp] theorem pure_eq (a : α) : (pure a : Prog Op Res α) = ret a := rfl

@[simp] theorem ret_bind (a : α) : (ret a >>= f) = f a := rfl

@[simp] theorem op_bind : (op o k >>= f) = op o fun r => k r >>= f := rfl

@[simp] theorem next_ret (a : α) : (ret a : Prog Op Res α).next = none := rfl

@[simp] theorem next_op : (op o k).next = some o := rfl

theorem only_ret (a : α) : (ret a : Prog Op Res α).Only P := trivial

theorem only_true (p : Prog Op Res α) : p.Only fun _ => True := by
  induction p with
  | ret a => exact only_ret a
  | op o k ih => exact ⟨trivial, ih⟩

theorem only_perform (h : P o) : (perform o : Prog Op Res (Res o)).Only P := ⟨h, fun _ => trivial⟩

theorem Only.mono {P' : Op → Prop} {p : Prog Op Res α} (hp : p.Only P) (h : ∀ o, P o → P' o) :
    p.Only P' := by
  induction p with
  | ret a => exact only_ret a
  | op o k ih => exact ⟨h o hp.1, fun r => ih r (hp.2 r)⟩

theorem Only.bind {p : Prog Op Res α} (hp : p.Only P) (hf : ∀ a, (f a).Only P) :
    (p >>= f).Only P := by
  induction p with
  | ret a => exact hf a
  | op o k ih => exact ⟨hp.1, fun r => ih r (hp.2 r)⟩

theorem Only.ite {c : Prop} [Decidable c] {p q : Prog Op Res α} (hp : p.Only P) (hq : q.Only P) :
    (if c then p else q).Only P := by
  by_cases h : c
  · rwa [if_pos h]
  · rwa [if_neg h]

theorem Only.when {c : Prop} [Decidable c] {p : Prog Op Res Unit} (h : p.Only P) :
    (Prog.when c p).Only P := Only.ite h (only_ret ())

end Prog

/-- What operations do, which handlers may be taken and with what context saved, and what
the return from a handler restores. -/
structure Preemption (Op : Type) (Res : Op → Type) (σ κ : Type) where
  exec : (o : Op) → σ → Res o → σ → Prop
  take : σ → Prog Op Res Unit → κ → σ → Prop
  resume : κ → σ → σ

namespace Preemption

variable {Op : Type} {Res : Op → Type} {σ κ ι : Type}

structure Config (Op : Type) (Res : Op → Type) (σ κ : Type) where
  state : σ
  running : Prog Op Res Unit
  suspended : List (Prog Op Res Unit × κ)

inductive Step (S : Preemption Op Res σ κ) : Config Op Res σ κ → Config Op Res σ κ → Prop
  | exec {o : Op} {k : Res o → Prog Op Res Unit} {s s' : σ} {r : Res o}
      {rest : List (Prog Op Res Unit × κ)} (h : S.exec o s r s') :
      Step S ⟨s, .op o k, rest⟩ ⟨s', k r, rest⟩
  | take {o : Op} {k : Res o → Prog Op Res Unit} {s s' : σ} {handler : Prog Op Res Unit} {c : κ}
      {rest : List (Prog Op Res Unit × κ)} (h : S.take s handler c s') :
      Step S ⟨s, .op o k, rest⟩ ⟨s', handler, (.op o k, c) :: rest⟩
  | resume {s : σ} {p : Prog Op Res Unit} {c : κ} {rest : List (Prog Op Res Unit × κ)} :
      Step S ⟨s, .ret (), (p, c) :: rest⟩ ⟨S.resume c s, p, rest⟩

abbrev Reaches (S : Preemption Op Res σ κ) := Relation.ReflTransGen S.Step

/-- Where fewer handlers may be taken less is reached. -/
theorem Reaches.mono {S T : Preemption Op Res σ κ} {x y : Config Op Res σ κ}
    (hexec : S.exec = T.exec)
    (htake : ∀ s handler c s', S.take s handler c s' → T.take s handler c s')
    (hresume : S.resume = T.resume) (h : S.Reaches x y) : T.Reaches x y := by
  refine h.lift id fun x y hstep => ?_
  cases hstep with
  | exec he => exact .exec (hexec ▸ he)
  | take ht => exact .take (htake _ _ _ _ ht)
  | resume =>
    rw [hresume]
    exact .resume

/-- `R i s p` says that a program of kind `i` may be at `p` in state `s`. It is kept by the
program's own operations and by every handler together with the return from it. -/
structure FrameInv (S : Preemption Op Res σ κ) (R : ι → σ → Prog Op Res Unit → Prop) : Prop where
  exec : ∀ {i o k s r s'}, R i s (.op o k) → S.exec o s r s' → R i s' (k r)
  take : ∀ {i o k s handler c s'}, R i s (.op o k) → S.take s handler c s' →
    ∃ j, R j s' handler ∧ ∀ t, R j t (.ret ()) → R i (S.resume c t) (.op o k)

/-- Each suspended program may go on when the one above it ends; the lowest is of kind `i`. -/
inductive Linked (S : Preemption Op Res σ κ) (R : ι → σ → Prog Op Res Unit → Prop) (i : ι) :
    List (Prog Op Res Unit × κ) → ι → Prop
  | nil : Linked S R i [] i
  | cons {j j' : ι} {p : Prog Op Res Unit} {c : κ} {rest : List (Prog Op Res Unit × κ)}
      (h : Linked S R i rest j) (hp : ∀ t, R j' t (.ret ()) → R j (S.resume c t) p) :
      Linked S R i ((p, c) :: rest) j'

variable {S : Preemption Op Res σ κ} {R : ι → σ → Prog Op Res Unit → Prop} {i : ι} {s : σ}
  {p : Prog Op Res Unit} {x y : Config Op Res σ κ}

theorem FrameInv.step (h : FrameInv S R) (hstep : S.Step x y)
    (hx : ∃ j, R j x.state x.running ∧ Linked S R i x.suspended j) :
    ∃ j, R j y.state y.running ∧ Linked S R i y.suspended j := by
  obtain ⟨j, hj, hl⟩ := hx
  cases hstep with
  | exec hexec => exact ⟨j, h.exec hj hexec, hl⟩
  | take htake =>
    obtain ⟨j', hj', hback⟩ := h.take hj htake
    exact ⟨j', hj', .cons hl hback⟩
  | resume =>
    cases hl with
    | cons hl hp => exact ⟨_, hp _ hj, hl⟩

theorem FrameInv.reaches (h : FrameInv S R) (hstart : R i s p) (hrun : S.Reaches ⟨s, p, []⟩ x) :
    ∃ j, R j x.state x.running ∧ Linked S R i x.suspended j := by
  induction hrun with
  | refl => exact ⟨i, hstart, .nil⟩
  | tail _ hstep ih => exact h.step hstep ih

theorem FrameInv.lowest (h : FrameInv S R) (hstart : R i s p) (hrun : S.Reaches ⟨s, p, []⟩ x)
    (hx : x.suspended = []) : R i x.state x.running := by
  obtain ⟨j, hj, hl⟩ := h.reaches hstart hrun
  rw [hx] at hl
  cases hl with
  | nil => exact hj

end Preemption
