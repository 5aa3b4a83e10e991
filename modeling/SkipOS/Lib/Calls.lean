import SkipOS.Lib.ProgramLogic

/-! Programs over operations that are programs themselves, and runs that note what they
perform. -/

namespace Prog

variable {Op Op' : Type} {Res : Op → Type} {Res' : Op' → Type} {α β σ L : Type}

/-- Each operation replaced by a program. -/
def expand (impl : (o : Op) → Prog Op' Res' (Res o)) : Prog Op Res α → Prog Op' Res' α
  | ret a => ret a
  | op o k => impl o >>= fun r => (k r).expand impl

/-- An execution that adds what `note` says of each operation. -/
def Noting (note : Op → List L) (exec : (o : Op) → σ → Res o → σ → Prop) (o : Op)
    (s : σ × List L) (r : Res o) (s' : σ × List L) : Prop :=
  exec o s.1 r s'.1 ∧ s'.2 = s.2 ++ note o

variable {impl : (o : Op) → Prog Op' Res' (Res o)} {exec : (o : Op) → σ → Res o → σ → Prop}
  {exec' : (o : Op') → σ → Res' o → σ → Prop} {p : Prog Op Res α} {f : α → Prog Op Res β}
  {s t : σ} {a : α} {o : Op} {note : Op → List L} {l l' : List L}

theorem bind_ret (p : Prog Op Res α) : (p >>= fun a => ret a) = p := by
  induction p with
  | ret a => rfl
  | op o k ih =>
    rw [op_bind]
    exact congrArg (op o) (funext ih)

theorem bind_assoc {γ : Type} {g : β → Prog Op Res γ} :
    ((p >>= f) >>= g) = (p >>= fun a => f a >>= g) := by
  induction p with
  | ret a => rfl
  | op o k ih =>
    rw [op_bind, op_bind, op_bind]
    exact congrArg (op o) (funext ih)

@[simp] theorem expand_ret (a : α) : (ret a : Prog Op Res α).expand impl = ret a := rfl

@[simp] theorem expand_perform (o : Op) : (perform o : Prog Op Res (Res o)).expand impl = impl o :=
  bind_ret (impl o)

@[simp] theorem expand_bind :
    (p >>= f).expand impl = (p.expand impl >>= fun a => (f a).expand impl) := by
  induction p with
  | ret a => rfl
  | op o k ih =>
    rw [op_bind, expand, expand, bind_assoc]
    exact congrArg (impl o >>= ·) (funext ih)

@[simp] theorem expand_ite {c : Prop} [Decidable c] {q : Prog Op Res α} :
    (if c then p else q).expand impl = if c then p.expand impl else q.expand impl :=
  apply_ite (expand impl) c p q

@[simp] theorem expand_when {c : Prop} [Decidable c] {p : Prog Op Res Unit} :
    (Prog.when c p).expand impl = Prog.when c (p.expand impl) := expand_ite

theorem runs_perform_iff {r : Res o} : (perform o : Prog Op Res (Res o)).Runs exec s r t ↔
    exec o s r t := by
  rw [perform, runs_op_iff]
  constructor
  · rintro ⟨r', s', he, hret⟩
    obtain ⟨rfl, rfl⟩ := runs_ret_iff.mp hret
    exact he
  · exact fun he => ⟨r, t, he, .ret r t⟩

/-- A program runs as its operations do. -/
theorem runs_expand_iff : (p.expand impl).Runs exec' s a t ↔
    p.Runs (fun o s r s' => (impl o).Runs exec' s r s') s a t := by
  induction p generalizing s with
  | ret b => rw [expand, runs_ret_iff, runs_ret_iff]
  | op o k ih =>
    rw [expand, runs_bind_iff, runs_op_iff]
    exact exists₂_congr fun r s' => and_congr_right fun _ => ih r

/-- Every run can be noted. -/
theorem Runs.noting (h : p.Runs exec s a t) (note : Op → List L) (l : List L) :
    ∃ l', p.Runs (Noting note exec) (s, l) a (t, l') := by
  induction h generalizing l with
  | ret a s => exact ⟨l, .ret a _⟩
  | @op o k s s' t r a he _ ih =>
    obtain ⟨l', hrest⟩ := ih (l ++ note o)
    have hnoted : Noting note exec o (s, l) r (s', l ++ note o) := ⟨he, rfl⟩
    exact ⟨l', .op hnoted hrest⟩

theorem Runs.of_noting {u v : σ × List L} (h : p.Runs (Noting note exec) u a v) :
    p.Runs exec u.1 a v.1 := h.map fun _ _ _ _ he => he.1

end Prog
