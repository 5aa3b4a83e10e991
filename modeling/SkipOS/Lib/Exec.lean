import Mathlib.Tactic.Common

/-! Runs of imperative code that may stop before returning. The state at the
stop is kept, so that what was already written stays visible. -/

/-- Why a run does not return. -/
inductive Stop where
  /-- a failed assertion -/
  | assert
  /-- the code itself halts the processor -/
  | halt
  /-- undefined behaviour, such as the dereference of a pointer that was never set -/
  | undefined
  /-- the iteration bound was used up -/
  | fuel
  deriving DecidableEq, Repr

abbrev Exec (σ : Type) := EStateM Stop σ

namespace Exec

variable {σ τ α β : Type}

def assert (c : Prop) [Decidable c] : Exec σ Unit := if c then pure () else throw .assert

/-- The state a run leaves behind, whether or not it returned. -/
def final (r : EStateM.Result Stop σ α) : σ :=
  match r with
  | .ok _ s => s
  | .error _ s => s

def returned (r : EStateM.Result Stop σ α) : Option α :=
  match r with
  | .ok a _ => some a
  | .error _ _ => none

theorem eq_ok_of_returned {r : EStateM.Result Stop σ α} {a : α} (h : returned r = some a) :
    r = .ok a (final r) := by
  cases r with
  | ok b s =>
    obtain rfl : b = a := by simpa [returned] using h
    rfl
  | error e s => simp [returned] at h

@[simp] theorem final_ok (a : α) (s : σ) : final (.ok a s : EStateM.Result Stop σ α) = s := rfl

@[simp] theorem final_error (e : Stop) (s : σ) :
    final (.error e s : EStateM.Result Stop σ α) = s := rfl

@[simp] theorem pure_apply (a : α) (s : σ) : (pure a : Exec σ α) s = .ok a s := rfl

@[simp] theorem throw_apply (e : Stop) (s : σ) : (throw e : Exec σ α) s = .error e s := rfl

@[simp] theorem get_apply (s : σ) : (get : Exec σ σ) s = .ok s s := rfl

@[simp] theorem set_apply (s t : σ) : (set t : Exec σ PUnit) s = .ok ⟨⟩ t := rfl

@[simp] theorem modify_apply (f : σ → σ) (s : σ) : (modify f : Exec σ PUnit) s = .ok ⟨⟩ (f s) := rfl

theorem bind_apply (x : Exec σ α) (f : α → Exec σ β) (s : σ) :
    (x >>= f) s = match x s with
      | .ok a t => f a t
      | .error e t => .error e t := by
  change EStateM.bind x f s = _
  unfold EStateM.bind
  cases x s <;> rfl

theorem bind_of_ok {x : Exec σ α} {a : α} {s t : σ} (h : x s = .ok a t) (f : α → Exec σ β) :
    (x >>= f) s = f a t := by
  rw [bind_apply, h]

theorem bind_of_error {x : Exec σ α} {e : Stop} {s t : σ} (h : x s = .error e t)
    (f : α → Exec σ β) : (x >>= f) s = .error e t := by
  rw [bind_apply, h]

theorem bind_eq_ok {x : Exec σ α} {f : α → Exec σ β} {b : β} {s u : σ} :
    (x >>= f) s = .ok b u ↔ ∃ a t, x s = .ok a t ∧ f a t = .ok b u := by
  rw [bind_apply]
  cases h : x s with
  | ok a t => simp
  | error e t => simp

@[simp] theorem bind_get (f : σ → Exec σ β) (s : σ) : (get >>= f) s = f s s := rfl

@[simp] theorem bind_modify (g : σ → σ) (f : PUnit → Exec σ β) (s : σ) :
    (modify g >>= f) s = f ⟨⟩ (g s) := rfl

theorem pure_eq_ok {a b : α} {s t : σ} : (pure a : Exec σ α) s = .ok b t ↔ a = b ∧ s = t := by
  rw [pure_apply, EStateM.Result.ok.injEq]

theorem modify_eq_ok {f : σ → σ} {s t : σ} {u : Unit} :
    (modify f : Exec σ Unit) s = .ok u t ↔ f s = t := by
  rw [modify_apply, EStateM.Result.ok.injEq]
  exact and_iff_right rfl

@[simp] theorem assert_eq_ok {c : Prop} [Decidable c] {s t : σ} {u : Unit} :
    (assert c : Exec σ Unit) s = .ok u t ↔ c ∧ s = t := by
  by_cases h : c <;> simp [assert, h]

theorem bind_assert_of {c : Prop} [Decidable c] (h : c) (f : Unit → Exec σ β) (s : σ) :
    (assert c >>= f) s = f () s := by
  rw [bind_apply, assert, if_pos h, pure_apply]

theorem bind_assert_not {c : Prop} [Decidable c] (h : ¬ c) (f : Unit → Exec σ β) (s : σ) :
    (assert c >>= f) s = .error .assert s := by
  rw [bind_apply, assert, if_neg h, throw_apply]

/-- A run on one component of a larger state. -/
def zoom (getter : τ → σ) (setter : σ → τ → τ) (x : Exec σ α) : Exec τ α := fun t =>
  match x (getter t) with
  | .ok a s => .ok a (setter s t)
  | .error e s => .error e (setter s t)

theorem zoom_of_ok {getter : τ → σ} {setter : σ → τ → τ} {x : Exec σ α} {t : τ} {a : α} {s : σ}
    (h : x (getter t) = .ok a s) : zoom getter setter x t = .ok a (setter s t) := by
  simp only [zoom, h]

theorem zoom_eq_ok {getter : τ → σ} {setter : σ → τ → τ} {x : Exec σ α} {t t' : τ} {a : α} :
    zoom getter setter x t = .ok a t' ↔ ∃ s, x (getter t) = .ok a s ∧ t' = setter s t := by
  cases h : x (getter t) with
  | ok b s =>
    simp only [zoom, h, EStateM.Result.ok.injEq]
    constructor
    · rintro ⟨rfl, rfl⟩
      exact ⟨s, ⟨rfl, rfl⟩, rfl⟩
    · rintro ⟨_, ⟨rfl, rfl⟩, rfl⟩
      exact ⟨rfl, rfl⟩
  | error e s => simp [zoom, h]

/-- With enough rounds for its loops `x` returns `a`. -/
def Returns (x : Nat → Exec σ α) (s : σ) (a : α) (t : σ) : Prop :=
  ∃ n, ∀ fuel, n ≤ fuel → x fuel s = .ok a t

theorem Returns.unique {x : Nat → Exec σ α} {s t t' : σ} {a a' : α} (h : Returns x s a t)
    (h' : Returns x s a' t') : a = a' ∧ t = t' := by
  obtain ⟨n, hn⟩ := h
  obtain ⟨n', hn'⟩ := h'
  have heq := (hn _ (Nat.le_max_left n n')).symm.trans (hn' _ (Nat.le_max_right n n'))
  rwa [EStateM.Result.ok.injEq] at heq

theorem returns_pure (a : α) (s : σ) : Returns (fun _ => (pure a : Exec σ α)) s a s :=
  ⟨0, fun _ _ => rfl⟩

theorem Returns.bind {x : Nat → Exec σ α} {f : Nat → α → Exec σ β} {s t u : σ} {a : α} {b : β}
    (hx : Returns x s a t) (hf : Returns (fun fuel => f fuel a) t b u) :
    Returns (fun fuel => x fuel >>= f fuel) s b u := by
  obtain ⟨n, hn⟩ := hx
  obtain ⟨k, hk⟩ := hf
  exact ⟨max n k, fun fuel hle => (bind_of_ok (hn fuel (by omega)) _).trans (hk fuel (by omega))⟩

/-- Every run of `x`, returning or not, moves the state along `R`. -/
def Moves (R : σ → σ → Prop) (x : Exec σ α) : Prop := ∀ s, R s (final (x s))

namespace Moves

variable {R : σ → σ → Prop}

theorem mono {R' : σ → σ → Prop} (hR : ∀ s t, R s t → R' s t) {x : Exec σ α} (h : Moves R x) :
    Moves R' x := fun s => hR _ _ (h s)

theorem pure (hr : ∀ s, R s s) (a : α) : Moves R (Pure.pure a : Exec σ α) := hr

theorem throw (hr : ∀ s, R s s) (e : Stop) : Moves R (MonadExcept.throw e : Exec σ α) := hr

theorem modify {f : σ → σ} (hf : ∀ s, R s (f s)) : Moves R (modify f : Exec σ PUnit) := hf

theorem assert (hr : ∀ s, R s s) (c : Prop) [Decidable c] : Moves R (assert c : Exec σ Unit) := by
  by_cases h : c
  · rw [Exec.assert, if_pos h]
    exact Moves.pure hr ()
  · rw [Exec.assert, if_neg h]
    exact Moves.throw hr .assert

theorem bind (ht : ∀ s t u, R s t → R t u → R s u) {x : Exec σ α} {f : α → Exec σ β}
    (hx : Moves R x) (hf : ∀ a, Moves R (f a)) : Moves R (x >>= f) := by
  intro s
  have hs := hx s
  rw [bind_apply]
  cases h : x s with
  | ok a t =>
    rw [h] at hs
    exact ht s t _ hs (hf a t)
  | error e t =>
    rw [h] at hs
    exact hs

theorem get (hr : ∀ s, R s s) : Moves R (MonadState.get : Exec σ σ) := hr

end Moves

/-- No run of `x` stops with `e`. -/
def Avoids (e : Stop) (x : Exec σ α) : Prop := ∀ s t, x s ≠ .error e t

namespace Avoids

variable {e : Stop}

theorem pure (a : α) : Avoids e (Pure.pure a : Exec σ α) := by
  rintro s t ⟨⟩

theorem throw {e' : Stop} (h : e' ≠ e) : Avoids e (MonadExcept.throw e' : Exec σ α) := by
  rintro s t ⟨⟩
  exact h rfl

theorem get : Avoids e (MonadState.get : Exec σ σ) := by
  rintro s t ⟨⟩

theorem modify (f : σ → σ) : Avoids e (modify f : Exec σ PUnit) := by
  rintro s t ⟨⟩

theorem assert (h : e ≠ .assert) (c : Prop) [Decidable c] : Avoids e (assert c : Exec σ Unit) := by
  by_cases hc : c
  · rw [Exec.assert, if_pos hc]
    exact Avoids.pure ()
  · rw [Exec.assert, if_neg hc]
    exact Avoids.throw h.symm

theorem bind {x : Exec σ α} {f : α → Exec σ β} (hx : Avoids e x) (hf : ∀ a, Avoids e (f a)) :
    Avoids e (x >>= f) := by
  intro s t hst
  rw [bind_apply] at hst
  cases h : x s with
  | ok a u =>
    rw [h] at hst
    exact hf a u t hst
  | error e' u =>
    rw [h] at hst
    obtain ⟨rfl, rfl⟩ : e' = e ∧ u = t := by simpa using hst
    exact hx s u h

end Avoids

/-- Every run of `x`, returning or not, adds at most `n` to the measure. -/
def Costs (measure : σ → Nat) (n : Nat) (x : Exec σ α) : Prop :=
  ∀ s, measure (final (x s)) ≤ measure s + n

namespace Costs

variable {measure : σ → Nat} {n k : Nat}

theorem mono {x : Exec σ α} (h : Costs measure n x) (hle : n ≤ k) : Costs measure k x :=
  fun s => Nat.le_trans (h s) (Nat.add_le_add_left hle _)

theorem pure (a : α) : Costs measure 0 (Pure.pure a : Exec σ α) := fun _ => Nat.le_refl _

theorem throw (e : Stop) : Costs measure 0 (MonadExcept.throw e : Exec σ α) :=
  fun _ => Nat.le_refl _

theorem get : Costs measure 0 (MonadState.get : Exec σ σ) := fun _ => Nat.le_refl _

theorem assert (c : Prop) [Decidable c] : Costs measure 0 (assert c : Exec σ Unit) := by
  by_cases h : c
  · rw [Exec.assert, if_pos h]
    exact Costs.pure ()
  · rw [Exec.assert, if_neg h]
    exact Costs.throw .assert

/-- Costs add up along a sequence. -/
theorem bind {x : Exec σ α} {f : α → Exec σ β} (hx : Costs measure n x)
    (hf : ∀ a, Costs measure k (f a)) : Costs measure (n + k) (x >>= f) := by
  intro s
  have hs := hx s
  rw [bind_apply]
  cases h : x s with
  | ok a t =>
    rw [h] at hs
    have hrest := hf a t
    simp only [final_ok] at hs
    dsimp only
    omega
  | error e t =>
    rw [h] at hs
    exact Nat.le_trans hs (Nat.add_le_add_left (Nat.le_add_right n k) _)

/-- A step without a cost before or after does not count. -/
theorem after {x : Exec σ α} {f : α → Exec σ β} (hx : Costs measure 0 x)
    (hf : ∀ a, Costs measure k (f a)) : Costs measure k (x >>= f) :=
  (hx.bind hf).mono (Nat.le_of_eq (Nat.zero_add k))

end Costs

end Exec
