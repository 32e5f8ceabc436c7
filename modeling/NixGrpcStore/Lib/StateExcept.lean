import Mathlib.Tactic

/-!
# Computations that keep their state when they throw

`EStateM ε σ α` runs from a state to either a value or an exception, and in both cases to a new
state: what was written before a `throw` stays written.  This file collects the equations that
execute such computations, the inversion of a successful bind, and the rules for relations that
hold between the states before and after, whether or not the computation throws.
-/

namespace StateExcept

variable {ε σ τ α β : Type} {m : EStateM ε σ α} {f : α → EStateM ε σ β} {s s' : σ} {a : α}

section Equations

@[simp] theorem pure_apply (a : α) (s : σ) : (pure a : EStateM ε σ α) s = .ok a s := rfl

theorem bind_apply (m : EStateM ε σ α) (f : α → EStateM ε σ β) (s : σ) :
    (m >>= f) s =
      match m s with
      | .ok a s' => f a s'
      | .error e s' => .error e s' := rfl

@[simp] theorem get_apply (s : σ) : (get : EStateM ε σ σ) s = .ok s s := rfl

@[simp] theorem set_apply (s s' : σ) : (set s' : EStateM ε σ PUnit) s = .ok ⟨⟩ s' := rfl

@[simp] theorem modify_apply (f : σ → σ) (s : σ) :
    (modify f : EStateM ε σ PUnit) s = .ok ⟨⟩ (f s) := rfl

@[simp] theorem throw_apply (e : ε) (s : σ) : (throw e : EStateM ε σ α) s = .error e s := rfl

@[simp] theorem bind_pure_apply (a : α) (f : α → EStateM ε σ β) (s : σ) :
    ((pure a : EStateM ε σ α) >>= f) s = f a s := rfl

@[simp] theorem bind_get_apply (f : σ → EStateM ε σ β) (s : σ) :
    ((get : EStateM ε σ σ) >>= f) s = f s s := rfl

@[simp] theorem bind_set_apply (s s' : σ) (f : PUnit → EStateM ε σ β) :
    ((set s' : EStateM ε σ PUnit) >>= f) s = f ⟨⟩ s' := rfl

@[simp] theorem bind_modify_apply (g : σ → σ) (s : σ) (f : PUnit → EStateM ε σ β) :
    ((modify g : EStateM ε σ PUnit) >>= f) s = f ⟨⟩ (g s) := rfl

@[simp] theorem bind_throw_apply (e : ε) (f : α → EStateM ε σ β) (s : σ) :
    ((throw e : EStateM ε σ α) >>= f) s = .error e s := rfl

@[simp] theorem map_apply (g : α → β) (m : EStateM ε σ α) (s : σ) :
    (g <$> m) s =
      match m s with
      | .ok a s' => .ok (g a) s'
      | .error e s' => .error e s' := rfl

/-- A first part that succeeds hands its value and state to the second. -/
theorem bind_of_ok (ok : m s = .ok a s') (f : α → EStateM ε σ β) : (m >>= f) s = f a s' := by
  rw [bind_apply, ok]

theorem bind_of_error {e : ε} (error : m s = .error e s')
    (f : α → EStateM ε σ β) : (m >>= f) s = .error e s' := by
  rw [bind_apply, error]

/-- A bind succeeds exactly if both parts do. -/
theorem bind_eq_ok {t : σ} {b : β} :
    (m >>= f) s = .ok b t ↔ ∃ a s', m s = .ok a s' ∧ f a s' = .ok b t := by
  rw [bind_apply]
  cases m_eq : m s with
  | ok a s' => simp
  | error e s' => simp

theorem bind_eq_error {t : σ} {e : ε} :
    (m >>= f) s = .error e t ↔
      m s = .error e t ∨ ∃ a s', m s = .ok a s' ∧ f a s' = .error e t := by
  rw [bind_apply]
  cases m_eq : m s with
  | ok a s' => simp
  | error e' s' => simp

end Equations

/-- The value of a run that succeeds. -/
def value : EStateM.Result ε σ α → Option α
  | .ok a _ => some a
  | .error _ _ => none

theorem eq_ok_of_value {r : EStateM.Result ε σ α} (value_eq : value r = some a) :
    ∃ s, r = .ok a s := by
  cases r with
  | ok b s => exact ⟨s, by rw [Option.some.inj value_eq]⟩
  | error e s => simp [value] at value_eq

/-- Run a computation on a part of the state. -/
def onPart (view : τ → σ) (update : τ → σ → τ) (m : EStateM ε σ α) : EStateM ε τ α := fun t =>
  match m (view t) with
  | .ok a s => .ok a (update t s)
  | .error e s => .error e (update t s)

theorem onPart_eq_ok {view : τ → σ} {update : τ → σ → τ} {t t' : τ} :
    onPart view update m t = .ok a t' ↔
      ∃ s, m (view t) = .ok a s ∧ t' = update t s := by
  unfold onPart
  cases m_eq : m (view t) with
  | ok b s => simp [eq_comm, and_comm]
  | error e s => simp

theorem onPart_of_ok {view : τ → σ} {update : τ → σ → τ} {t : τ} (ok : m (view t) = .ok a s) :
    onPart view update m t = .ok a (update t s) := by
  unfold onPart
  rw [ok]

section Respects

/-- The state a run ends in, with or without an exception. -/
def after : EStateM.Result ε σ α → σ
  | .ok _ s => s
  | .error _ s => s

@[simp] theorem after_ok (a : α) (s : σ) : after (.ok a s : EStateM.Result ε σ α) = s := rfl

@[simp] theorem after_error (e : ε) (s : σ) : after (.error e s : EStateM.Result ε σ α) = s := rfl

theorem after_onPart (view : τ → σ) (update : τ → σ → τ) (m : EStateM ε σ α) (t : τ) :
    after (onPart view update m t) = update t (after (m (view t))) := by
  unfold onPart
  cases m (view t) <;> rfl

/-- Run a computation and ignore what it throws. -/
def caught (m : EStateM ε σ Unit) : EStateM ε σ Unit := fun s => .ok () (after (m s))

/-- Every run of `m` ends in a state that `R` relates to the first. -/
def Respects (R : σ → σ → Prop) (m : EStateM ε σ α) : Prop := ∀ s, R s (after (m s))

variable {R : σ → σ → Prop}

theorem Respects.ok (respects : Respects R m) (ok : m s = .ok a s') : R s s' := by
  simpa [ok] using respects s

theorem Respects.error (respects : Respects R m) {e : ε} (error : m s = .error e s') : R s s' := by
  simpa [error] using respects s

theorem Respects.mono {S : σ → σ → Prop} (respects : Respects R m)
    (weaker : ∀ s s', R s s' → S s s') : Respects S m :=
  fun s => weaker s _ (respects s)

theorem respects_modify {g : σ → σ} (step : ∀ s, R s (g s)) :
    Respects R (modify g : EStateM ε σ PUnit) := step

/-- Two parts that respect a transitive relation do so together. -/
theorem Respects.bind [IsTrans σ R]
    (first : Respects R m) (second : ∀ a, Respects R (f a)) : Respects R (m >>= f) := by
  intro s
  rw [bind_apply]
  have moved := first s
  cases m_eq : m s with
  | ok a s' =>
    rw [m_eq] at moved
    exact IsTrans.trans _ _ _ moved (second a s')
  | error e s' =>
    rw [m_eq] at moved
    exact moved

/-- As `Respects.bind`, from one state. -/
theorem respects_bind_at [IsTrans σ R] (first : R s (after (m s)))
    (second : ∀ a s', m s = .ok a s' → R s' (after (f a s'))) : R s (after ((m >>= f) s)) := by
  rw [bind_apply]
  cases m_eq : m s with
  | ok a s' =>
    rw [m_eq] at first
    exact IsTrans.trans _ _ _ first (second a s' m_eq)
  | error e s' =>
    rw [m_eq] at first
    exact first

/-- What is made of the result does not touch the state. -/
theorem after_bind_pure (m : EStateM ε σ α) (f : α → β) (s : σ) :
    after ((m >>= fun a => pure (f a)) s) = after (m s) := by
  rw [bind_apply]
  cases m s <;> rfl

/-- What holds after the first part and survives the second holds in the end. -/
theorem after_bind {P : σ → Prop} (first : P (after (m s)))
    (second : ∀ a s', P s' → P (after (f a s'))) : P (after ((m >>= f) s)) := by
  rw [bind_apply]
  cases m_eq : m s with
  | ok a s' =>
    rw [m_eq] at first
    exact second a s' first
  | error e s' =>
    rw [m_eq] at first
    exact first

variable [Std.Refl R]

theorem respects_pure (a : α) : Respects R (pure a : EStateM ε σ α) := fun s => Std.Refl.refl s

theorem respects_throw (e : ε) : Respects R (throw e : EStateM ε σ α) := fun s => Std.Refl.refl s

theorem respects_get : Respects R (get : EStateM ε σ σ) := fun s => Std.Refl.refl s

end Respects

end StateExcept
