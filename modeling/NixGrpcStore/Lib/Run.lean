import Mathlib.Tactic

/-!
# Runs of a system that emits

A system moves from state to state and emits a list of outputs at each step.  `Reached` relates a
state to everything that was emitted on the way to it; its invariants are proved step by step.
-/

namespace Run

variable {σ ε : Type}

/-- The states of all runs, with what was emitted so far, oldest first. -/
inductive Reached (start : σ → Prop) (step : σ → List ε → σ → Prop) : σ → List ε → Prop
  | start {s : σ} (initial : start s) : Reached start step s []
  | step {s s' : σ} {log out : List ε} (reached : Reached start step s log)
      (move : step s out s') : Reached start step s' (log ++ out)

variable {start : σ → Prop} {step : σ → List ε → σ → Prop}

/-- What holds at the start and survives every step holds always. -/
theorem Reached.invariant {P : σ → List ε → Prop} (initial : ∀ s, start s → P s [])
    (keeps : ∀ s log out s', P s log → step s out s' → P s' (log ++ out)) {s : σ} {log : List ε}
    (reached : Reached start step s log) : P s log := by
  induction reached with
  | start is_start => exact initial _ is_start
  | step _ move ih => exact keeps _ _ _ _ ih move

/-- As `Reached.invariant`, for what is said about the state alone. -/
theorem Reached.state_invariant {P : σ → Prop} (initial : ∀ s, start s → P s)
    (keeps : ∀ s out s', P s → step s out s' → P s') {s : σ} {log : List ε}
    (reached : Reached start step s log) : P s :=
  reached.invariant (P := fun s _ => P s) initial fun s _ out s' => keeps s out s'

/-- Take the steps one after the other, where each has at most one outcome. -/
def play {α : Type} (perform : σ → α → Option σ) : List α → σ → Option σ
  | [], s => some s
  | act :: acts, s => (perform s act).bind (play perform acts)

/-- What is played is a run that emits the steps. -/
theorem Reached.play {α : Type} {perform : σ → α → Option σ} {s s' : σ} {earlier acts : List α}
    (reached : Reached start (fun s taken s' => ∃ act, taken = [act] ∧ perform s act = some s') s earlier)
    (played : Run.play perform acts s = some s') :
    Reached start (fun s taken s' => ∃ act, taken = [act] ∧ perform s act = some s') s' (earlier ++ acts) := by
  induction acts generalizing s earlier with
  | nil =>
    cases played
    simpa using reached
  | cons act acts ih =>
    obtain ⟨mid, performed, rest⟩ := Option.bind_eq_some_iff.mp played
    simpa using ih (.step reached ⟨act, rfl, performed⟩) rest

end Run
