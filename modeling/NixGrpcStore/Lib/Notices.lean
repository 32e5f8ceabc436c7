import Mathlib.Tactic
import Mathlib.Data.List.DropRight

/-!
# Notices on a stream

A client tells a server over a stream what it wants and what it does not want any more.  The server
forgets all of it when the stream ends, so only what was said since the last opening counts.
-/

namespace Notices

variable {κ : Type}

/-- What a client says: a stream was opened, or something about a key. -/
inductive Notice (κ : Type)
  | opened
  | want (key : κ)
  | cancel (key : κ)
  deriving DecidableEq

namespace Notice

def concerns [DecidableEq κ] (key : κ) : Notice κ → Bool
  | .opened => false
  | .want other | .cancel other => other = key

def isOpened : Notice κ → Bool
  | .opened => true
  | .want _ | .cancel _ => false

end Notice

/-- The last notice about a key. -/
def lastFor [DecidableEq κ] (key : κ) (log : List (Notice κ)) : Option (Notice κ) :=
  (log.filter (Notice.concerns key)).getLast?

/-- The notices since the last opening. -/
def current (log : List (Notice κ)) : List (Notice κ) :=
  log.rtakeWhile fun notice => !notice.isOpened

/-- Between two cancels of a key it is wanted. -/
def Paired (log : List (Notice κ)) : Prop :=
  ∀ key before middle after, log = before ++ .cancel key :: (middle ++ .cancel key :: after) →
    .want key ∈ middle

/-! ## The last notice -/

variable {log : List (Notice κ)} {notice : Notice κ}

section Last

variable [DecidableEq κ]

@[simp] theorem lastFor_nil (key : κ) : lastFor key [] = none := rfl

theorem lastFor_append (key : κ) (first second : List (Notice κ)) :
    lastFor key (first ++ second) = (lastFor key second).or (lastFor key first) := by
  simp [lastFor, List.getLast?_append]

theorem lastFor_mem {key : κ} (last : lastFor key log = some notice) : notice ∈ log :=
  (List.mem_filter.mp (List.mem_of_getLast? last)).1

@[simp] theorem lastFor_opened (key : κ) : lastFor key [.opened] = none := by
  simp [lastFor, Notice.concerns]

theorem lastFor_wants (key : κ) (keys : List κ) :
    lastFor key (keys.map .want) = if key ∈ keys then some (.want key) else none := by
  induction keys using List.reverseRecOn with
  | nil => simp
  | append_singleton keys last ih =>
    rw [List.map_append, lastFor_append, ih]
    by_cases same : last = key
    · simp [lastFor, Notice.concerns, same]
    · simp [lastFor, Notice.concerns, same, Ne.symm same]

theorem lastFor_cancels (key : κ) (keys : List κ) :
    lastFor key (keys.map .cancel) = if key ∈ keys then some (.cancel key) else none := by
  induction keys using List.reverseRecOn with
  | nil => simp
  | append_singleton keys last ih =>
    rw [List.map_append, lastFor_append, ih]
    by_cases same : last = key
    · simp [lastFor, Notice.concerns, same]
    · simp [lastFor, Notice.concerns, same, Ne.symm same]

end Last

/-! ## The current stream -/

theorem current_append {out : List (Notice κ)} (silent : ∀ notice ∈ out, notice.isOpened = false) :
    current (log ++ out) = current log ++ out := by
  induction out using List.reverseRecOn with
  | nil => simp
  | append_singleton out last ih =>
    rw [← List.append_assoc, current, List.rtakeWhile_concat_pos _ _ _ (by simp [silent last]), ← current,
      ih fun notice inside => silent notice (List.mem_append_left _ inside), List.append_assoc]

@[simp] theorem current_opened (log : List (Notice κ)) : current (log ++ [.opened]) = [] := by
  rw [current, List.rtakeWhile_concat_neg]
  simp [Notice.isOpened]

theorem lastFor_current [DecidableEq κ] {key : κ}
    (last : lastFor key (current log) = some notice) : lastFor key log = some notice := by
  obtain ⟨older, split_eq⟩ : current log <:+ log := List.rtakeWhile_suffix _ _
  rw [← split_eq, lastFor_append, last]
  rfl

/-! ## Cancels -/

theorem Paired.append_other (paired : Paired log)
    (other : ∀ key, notice ≠ .cancel key) : Paired (log ++ [notice]) := by
  intro key before middle after log_eq
  rcases List.eq_nil_or_concat after with rfl | ⟨after, last, rfl⟩
  · have ends := congrArg List.getLast? log_eq
    simp only [List.getLast?_append, List.getLast?_cons, List.getLast?_nil] at ends
    simp at ends
    exact absurd ends (other key)
  · refine paired key before middle after ?_
    have whole : log ++ [notice] = (before ++ .cancel key :: (middle ++ .cancel key :: after)) ++ [last] := by
      rw [log_eq]
      simp
    exact (List.append_inj' whole rfl).1

theorem Paired.append_cancel [DecidableEq κ] (paired : Paired log) {key : κ}
    (wanted : lastFor key log = some (.want key)) : Paired (log ++ [.cancel key]) := by
  intro other before middle after log_eq
  rcases List.eq_nil_or_concat after with rfl | ⟨after, last, rfl⟩
  · have whole : log ++ [.cancel key] = (before ++ .cancel other :: middle) ++ [.cancel other] := by
      rw [log_eq]
      simp
    obtain ⟨rfl, same⟩ := List.append_inj' whole rfl
    obtain rfl : key = other := by simpa using same
    rw [show before ++ Notice.cancel key :: middle = before ++ [.cancel key] ++ middle by simp, lastFor_append,
      lastFor_append] at wanted
    cases middle_last : lastFor key middle with
    | none =>
      rw [middle_last, show [Notice.cancel key] = [key].map .cancel from rfl, lastFor_cancels] at wanted
      simp at wanted
    | some notice =>
      obtain rfl : notice = .want key := by simpa [middle_last] using wanted
      exact lastFor_mem middle_last
  · refine paired other before middle after ?_
    have whole : log ++ [.cancel key] =
        (before ++ .cancel other :: (middle ++ .cancel other :: after)) ++ [last] := by
      rw [log_eq]
      simp
    exact (List.append_inj' whole rfl).1

theorem Paired.append_wants (paired : Paired log) (keys : List κ) :
    Paired (log ++ keys.map .want) := by
  induction keys using List.reverseRecOn with
  | nil => simpa using paired
  | append_singleton keys last ih =>
    rw [List.map_append, ← List.append_assoc]
    exact ih.append_other fun key => by simp

/-- Keys that are wanted may be cancelled, each once. -/
theorem Paired.append_cancels [DecidableEq κ] (paired : Paired log) {keys : List κ}
    (distinct : keys.Nodup) (wanted : ∀ key ∈ keys, lastFor key log = some (.want key)) :
    Paired (log ++ keys.map .cancel) := by
  induction keys using List.reverseRecOn with
  | nil => simpa using paired
  | append_singleton keys last ih =>
    rw [List.nodup_append] at distinct
    obtain ⟨distinct, -, apart⟩ := distinct
    have before := ih distinct fun key inside => wanted key (List.mem_append_left _ inside)
    have outside : last ∉ keys := fun inside => apart last inside last (by simp) rfl
    rw [List.map_append, ← List.append_assoc]
    refine before.append_cancel ?_
    rw [lastFor_append, lastFor_cancels, if_neg outside]
    exact wanted last (by simp)

end Notices
