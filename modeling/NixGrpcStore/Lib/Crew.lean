import NixGrpcStore.Lib.Tally

/-!
# Threads at work on one object

A crew is a list of threads, each at a point of a program.  A thread runs inside a callback of the
object's owner, which waits for it, or on its own.  Invariants count how many threads are at points of
a kind; one step moves one thread or adds one.
-/

namespace Crew

variable {Pc : Type}

/-- A thread and the point it is at. -/
structure Thread (Pc : Type) where
  pc : Pc
  /-- Runs inside a callback. -/
  callback : Bool
  deriving DecidableEq

/-- How many threads are at points of a kind. -/
def count (kind : Pc → Bool) (crew : List (Thread Pc)) : ℕ := Tally.tally (fun thread => (kind thread.pc).toNat) crew

@[simp] theorem count_nil (kind : Pc → Bool) : count kind [] = 0 := rfl

@[simp] theorem count_append_single (kind : Pc → Bool) (crew : List (Thread Pc)) (thread : Thread Pc) :
    count kind (crew ++ [thread]) = count kind crew + (kind thread.pc).toNat := by
  simp [count]

theorem count_le_append (kind : Pc → Bool) (crew more : List (Thread Pc)) :
    count kind crew ≤ count kind (crew ++ more) := by
  simp [count]

/-- Points of one kind are points of another. -/
theorem count_mono {kind wider : Pc → Bool} (widens : ∀ pc, kind pc = true → wider pc = true)
    (crew : List (Thread Pc)) : count kind crew ≤ count wider crew := by
  apply List.sum_le_sum
  intro thread _
  cases is_kind : kind thread.pc with
  | false => simp
  | true => simp [widens _ is_kind]

section step

variable (kind : Pc → Bool) {crew : List (Thread Pc)} {index : ℕ} {thread : Thread Pc}

section Moves

variable (found : crew[index]? = some thread) (moved : Thread Pc)
include found moved

/-- One thread moves on. -/
theorem count_set :
    count kind (crew.set index moved) + (kind thread.pc).toNat = count kind crew + (kind moved.pc).toNat :=
  Tally.tally_set _ found moved

/-- The step stays within the kind, or outside it. -/
theorem count_kept (kept : kind moved.pc = kind thread.pc) :
    count kind (crew.set index moved) = count kind crew := by
  have balance := count_set kind found moved
  rw [kept] at balance
  exact Nat.add_right_cancel balance

/-- The step leads to a point of the kind. -/
theorem count_entered (outside : kind thread.pc = false)
    (inside : kind moved.pc = true) : count kind (crew.set index moved) = count kind crew + 1 := by
  have balance := count_set kind found moved
  rwa [outside, inside] at balance

/-- The step leads away from the points of the kind. -/
theorem count_left (inside : kind thread.pc = true)
    (outside : kind moved.pc = false) : count kind (crew.set index moved) + 1 = count kind crew := by
  have balance := count_set kind found moved
  rwa [outside, inside] at balance

end Moves

end step

variable {crew : List (Thread Pc)}

theorem le_count (kind : Pc → Bool) {index : ℕ} {thread : Thread Pc}
    (found : crew[index]? = some thread) : (kind thread.pc).toNat ≤ count kind crew :=
  Tally.le_tally (f := fun thread => (kind thread.pc).toNat) found

theorem count_pos_iff {kind : Pc → Bool} :
    0 < count kind crew ↔ ∃ thread ∈ crew, kind thread.pc = true := by
  constructor
  · intro pos
    obtain ⟨index, thread, found, counts⟩ := Tally.tally_pos pos
    refine ⟨thread, List.mem_of_getElem? found, ?_⟩
    cases is_kind : kind thread.pc with
    | true => rfl
    | false => simp [is_kind] at counts
  · rintro ⟨thread, mem, is_kind⟩
    obtain ⟨index, found⟩ := List.getElem?_of_mem mem
    have le := le_count kind found
    simp only [is_kind, Bool.toNat_true] at le
    exact le

/-- Where at most one thread is at points of a kind, two such threads are one. -/
theorem eq_of_count_le_one {kind : Pc → Bool} (le_one : count kind crew ≤ 1)
    {first second : Thread Pc} (first_mem : first ∈ crew) (second_mem : second ∈ crew)
    (first_at : kind first.pc = true) (second_at : kind second.pc = true) : first = second := by
  induction crew with
  | nil => cases first_mem
  | cons thread crew ih =>
    have split : count kind (thread :: crew) = (kind thread.pc).toNat + count kind crew := by simp [count]
    rw [split] at le_one
    have alone {other : Thread Pc} (mem : other ∈ crew) (other_at : kind other.pc = true) : 0 < count kind crew :=
      count_pos_iff.mpr ⟨other, mem, other_at⟩
    cases first_mem with
    | head =>
      cases second_mem with
      | head => rfl
      | tail _ second_mem =>
        have more := alone second_mem second_at
        rw [first_at, Bool.toNat_true] at le_one
        omega
    | tail _ first_mem =>
      have more := alone first_mem first_at
      cases second_mem with
      | head =>
        rw [second_at, Bool.toNat_true] at le_one
        omega
      | tail _ second_mem => exact ih (by omega) first_mem second_mem

/-- All threads are at points of no such kind. -/
theorem count_eq_zero {kind : Pc → Bool} (none_at : ∀ thread ∈ crew, kind thread.pc = false) :
    count kind crew = 0 := by
  by_contra some_at
  obtain ⟨thread, mem, is_kind⟩ := count_pos_iff.mp (Nat.pos_of_ne_zero some_at)
  cases (none_at thread mem).symm.trans is_kind

end Crew
