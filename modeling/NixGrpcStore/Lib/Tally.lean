import Mathlib.Tactic

/-!
# Tallies of a table

A table is a list of records that are addressed by their position.  `tally f table` adds up what
each record counts for; the lemmas say how it moves when one record is written or the table grows.
-/

namespace Tally

variable {α : Type}

/-- What the records of a table count for, together. -/
def tally (f : α → ℕ) (table : List α) : ℕ := (table.map f).sum

@[simp] theorem tally_nil (f : α → ℕ) : tally f [] = 0 := rfl

@[simp] theorem tally_cons (f : α → ℕ) (a : α) (table : List α) :
    tally f (a :: table) = f a + tally f table := by
  simp [tally]

@[simp] theorem tally_append (f : α → ℕ) (first second : List α) :
    tally f (first ++ second) = tally f first + tally f second := by
  simp [tally]

variable {table : List α} {index other : ℕ}

/-- Writing one record replaces what it counts for. -/
theorem tally_set (f : α → ℕ) {old : α} (found : table[index]? = some old) (new : α) :
    tally f (table.set index new) + f old = tally f table + f new := by
  induction table generalizing index with
  | nil => simp at found
  | cons a table ih =>
    cases index with
    | zero =>
      obtain rfl : a = old := by simpa using found
      simp only [List.set_cons_zero, tally_cons]
      omega
    | succ index =>
      have rest := @ih index (by simpa using found)
      simp only [List.set_cons_succ, tally_cons]
      omega

variable {f : α → ℕ}

/-- Two tables that count alike record by record count alike. -/
theorem tally_congr {table' : List α} (alike : table'.map f = table.map f) :
    tally f table' = tally f table := by
  rw [tally, tally, alike]

/-- A tally of records that count for something or nothing. -/
theorem tally_filter {g : α → ℕ} {p : α → Bool} (counts : ∀ a, f a = if p a then g a else 0)
    (table : List α) : tally f table = ((table.filter p).map g).sum := by
  induction table with
  | nil => rfl
  | cons a table ih =>
    rw [tally_cons, ih, counts, List.filter_cons]
    split <;> simp

theorem tally_countP {p : α → Bool} (counts : ∀ a, f a = if p a then 1 else 0)
    (table : List α) : tally f table = table.countP p := by
  rw [tally_filter counts, List.countP_eq_length_filter]
  simp

theorem tally_pos (pos : 0 < tally f table) :
    ∃ (index : ℕ) (a : α), table[index]? = some a ∧ 0 < f a := by
  induction table with
  | nil => simp at pos
  | cons a table ih =>
    by_cases counts : 0 < f a
    · exact ⟨0, a, rfl, counts⟩
    · rw [tally_cons] at pos
      obtain ⟨index, b, found, counts'⟩ := ih (by omega)
      exact ⟨index + 1, b, by simpa using found, counts'⟩

theorem le_tally {a : α} (found : table[index]? = some a) : f a ≤ tally f table := by
  induction table generalizing index with
  | nil => simp at found
  | cons b table ih =>
    cases index with
    | zero =>
      obtain rfl : b = a := by simpa using found
      simp
    | succ index =>
      have rest := @ih index (by simpa using found)
      rw [tally_cons]
      omega

/-- Positions of records that are counted are at most as many as there are such records. -/
theorem length_le_countP {p : α → Bool} {positions : List ℕ} (distinct : positions.Nodup)
    (counted : ∀ index ∈ positions, ∃ a, table[index]? = some a ∧ p a = true) :
    positions.length ≤ table.countP p := by
  have inside : positions ⊆ (table.zipIdx.filter fun entry => p entry.1).map Prod.snd := by
    intro index mem
    obtain ⟨a, found, holds⟩ := counted index mem
    exact List.mem_map.mpr ⟨(a, index), List.mem_filter.mpr ⟨List.mem_zipIdx_iff_getElem?.mpr found, holds⟩, rfl⟩
  calc
    positions.length ≤ ((table.zipIdx.filter fun entry => p entry.1).map Prod.snd).length :=
      (List.subperm_of_subset distinct inside).length_le
    _ = (table.zipIdx.map Prod.fst).countP p := by
      rw [List.length_map, List.countP_map, List.countP_eq_length_filter]
      rfl
    _ = table.countP p := by rw [List.zipIdx_map_fst]

theorem modify_eq_set (f : α → α) {old : α}
    (found : table[index]? = some old) : table.modify index f = table.set index (f old) := by
  rw [List.modify_eq_set_getElem?, found]
  rfl

theorem modified_found {f : α → α} {new : α} (found : (table.modify index f)[other]? = some new) :
    ∃ old, table[other]? = some old ∧ new = if index = other then f old else old := by
  rw [List.getElem?_modify] at found
  by_cases same : index = other
  · simpa [same, eq_comm] using found
  · exact ⟨new, by simpa [same] using found, by simp [same]⟩

/-- What a table holds once a record is written. -/
theorem set_cases {new a : α} (found : (table.set index new)[other]? = some a) :
    other = index ∧ a = new ∨ other ≠ index ∧ table[other]? = some a := by
  by_cases same : other = index
  · subst same
    have bound : other < table.length := by simpa using (List.getElem?_eq_some_iff.mp found).1
    rw [List.getElem?_set_self bound] at found
    exact .inl ⟨rfl, (Option.some.inj found).symm⟩
  · rw [List.getElem?_set_ne (Ne.symm same)] at found
    exact .inr ⟨same, found⟩

/-- What a table holds once a record is added. -/
theorem push_cases {new a : α} (found : (table ++ [new])[other]? = some a) :
    table[other]? = some a ∨ other = table.length ∧ a = new := by
  rcases Nat.lt_or_ge other table.length with within | beyond
  · rw [List.getElem?_append_left within] at found
    exact .inl found
  · rw [List.getElem?_append_right beyond] at found
    obtain ⟨none_left, is_new⟩ : other - table.length = 0 ∧ new = a := by
      simpa [List.getElem?_singleton] using found
    exact .inr ⟨by omega, is_new.symm⟩

/-- A record that is found is inside the table. -/
theorem lt_length {row : α} (found : table[index]? = some row) : index < table.length :=
  (List.getElem?_eq_some_iff.mp found).1

theorem set_found {old : α} (found : table[index]? = some old) : table.set index old = table := by
  obtain ⟨bound, rfl⟩ := List.getElem?_eq_some_iff.mp found
  exact List.set_getElem_self bound

/-- Writing a record that looks the same to `f` leaves the table as `f` sees it. -/
theorem map_set_of_eq {β : Type} (f : α → β) {old new : α} (found : table[index]? = some old)
    (same : f new = f old) : (table.set index new).map f = table.map f := by
  rw [List.map_set, same]
  apply set_found
  rw [List.getElem?_map, found]
  rfl

end Tally
