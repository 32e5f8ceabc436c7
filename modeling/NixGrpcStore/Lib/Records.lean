import Mathlib.Data.List.AList
import Mathlib.Tactic

/-!
# Records by key

A table keeps a record per key in a map that is extended on demand.  Items are entered one after the
other; each changes the record of its key, if it has one.  What it says about a key is what the
items of that key alone would have made of the record.
-/

namespace Records

variable {κ σ α : Type} [DecidableEq κ] [Inhabited σ]

/-- The record of a key, which is the default until the key is used. -/
def recordAt (records : AList fun _ : κ => σ) (key : κ) : σ := (records.lookup key).getD default

/-- Change the record of a key. -/
def touch (records : AList fun _ : κ => σ) (key : κ) (change : σ → σ) : AList fun _ : κ => σ :=
  records.insert key (change (recordAt records key))

/-- Enter one item under its key, if it has one. -/
def enter (key : α → Option κ) (change : α → σ → σ) (records : AList fun _ : κ => σ) (item : α) :
    AList fun _ : κ => σ :=
  match key item with
  | none => records
  | some own => touch records own (change item)

/-- The sum of a weight over all records. -/
def total (weight : σ → ℕ) (records : AList fun _ : κ => σ) : ℕ :=
  (records.entries.map fun record => weight record.2).sum

variable {records : AList fun _ : κ => σ} {key : κ}

theorem recordAt_touch (change : σ → σ) (other : κ) :
    recordAt (touch records key change) other =
      if other = key then change (recordAt records key) else recordAt records other := by
  unfold touch
  split_ifs with same
  · rw [same, recordAt, AList.lookup_insert, Option.getD_some]
  · rw [recordAt, AList.lookup_insert_ne same, recordAt]

theorem mem_touch (change : σ → σ) {other : κ} :
    other ∈ touch records key change ↔ other = key ∨ other ∈ records :=
  AList.mem_insert records

/-- What is entered under a key depends on the items of that key only. -/
theorem recordAt_foldl_enter (keyOf : α → Option κ) (change : α → σ → σ) (items : List α)
    (records : AList fun _ : κ => σ) (key : κ) :
    recordAt (items.foldl (enter keyOf change) records) key =
      (items.filter fun item => keyOf item = some key).foldl (fun record item => change item record)
        (recordAt records key) := by
  induction items generalizing records with
  | nil => rfl
  | cons item items ih =>
    rw [List.foldl_cons, ih, List.filter_cons]
    cases own : keyOf item with
    | none => simp [enter, own]
    | some found =>
      simp only [enter, own, recordAt_touch]
      by_cases same : key = found
      · simp [same]
      · simp [same, Ne.symm same]

theorem mem_foldl_enter (keyOf : α → Option κ) (change : α → σ → σ) (items : List α)
    (records : AList fun _ : κ => σ) (key : κ) :
    key ∈ items.foldl (enter keyOf change) records ↔ key ∈ records ∨ ∃ item ∈ items, keyOf item = some key := by
  induction items generalizing records with
  | nil => simp
  | cons item items ih =>
    rw [List.foldl_cons, ih]
    cases own : keyOf item with
    | none => simp [enter, own]
    | some found =>
      simp only [enter, own, mem_touch, List.mem_cons, exists_eq_or_imp, Option.some.injEq]
      rw [eq_comm (a := key), or_assoc, or_left_comm]

omit [Inhabited σ] in
theorem sum_kerase (weight : σ → ℕ) (entries : List (Sigma fun _ : κ => σ))
    (nodup : entries.NodupKeys) (key : κ) :
    (entries.map fun record => weight record.2).sum =
      ((entries.dlookup key).map weight).getD 0 + ((entries.kerase key).map fun record => weight record.2).sum := by
  induction entries with
  | nil => rfl
  | cons record entries ih =>
    obtain ⟨first, value⟩ := record
    obtain ⟨-, nodup⟩ := List.nodupKeys_cons.mp nodup
    by_cases same : key = first
    · subst same
      simp
    · rw [List.dlookup_cons_ne _ _ same, List.kerase_cons_ne same, List.map_cons, List.sum_cons, ih nodup,
        List.map_cons, List.sum_cons]
      omega

/-- A change of one record changes the sum by as much. -/
theorem total_touch {weight : σ → ℕ} (empty : weight default = 0) (change : σ → σ) :
    total weight (touch records key change) + weight (recordAt records key) =
      total weight records + weight (change (recordAt records key)) := by
  have before := sum_kerase weight records.entries records.nodupKeys key
  have value_eq : ((records.entries.dlookup key).map weight).getD 0 = weight (recordAt records key) := by
    rw [recordAt, AList.lookup]
    cases records.entries.dlookup key with
    | none => exact empty.symm
    | some value => rfl
  rw [value_eq] at before
  have after : total weight (touch records key change) =
      weight (change (recordAt records key)) +
        ((records.entries.kerase key).map fun record => weight record.2).sum := by
    rw [total, touch]
    rfl
  have before : total weight records = _ := before
  omega

/-- Items that leave a weight alone leave its sum alone. -/
theorem total_foldl_enter {weight : σ → ℕ} (empty : weight default = 0) {keyOf : α → Option κ}
    {change : α → σ → σ} (same : ∀ item record, weight (change item record) = weight record) (items : List α)
    (records : AList fun _ : κ => σ) :
    total weight (items.foldl (enter keyOf change) records) = total weight records := by
  induction items generalizing records with
  | nil => rfl
  | cons item items ih =>
    rw [List.foldl_cons, ih, enter]
    cases keyOf item with
    | none => rfl
    | some own =>
      have touched := @total_touch κ σ _ _ records own weight empty (change item)
      rw [same] at touched
      exact Nat.add_right_cancel touched

end Records
