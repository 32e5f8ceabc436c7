import Mathlib.Logic.Function.Basic
import Mathlib.Tactic

/-!
# Implicit heaps of arbitrary arity

An implicit heap keeps its items at positions `0, 1, 2, ...`; position `i + 1` hangs below
position `i / arity`.  The store is read as a partial function from positions to items, so that
the results apply to lists, arrays and bounded buffers alike.

A sift carries one item past a *hole*: the hole's content is irrelevant, every other pair of
parent and child is in order, and each move shifts the hole by one level.  `UpHole` and
`DownHole` are the two invariants of such a walk; `finish` turns either into `Ordered` once the
carried item fits.
-/

namespace DaryHeap

open Function (update_of_ne update_self)
variable {α : Type*}

/-- The position above `position` in a heap of the given arity. -/
def parent (arity position : ℕ) : ℕ := (position - 1) / arity

theorem parent_lt {arity position : ℕ} (position_pos : 0 < position) : parent arity position < position := by
  have below : (position - 1) / arity ≤ position - 1 := Nat.div_le_self _ _
  unfold parent
  omega

theorem parent_le (arity position : ℕ) : parent arity position ≤ position := by
  have below : (position - 1) / arity ≤ position - 1 := Nat.div_le_self _ _
  unfold parent
  omega

/-- The children of `hole` are the `arity` positions that start at `arity * hole + 1`. -/
theorem parent_eq_iff {arity child hole : ℕ} (arity_pos : 0 < arity) (child_pos : 0 < child) :
    parent arity child = hole ↔ arity * hole + 1 ≤ child ∧ child < arity * hole + 1 + arity := by
  unfold parent
  rw [Nat.div_eq_iff arity_pos, Nat.mul_comm hole arity]
  omega

section Order

variable [LinearOrder α] {arity hole : ℕ} {store : ℕ → Option α} {item : α}

/-- No item is smaller than the one above it. -/
def Ordered (arity : ℕ) (store : ℕ → Option α) : Prop :=
  ∀ ⦃position low high⦄, 0 < position → store position = some low →
    store (parent arity position) = some high → high ≤ low

/-- Positions are filled from the front. -/
def Filled (store : ℕ → Option α) : Prop :=
  ∀ ⦃small large⦄, small ≤ large → (store large).isSome → (store small).isSome

/-- The root of an ordered heap is its least item. -/
theorem Ordered.root_le (ordered : Ordered arity store) (filled : Filled store) {root : α}
    (root_eq : store 0 = some root) : ∀ {position low}, store position = some low → root ≤ low := by
  intro position
  induction position using Nat.strong_induction_on with
  | _ position ih =>
    intro low low_eq
    obtain rfl | position_pos := Nat.eq_zero_or_pos position
    · exact le_of_eq (Option.some.inj (root_eq.symm.trans low_eq))
    · have above := filled (parent_le arity position) (by simp [low_eq])
      obtain ⟨high, high_eq⟩ := Option.isSome_iff_exists.mp above
      exact (ih _ (parent_lt position_pos) high_eq).trans (ordered position_pos low_eq high_eq)

/-- Pairs that avoid the hole are in order. -/
def OrderedOff (arity : ℕ) (store : ℕ → Option α) (hole : ℕ) : Prop :=
  ∀ ⦃position low high⦄, 0 < position → position ≠ hole → parent arity position ≠ hole →
    store position = some low → store (parent arity position) = some high → high ≤ low

/-- The children of the hole are not smaller than the item above it. -/
def Bridged (arity : ℕ) (store : ℕ → Option α) (hole : ℕ) : Prop :=
  ∀ ⦃child low high⦄, 0 < child → parent arity child = hole → 0 < hole →
    store child = some low → store (parent arity hole) = some high → high ≤ low

/-- The invariant of a walk towards the root: the carried item fits below, perhaps not above. -/
structure UpHole (arity : ℕ) (store : ℕ → Option α) (hole : ℕ) (item : α) : Prop where
  off : OrderedOff arity store hole
  bridged : Bridged arity store hole
  below : ∀ ⦃child low⦄, 0 < child → parent arity child = hole → store child = some low →
    item ≤ low

/-- The invariant of a walk towards the leaves: the carried item fits above, perhaps not below. -/
structure DownHole (arity : ℕ) (store : ℕ → Option α) (hole : ℕ) (item : α) : Prop where
  off : OrderedOff arity store hole
  bridged : Bridged arity store hole
  above : ∀ ⦃high⦄, 0 < hole → store (parent arity hole) = some high → high ≤ item

theorem Ordered.mono (ordered : Ordered arity store) {part : ℕ → Option α}
    (part_le : ∀ position low, part position = some low → store position = some low) :
    Ordered arity part :=
  fun _ _ _ position_pos low_eq high_eq =>
    ordered position_pos (part_le _ _ low_eq) (part_le _ _ high_eq)

theorem Ordered.off (ordered : Ordered arity store) : OrderedOff arity store hole :=
  fun _ _ _ position_pos _ _ low_eq high_eq => ordered position_pos low_eq high_eq

theorem Ordered.bridged (ordered : Ordered arity store) (hole_some : (store hole).isSome) :
    Bridged arity store hole := by
  obtain ⟨old, old_eq⟩ := Option.isSome_iff_exists.mp hole_some
  intro child low high child_pos child_below hole_pos low_eq high_eq
  exact (ordered hole_pos old_eq high_eq).trans (ordered child_pos low_eq (child_below ▸ old_eq))

/-- What stands in the hole does not matter. -/
theorem OrderedOff.update (off : OrderedOff arity store hole) (content : Option α) :
    OrderedOff arity (Function.update store hole content) hole := by
  intro position low high position_pos position_ne above_ne low_eq high_eq
  rw [update_of_ne position_ne] at low_eq
  rw [update_of_ne above_ne] at high_eq
  exact off position_pos position_ne above_ne low_eq high_eq

theorem Bridged.update (bridged : Bridged arity store hole) (content : Option α) :
    Bridged arity (Function.update store hole content) hole := by
  intro child low high child_pos child_below hole_pos low_eq high_eq
  have child_ne : child ≠ hole := (child_below ▸ parent_lt child_pos).ne'
  rw [update_of_ne child_ne] at low_eq
  rw [update_of_ne (parent_lt hole_pos).ne] at high_eq
  exact bridged child_pos child_below hole_pos low_eq high_eq

theorem UpHole.update (up : UpHole arity store hole item) (content : Option α) :
    UpHole arity (Function.update store hole content) hole item where
  off := up.off.update content
  bridged := up.bridged.update content
  below child low child_pos child_below low_eq := by
    have child_ne : child ≠ hole := (child_below ▸ parent_lt child_pos).ne'
    rw [update_of_ne child_ne] at low_eq
    exact up.below child_pos child_below low_eq

theorem DownHole.update (down : DownHole arity store hole item) (content : Option α) :
    DownHole arity (Function.update store hole content) hole item where
  off := down.off.update content
  bridged := down.bridged.update content
  above high hole_pos high_eq := by
    rw [update_of_ne (parent_lt hole_pos).ne] at high_eq
    exact down.above hole_pos high_eq

/-- An item that replaces a larger one at its place may have to move up. -/
theorem Ordered.upHole (ordered : Ordered arity store) {old : α} (old_eq : store hole = some old)
    (item_le : item ≤ old) : UpHole arity store hole item where
  off := ordered.off
  bridged := ordered.bridged (by simp [old_eq])
  below _ _ child_pos child_below low_eq := item_le.trans (ordered child_pos low_eq (child_below ▸ old_eq))

/-- An item that replaces a smaller one at its place may have to move down. -/
theorem Ordered.downHole (ordered : Ordered arity store) {old : α} (old_eq : store hole = some old)
    (le_item : old ≤ item) : DownHole arity store hole item where
  off := ordered.off
  bridged := ordered.bridged (by simp [old_eq])
  above _ hole_pos high_eq := (ordered hole_pos old_eq high_eq).trans le_item

/-- A hole behind the last item has no children. -/
theorem Ordered.upHole_last (ordered : Ordered arity store) (item : α)
    (last : ∀ position, hole ≤ position → store position = none) :
    UpHole arity store hole item where
  off := ordered.off
  bridged child low high child_pos child_below _ low_eq _ := by
    have beyond : hole ≤ child := child_below ▸ parent_le arity child
    simp [last child beyond] at low_eq
  below child low child_pos child_below low_eq := by
    have beyond : hole ≤ child := child_below ▸ parent_le arity child
    simp [last child beyond] at low_eq

/-- Moving the parent into the hole carries the hole one level up. -/
theorem UpHole.move (up : UpHole arity store hole item) (hole_pos : 0 < hole) {high : α}
    (high_eq : store (parent arity hole) = some high) (item_lt : item < high) :
    UpHole arity (Function.update store hole (some high)) (parent arity hole) item := by
  have above_ne : parent arity hole ≠ hole := (parent_lt hole_pos).ne
  -- a sibling of the hole is already in order with the parent
  have sibling : ∀ {child low}, 0 < child → parent arity child = parent arity hole →
      child ≠ hole → store child = some low → high ≤ low := by
    intro child low child_pos child_below child_ne low_eq
    refine up.off child_pos child_ne (child_below ▸ above_ne) low_eq ?_
    rw [child_below, high_eq]
  constructor
  · intro position low top position_pos position_ne above_position_ne low_eq top_eq
    by_cases position_hole : position = hole
    · exact absurd (congrArg (parent arity) position_hole) above_position_ne
    · rw [update_of_ne position_hole] at low_eq
      by_cases under_hole : parent arity position = hole
      · rw [under_hole, update_self] at top_eq
        cases top_eq
        exact up.bridged position_pos under_hole hole_pos low_eq high_eq
      · rw [update_of_ne under_hole] at top_eq
        exact up.off position_pos position_hole under_hole low_eq top_eq
  · intro child low top child_pos child_below above_pos low_eq top_eq
    have above_above_ne : parent arity (parent arity hole) ≠ hole :=
      ((parent_lt above_pos).trans (parent_lt hole_pos)).ne
    rw [update_of_ne above_above_ne] at top_eq
    have top_le : top ≤ high := up.off above_pos above_ne above_above_ne high_eq top_eq
    by_cases child_hole : child = hole
    · rw [child_hole, update_self] at low_eq
      exact top_le.trans (le_of_eq (Option.some.inj low_eq))
    · rw [update_of_ne child_hole] at low_eq
      exact top_le.trans (sibling child_pos child_below child_hole low_eq)
  · intro child low child_pos child_below low_eq
    by_cases child_hole : child = hole
    · rw [child_hole, update_self] at low_eq
      exact item_lt.le.trans (le_of_eq (Option.some.inj low_eq))
    · rw [update_of_ne child_hole] at low_eq
      exact item_lt.le.trans (sibling child_pos child_below child_hole low_eq)

/-- The carried item settles where the item above is not larger. -/
theorem UpHole.finish (up : UpHole arity store hole item)
    (fits : ∀ high, 0 < hole → store (parent arity hole) = some high → high ≤ item) :
    Ordered arity (Function.update store hole (some item)) := by
  intro position low high position_pos low_eq high_eq
  by_cases position_hole : position = hole
  · subst position_hole
    have above_ne : parent arity position ≠ position := (parent_lt position_pos).ne
    rw [update_self] at low_eq
    rw [update_of_ne above_ne] at high_eq
    exact (fits high position_pos high_eq).trans (le_of_eq (Option.some.inj low_eq))
  · rw [update_of_ne position_hole] at low_eq
    by_cases under_hole : parent arity position = hole
    · rw [under_hole, update_self] at high_eq
      exact (le_of_eq (Option.some.inj high_eq).symm).trans (up.below position_pos under_hole low_eq)
    · rw [update_of_ne under_hole] at high_eq
      exact up.off position_pos position_hole under_hole low_eq high_eq

/-- Moving the least child into the hole carries the hole one level down. -/
theorem DownHole.move (down : DownHole arity store hole item) {child : ℕ} (child_pos : 0 < child)
    (child_below : parent arity child = hole) {low : α} (low_eq : store child = some low)
    (low_lt : low < item)
    (least : ∀ {other above}, 0 < other → parent arity other = hole → store other = some above → low ≤ above) :
    DownHole arity (Function.update store hole (some low)) child item := by
  have hole_ne : hole ≠ child := by
    have : parent arity child < child := parent_lt child_pos
    omega
  constructor
  · intro position bottom top position_pos position_ne above_ne bottom_eq top_eq
    by_cases position_hole : position = hole
    · subst position_hole
      have above_ne' : parent arity position ≠ position := (parent_lt position_pos).ne
      rw [update_self] at bottom_eq
      rw [update_of_ne above_ne'] at top_eq
      cases bottom_eq
      exact down.bridged child_pos child_below position_pos low_eq top_eq
    · rw [update_of_ne position_hole] at bottom_eq
      by_cases under_hole : parent arity position = hole
      · rw [under_hole, update_self] at top_eq
        cases top_eq
        exact least position_pos under_hole bottom_eq
      · rw [update_of_ne under_hole] at top_eq
        exact down.off position_pos position_hole under_hole bottom_eq top_eq
  · intro grandchild bottom top grandchild_pos grandchild_below _ bottom_eq top_eq
    rw [child_below, update_self] at top_eq
    cases top_eq
    have grandchild_ne : grandchild ≠ hole := by
      have first : parent arity grandchild < grandchild := parent_lt grandchild_pos
      have second : parent arity child < child := parent_lt child_pos
      omega
    rw [update_of_ne grandchild_ne] at bottom_eq
    refine down.off grandchild_pos grandchild_ne ?_ bottom_eq (grandchild_below ▸ low_eq)
    exact grandchild_below ▸ hole_ne.symm
  · intro top _ top_eq
    rw [child_below, update_self] at top_eq
    exact (le_of_eq (Option.some.inj top_eq).symm).trans low_lt.le

/-- The carried item settles where no child is smaller. -/
theorem DownHole.finish (down : DownHole arity store hole item)
    (fits : ∀ {child low}, 0 < child → parent arity child = hole → store child = some low → item ≤ low) :
    Ordered arity (Function.update store hole (some item)) := by
  have up : UpHole arity store hole item := ⟨down.off, down.bridged, fun _ _ => fits⟩
  exact up.finish fun high hole_pos high_eq => down.above hole_pos high_eq

end Order

end DaryHeap
