import Mathlib.Data.Prod.Lex
import NixGrpcStore.Lib.DaryHeap
import NixGrpcStore.Sched.Basic

/-!
# The scheduler's queue: a min-heap with update and erase by id

`IndexedHeap` keeps `(key, id)` pairs in a four-ary implicit heap together with the position of
every id.  The raw operations follow the source statement by statement; an access outside a
vector is `none`.  The type of heaps proper carries the proof that heap and positions agree and
that the heap is ordered, and on it no access is out of range.
-/

namespace NixGrpcStore.Sched

open Tally (lt_length)
open Function (update update_of_ne update_self)
open Option (bind_eq_bind bind_some ne_none_iff_exists')
open List (getElem?_eq_getElem getElem?_eq_none mem_cons mem_cons_of_mem mem_cons_self)

open DaryHeap

namespace IndexedHeap

/-- A heap item; pairs compare lexicographically. -/
abbrev Item (κ : Type) := κ ×ₗ DrvId

variable {κ : Type}

/-- The key of an item. -/
def Item.key (item : Item κ) : κ := (ofLex item).1

/-- The id of an item. -/
def Item.id (item : Item κ) : DrvId := (ofLex item).2

/-- The item with a given key and id. -/
def Item.mk (key : κ) (drv : DrvId) : Item κ := toLex (key, drv)

@[simp] theorem Item.key_mk (key : κ) (drv : DrvId) : (Item.mk key drv).key = key := rfl

@[simp] theorem Item.id_mk (key : κ) (drv : DrvId) : (Item.mk key drv).id = drv := rfl

@[simp] theorem Item.mk_key_id (item : Item κ) : Item.mk item.key item.id = item := rfl

variable [LinearOrder κ]

theorem Item.le_of_key_lt {low high : Item κ} (lt : low.key < high.key) : low ≤ high :=
  le_of_lt (Prod.Lex.lt_iff.mpr (Or.inl lt))

theorem Item.key_le_of_le {low high : Item κ} (le : low ≤ high) : low.key ≤ high.key := by
  obtain lt | ⟨eq, -⟩ := Prod.Lex.le_iff.mp le
  · exact lt.le
  · exact le_of_eq eq

/-- The two vectors of the source; `pos` has `none` where the source stores `npos`. -/
structure Raw (κ : Type) where
  /-- The implicit heap. -/
  heap : List (Item κ)
  /-- Position of each id in `heap`. -/
  pos : List (Option ℕ)
  deriving DecidableEq

namespace Raw

/-- Children of one node. -/
def arity : ℕ := 4

/-- Write `item` at `idx` and record its position. -/
def place (idx : ℕ) (item : Item κ) (h : Raw κ) : Option (Raw κ) :=
  if item.id < h.pos.length ∧ idx < h.heap.length then
    some { heap := h.heap.set idx item, pos := h.pos.set item.id (some idx) }
  else
    none

/-- The loop of `siftUp`.  Each round at least decrements `idx`, which bounds the rounds. -/
def siftUpFrom (item : Item κ) : ℕ → ℕ → Raw κ → Option (Raw κ)
  | 0, idx, h => h.place idx item
  | rounds + 1, idx, h =>
    if idx = 0 then
      h.place idx item
    else do
      let above ← h.heap[parent arity idx]?
      if above ≤ item then
        h.place idx item
      else
        (← h.place idx above).siftUpFrom item rounds (parent arity idx)

/-- Move the item at `idx` towards the root until its parent is not larger. -/
def siftUp (idx : ℕ) (h : Raw κ) : Option (Raw κ) := do
  let item ← h.heap[idx]?
  h.siftUpFrom item idx idx

/-- The inner loop of `siftDown`: the least of the children in `range`. -/
def leastOf (h : Raw κ) (best : ℕ) : List ℕ → Option ℕ
  | [] => some best
  | child :: children => do
    let low ← h.heap[child]?
    let bestItem ← h.heap[best]?
    h.leastOf (if low < bestItem then child else best) children

/-- The children after `first` that exist. -/
def siblings (h : Raw κ) (first : ℕ) : List ℕ :=
  List.range' (first + 1) (min (first + arity) h.heap.length - (first + 1))

/-- The loop of `siftDown`.  Each round increments `idx`, so `heap.length` rounds are enough. -/
def siftDownFrom (item : Item κ) : ℕ → ℕ → Raw κ → Option (Raw κ)
  | 0, idx, h => h.place idx item
  | rounds + 1, idx, h =>
    let first := arity * idx + 1
    if h.heap.length ≤ first then
      h.place idx item
    else do
      let best ← h.leastOf first (h.siblings first)
      let low ← h.heap[best]?
      if item ≤ low then
        h.place idx item
      else
        (← h.place idx low).siftDownFrom item rounds best

/-- Move the item at `idx` towards the leaves until no child is smaller. -/
def siftDown (idx : ℕ) (h : Raw κ) : Option (Raw κ) := do
  let item ← h.heap[idx]?
  h.siftDownFrom item h.heap.length idx

/-- The position recorded for an id, if it is in the heap. -/
def posOf (h : Raw κ) (drv : DrvId) : Option ℕ := (h.pos[drv]?).join

/-- Whether an id is in the heap. -/
def contains (h : Raw κ) (drv : DrvId) : Bool := (h.posOf drv).isSome

/-- Make room for the position of `drv`. -/
def grow (drv : ℕ) (h : Raw κ) : Raw κ :=
  { h with pos := h.pos ++ List.replicate (drv + 1 - h.pos.length) none }

/-- Insert `drv` under `key`, or give it this key. -/
def set (drv : DrvId) (key : κ) (h : Raw κ) : Option (Raw κ) :=
  let h := h.grow drv
  match h.posOf drv with
  | none =>
    siftUp h.heap.length
      { heap := h.heap ++ [Item.mk key drv], pos := h.pos.set drv (some h.heap.length) }
  | some idx => do
    let old ← h.heap[idx]?
    let h := { h with heap := h.heap.set idx (Item.mk key drv) }
    if key < old.key then h.siftUp idx else h.siftDown idx

/-- Remove `drv`, if it is there. -/
def erase (drv : DrvId) (h : Raw κ) : Option (Raw κ) :=
  match h.posOf drv with
  | none => some h
  | some idx => do
    let last ← h.heap.getLast?
    let h : Raw κ := { heap := h.heap.dropLast, pos := h.pos.set drv none }
    if h.heap.length ≤ idx then
      some h
    else
      let h ← (← h.place idx last).siftUp idx
      let idx ← h.posOf last.id
      h.siftDown idx

/-- The heap as a partial function from positions. -/
abbrev store (h : Raw κ) (position : ℕ) : Option (Item κ) := h.heap[position]?

/-- The key under which an id is held. -/
def keyOf (h : Raw κ) (drv : DrvId) : Option κ :=
  (h.posOf drv).bind fun idx => (h.store idx).map Item.key

/-- The heap is ordered, and heap and positions both describe the map `keys`. -/
structure Denotes (h : Raw κ) (keys : DrvId → Option κ) : Prop where
  ordered : Ordered arity h.store
  seated : ∀ ⦃idx item⦄, h.store idx = some item →
    h.posOf item.id = some idx ∧ keys item.id = some item.key
  found : ∀ ⦃drv key⦄, keys drv = some key →
    ∃ idx, h.posOf drv = some idx ∧ h.store idx = some (Item.mk key drv)
  tidy : ∀ ⦃drv⦄, keys drv = none → h.posOf drv = none

theorem Denotes.keyOf_eq {h : Raw κ} {keys : DrvId → Option κ} (denotes : h.Denotes keys) :
    h.keyOf = keys := by
  funext drv
  cases key_eq : keys drv with
  | none => simp [keyOf, denotes.tidy key_eq]
  | some key =>
    obtain ⟨idx, pos_eq, item_eq⟩ := denotes.found key_eq
    simp [keyOf, pos_eq, item_eq]

omit [LinearOrder κ] in
theorem filled (h : Raw κ) : Filled h.store := by
  intro small large le large_some
  simp only [store, getElem?_def, apply_dite Option.isSome, Option.isSome_some,
    Option.isSome_none, dite_eq_ite, ite_eq_left_iff, Bool.false_eq_true, imp_false,
    not_not] at large_some ⊢
  omega

omit [LinearOrder κ] in
theorem store_set {h : Raw κ} {idx : ℕ} (idx_lt : idx < h.heap.length) (item : Item κ)
    (pos : List (Option ℕ)) :
    (Raw.mk (h.heap.set idx item) pos).store = update h.store idx (some item) := by
  funext position
  by_cases position_idx : position = idx
  · subst position_idx
    simp [store, idx_lt]
  · rw [update_of_ne position_idx]
    exact List.getElem?_set_ne (Ne.symm position_idx)

omit [LinearOrder κ] in
theorem posOf_set (heap : List (Item κ)) {pos : List (Option ℕ)} {drv : DrvId}
    (drv_lt : drv < pos.length) (idx : Option ℕ) (other : DrvId) :
    (Raw.mk heap (pos.set drv idx)).posOf other =
      if other = drv then idx else (Raw.mk heap pos).posOf other := by
  by_cases other_drv : other = drv
  · subst other_drv
    simp [posOf, drv_lt]
  · simp [posOf, List.getElem?_set_ne (Ne.symm other_drv), other_drv]

/-! ## Sifting -/

/-- A heap with a hole: `item` is carried, everything else sits where the positions say. -/
structure Carries (h : Raw κ) (hole : ℕ) (item : Item κ) (keys : DrvId → Option κ) : Prop where
  hole_lt : hole < h.heap.length
  id_lt : item.id < h.pos.length
  item_key : keys item.id = some item.key
  seated : ∀ ⦃idx other⦄, idx ≠ hole → h.store idx = some other →
    other.id ≠ item.id ∧ h.posOf other.id = some idx ∧ keys other.id = some other.key
  found : ∀ ⦃drv key⦄, drv ≠ item.id → keys drv = some key →
    ∃ idx, idx ≠ hole ∧ h.posOf drv = some idx ∧ h.store idx = some (Item.mk key drv)
  tidy : ∀ ⦃drv⦄, keys drv = none → h.posOf drv = none

variable {h : Raw κ} {hole : ℕ} {item : Item κ} {keys : DrvId → Option κ}

omit [LinearOrder κ] in
theorem posOf_lt {drv : DrvId} {idx : ℕ} (pos_eq : h.posOf drv = some idx) : drv < h.pos.length := by
  by_contra beyond
  simp [posOf, getElem?_eq_none (Nat.le_of_not_lt beyond)] at pos_eq

/-- An item of a heap can be lifted out and carried. -/
theorem Denotes.carries (denotes : h.Denotes keys) (item_eq : h.store hole = some item) :
    h.Carries hole item keys where
  hole_lt := lt_length item_eq
  id_lt := posOf_lt (denotes.seated item_eq).1
  item_key := (denotes.seated item_eq).2
  seated idx other idx_ne other_eq := by
    obtain ⟨pos_eq, key_eq⟩ := denotes.seated other_eq
    refine ⟨fun id_eq => idx_ne ?_, pos_eq, key_eq⟩
    rw [id_eq, (denotes.seated item_eq).1] at pos_eq
    exact (Option.some.inj pos_eq).symm
  found drv key drv_ne key_eq := by
    obtain ⟨idx, pos_eq, at_idx⟩ := denotes.found key_eq
    refine ⟨idx, fun idx_hole => drv_ne ?_, pos_eq, at_idx⟩
    rw [idx_hole, item_eq] at at_idx
    rw [Option.some.inj at_idx, Item.id_mk]
  tidy _ key_eq := denotes.tidy key_eq

section Sifting

variable (carries : h.Carries hole item keys)
include carries

omit [LinearOrder κ] in
/-- Moving the item at `idx` into the hole opens a hole at `idx`. -/
theorem Carries.place_move {idx : ℕ} {other : Item κ}
    (idx_ne : idx ≠ hole) (other_eq : h.store idx = some other) :
    ∃ next, h.place hole other = some next ∧ next.Carries idx item keys ∧ next.heap.length = h.heap.length ∧
      next.store = update h.store hole (some other) := by
  obtain ⟨other_ne, other_pos, other_key⟩ := carries.seated idx_ne other_eq
  have other_lt := posOf_lt other_pos
  have posOf_next : ∀ drv, (Raw.mk (h.heap.set hole other)
      (h.pos.set other.id (some hole))).posOf drv = if drv = other.id then some hole else h.posOf drv :=
    fun drv => posOf_set _ other_lt (some hole) drv
  have store_next := store_set carries.hole_lt other (h.pos.set other.id (some hole))
  refine ⟨{ heap := h.heap.set hole other, pos := h.pos.set other.id (some hole) },
    by simp [place, other_lt, carries.hole_lt], ?_, by simp, store_next⟩
  constructor
  · simpa using (lt_length other_eq)
  · simpa using carries.id_lt
  · exact carries.item_key
  · intro position moved position_ne moved_eq
    rw [store_next] at moved_eq
    rw [posOf_next]
    by_cases position_hole : position = hole
    · rw [position_hole, update_self] at moved_eq
      cases moved_eq
      exact ⟨other_ne, by simp [position_hole], other_key⟩
    · rw [update_of_ne position_hole] at moved_eq
      obtain ⟨moved_ne, moved_pos, moved_key⟩ := carries.seated position_hole moved_eq
      refine ⟨moved_ne, ?_, moved_key⟩
      rw [if_neg, moved_pos]
      intro id_eq
      rw [id_eq, other_pos] at moved_pos
      exact position_ne (Option.some.inj moved_pos).symm
  · intro drv key drv_ne key_eq
    rw [posOf_next, store_next]
    by_cases drv_other : drv = other.id
    · refine ⟨hole, Ne.symm idx_ne, by simp [drv_other], ?_⟩
      rw [drv_other, other_key] at key_eq
      rw [update_self, drv_other, ← Option.some.inj key_eq, Item.mk_key_id]
    · obtain ⟨position, position_ne, pos_eq, at_position⟩ := carries.found drv_ne key_eq
      refine ⟨position, ?_, by simp [drv_other, pos_eq], ?_⟩
      · intro position_idx
        rw [position_idx, other_eq] at at_position
        exact drv_other (by rw [Option.some.inj at_position, Item.id_mk])
      · rw [update_of_ne position_ne, at_position]
  · intro drv key_eq
    rw [posOf_next, if_neg, carries.tidy key_eq]
    rintro rfl
    simp [other_key] at key_eq

omit [LinearOrder κ] in
/-- Writing the carried item into the hole keeps everything else in place. -/
theorem Carries.place_item :
    ∃ next, h.place hole item = some next ∧ next.Carries hole item keys ∧
      next.heap.length = h.heap.length ∧ next.posOf item.id = some hole ∧
      next.store = update h.store hole (some item) := by
  have posOf_next : ∀ drv, (Raw.mk (h.heap.set hole item)
      (h.pos.set item.id (some hole))).posOf drv = if drv = item.id then some hole else h.posOf drv :=
    fun drv => posOf_set _ carries.id_lt (some hole) drv
  have store_next := store_set carries.hole_lt item (h.pos.set item.id (some hole))
  refine ⟨{ heap := h.heap.set hole item, pos := h.pos.set item.id (some hole) },
    by simp [place, carries.id_lt, carries.hole_lt], ?_, by simp, by simp [posOf_next], store_next⟩
  constructor
  · simpa using carries.hole_lt
  · simpa using carries.id_lt
  · exact carries.item_key
  · intro idx other idx_ne other_eq
    rw [store_next, update_of_ne idx_ne] at other_eq
    obtain ⟨other_ne, other_pos, other_key⟩ := carries.seated idx_ne other_eq
    exact ⟨other_ne, by rw [posOf_next, if_neg other_ne, other_pos], other_key⟩
  · intro drv key drv_ne key_eq
    obtain ⟨idx, idx_ne, pos_eq, at_idx⟩ := carries.found drv_ne key_eq
    exact ⟨idx, idx_ne, by rw [posOf_next, if_neg drv_ne, pos_eq],
      by rw [store_next, update_of_ne idx_ne, at_idx]⟩
  · intro drv key_eq
    rw [posOf_next, if_neg, carries.tidy key_eq]
    rintro rfl
    simp [carries.item_key] at key_eq

/-- A hole filled with the carried item is no hole. -/
theorem Carries.denotes (item_eq : h.store hole = some item) (pos_eq : h.posOf item.id = some hole)
    (ordered : Ordered arity h.store) : h.Denotes keys where
  ordered := ordered
  seated idx other other_eq := by
    by_cases idx_hole : idx = hole
    · rw [idx_hole, item_eq] at other_eq
      cases other_eq
      exact ⟨idx_hole ▸ pos_eq, carries.item_key⟩
    · exact (carries.seated idx_hole other_eq).2
  found drv key key_eq := by
    by_cases drv_item : drv = item.id
    · rw [drv_item, carries.item_key] at key_eq
      refine ⟨hole, drv_item ▸ pos_eq, ?_⟩
      rw [item_eq, drv_item, ← Option.some.inj key_eq, Item.mk_key_id]
    · obtain ⟨idx, -, idx_eq, at_idx⟩ := carries.found drv_item key_eq
      exact ⟨idx, idx_eq, at_idx⟩
  tidy _ key_eq := carries.tidy key_eq

theorem Carries.place_finish (ordered : Ordered arity (update h.store hole (some item))) :
    ∃ next, h.place hole item = some next ∧ next.Denotes keys ∧
      next.heap.length = h.heap.length := by
  obtain ⟨next, place_eq, next_carries, length_eq, pos_eq, store_eq⟩ := carries.place_item
  have item_eq : next.store hole = some item := by rw [store_eq, update_self]
  exact ⟨next, place_eq, next_carries.denotes item_eq pos_eq (store_eq ▸ ordered), length_eq⟩

end Sifting

omit [LinearOrder κ] in
theorem store_lt {idx : ℕ} {other : Item κ} (other_eq : h.store idx = some other) :
    idx < h.heap.length :=
  lt_length other_eq

omit [LinearOrder κ] in
theorem Carries.parent_some (carries : h.Carries hole item keys) :
    ∃ above, h.store (parent arity hole) = some above := by
  have above_lt : parent arity hole < h.heap.length := (parent_le arity hole).trans_lt carries.hole_lt
  exact ⟨_, getElem?_eq_getElem above_lt⟩

/-- `siftUp` restores the heap and neither gains nor loses an id. -/
theorem siftUpFrom_spec (rounds : ℕ) (rounds_le : hole ≤ rounds)
    (carries : h.Carries hole item keys) (up : UpHole arity h.store hole item) :
    ∃ next, h.siftUpFrom item rounds hole = some next ∧ next.Denotes keys ∧
      next.heap.length = h.heap.length := by
  induction rounds generalizing h hole with
  | zero =>
    obtain rfl : hole = 0 := by omega
    obtain ⟨next, place_eq, denotes, length_eq⟩ :=
      carries.place_finish (up.finish fun _ hole_pos => absurd hole_pos (lt_irrefl 0))
    exact ⟨next, place_eq, denotes, length_eq⟩
  | succ rounds ih =>
    unfold siftUpFrom
    obtain rfl | hole_pos := Nat.eq_zero_or_pos hole
    · obtain ⟨next, place_eq, denotes, length_eq⟩ :=
        carries.place_finish (up.finish fun _ hole_pos => absurd hole_pos (lt_irrefl 0))
      exact ⟨next, by simpa using place_eq, denotes, length_eq⟩
    · obtain ⟨above, above_eq⟩ := carries.parent_some
      simp only [hole_pos.ne', if_false, above_eq, bind_eq_bind, bind_some]
      by_cases fits : above ≤ item
      · obtain ⟨next, place_eq, denotes, length_eq⟩ :=
          carries.place_finish (up.finish fun high _ high_eq => by
            rw [above_eq] at high_eq
            exact (Option.some.inj high_eq) ▸ fits)
        exact ⟨next, by rw [if_pos fits, place_eq], denotes, length_eq⟩
      · obtain ⟨moved, moved_eq, moved_carries, moved_length, moved_store⟩ :=
          carries.place_move (parent_lt hole_pos).ne above_eq
        have moved_up : UpHole arity moved.store (parent arity hole) item := by
          rw [moved_store]
          exact up.move hole_pos above_eq (not_le.mp fits)
        have above_lt : parent arity hole < hole := parent_lt hole_pos
        obtain ⟨next, next_eq, denotes, length_eq⟩ := ih (by omega) moved_carries moved_up
        refine ⟨next, ?_, denotes, length_eq.trans moved_length⟩
        rw [if_neg fits, moved_eq, bind_some, next_eq]

/-- The inner loop of `siftDown` finds the least of the positions it scans. -/
theorem leastOf_spec (children : List ℕ) (best : ℕ) (best_lt : best < h.heap.length)
    (children_lt : ∀ child ∈ children, child < h.heap.length) :
    ∃ least ∈ best :: children, h.leastOf best children = some least ∧
      ∃ low, h.store least = some low ∧
        ∀ other ∈ best :: children, ∀ high, h.store other = some high → low ≤ high := by
  induction children generalizing best with
  | nil =>
    refine ⟨best, by simp, rfl, _, getElem?_eq_getElem best_lt, ?_⟩
    intro other other_mem high high_eq
    rw [List.mem_singleton.mp other_mem, store, getElem?_eq_getElem best_lt] at high_eq
    exact le_of_eq (Option.some.inj high_eq)
  | cons child children ih =>
    have child_lt := children_lt child mem_cons_self
    have rest_lt : ∀ other ∈ children, other < h.heap.length := fun other member =>
      children_lt other (mem_cons_of_mem child member)
    obtain ⟨low, low_eq⟩ : ∃ low, h.store child = some low := ⟨_, getElem?_eq_getElem child_lt⟩
    obtain ⟨bestItem, best_eq⟩ : ∃ bestItem, h.store best = some bestItem :=
      ⟨_, getElem?_eq_getElem best_lt⟩
    -- whichever of the two is kept bounds the other one
    have kept_lt : (if low < bestItem then child else best) < h.heap.length := by
      split <;> assumption
    obtain ⟨least, least_mem, least_eq, item, item_eq, item_le⟩ := ih _ kept_lt rest_lt
    have kept_le : item ≤ low ∧ item ≤ bestItem := by
      by_cases smaller : low < bestItem
      · have := item_le child (by simp [smaller]) low low_eq
        exact ⟨this, this.trans smaller.le⟩
      · have := item_le best (by simp [smaller]) bestItem best_eq
        exact ⟨this.trans (not_lt.mp smaller), this⟩
    refine ⟨least, ?_, ?_, item, item_eq, ?_⟩
    · simp only [mem_cons] at least_mem ⊢
      obtain least_kept | least_rest := least_mem
      · split at least_kept <;> simp [least_kept]
      · simp [least_rest]
    · simp only [leastOf, low_eq, best_eq, bind_eq_bind, bind_some, least_eq]
    · intro other other_mem high high_eq
      simp only [mem_cons] at other_mem
      obtain rfl | rfl | other_rest := other_mem
      · rw [best_eq] at high_eq
        exact (Option.some.inj high_eq) ▸ kept_le.2
      · rw [low_eq] at high_eq
        exact (Option.some.inj high_eq) ▸ kept_le.1
      · exact item_le other (mem_cons_of_mem _ other_rest) high high_eq

omit [LinearOrder κ] in
theorem mem_children_iff {first child : ℕ} (first_lt : first < h.heap.length) :
    child ∈ first :: h.siblings first ↔
      first ≤ child ∧ child < first + arity ∧ child < h.heap.length := by
  simp only [siblings, mem_cons, List.mem_range'_1, arity]
  omega

/-- `siftDown` restores the heap and neither gains nor loses an id. -/
theorem siftDownFrom_spec (rounds : ℕ) (rounds_le : h.heap.length ≤ hole + rounds)
    (carries : h.Carries hole item keys) (down : DownHole arity h.store hole item) :
    ∃ next, h.siftDownFrom item rounds hole = some next ∧ next.Denotes keys ∧
      next.heap.length = h.heap.length := by
  have arity_pos : 0 < arity := by decide
  induction rounds generalizing h hole with
  | zero =>
    have := carries.hole_lt
    omega
  | succ rounds ih =>
    unfold siftDownFrom
    by_cases leaf : h.heap.length ≤ arity * hole + 1
    · obtain ⟨next, place_eq, denotes, length_eq⟩ :=
        carries.place_finish (down.finish fun child_pos child_below low_eq => by
          have child_ge := ((parent_eq_iff arity_pos child_pos).mp child_below).1
          have child_lt := store_lt low_eq
          omega)
      exact ⟨next, by simpa [leaf] using place_eq, denotes, length_eq⟩
    · have first_lt : arity * hole + 1 < h.heap.length := by omega
      obtain ⟨best, best_mem, best_eq, low, low_eq, low_le⟩ :=
        h.leastOf_spec (h.siblings (arity * hole + 1)) (arity * hole + 1) first_lt
          fun child member =>
            ((mem_children_iff first_lt).mp (mem_cons_of_mem _ member)).2.2
      have best_range := (mem_children_iff first_lt).mp best_mem
      have best_pos : 0 < best := by omega
      have best_below : parent arity best = hole :=
        (parent_eq_iff arity_pos best_pos).mpr ⟨best_range.1, best_range.2.1⟩
      have least : ∀ {other above}, 0 < other → parent arity other = hole →
          h.store other = some above → low ≤ above := by
        intro other above other_pos other_below above_eq
        have other_range := (parent_eq_iff arity_pos other_pos).mp other_below
        exact low_le other ((mem_children_iff first_lt).mpr
          ⟨other_range.1, other_range.2, store_lt above_eq⟩) above above_eq
      simp only [leaf, if_false, best_eq, low_eq, bind_eq_bind, bind_some]
      by_cases fits : item ≤ low
      · obtain ⟨next, place_eq, denotes, length_eq⟩ :=
          carries.place_finish (down.finish fun child_pos child_below above_eq =>
            fits.trans (least child_pos child_below above_eq))
        exact ⟨next, by rw [if_pos fits, place_eq], denotes, length_eq⟩
      · have best_gt : hole < best := best_below ▸ parent_lt best_pos
        obtain ⟨moved, moved_eq, moved_carries, moved_length, moved_store⟩ :=
          carries.place_move best_gt.ne' low_eq
        have moved_down : DownHole arity moved.store best item := by
          rw [moved_store]
          exact down.move best_pos best_below low_eq (not_le.mp fits) least
        obtain ⟨next, next_eq, denotes, length_eq⟩ := ih (by omega) moved_carries moved_down
        refine ⟨next, ?_, denotes, length_eq.trans moved_length⟩
        rw [if_neg fits, moved_eq, bind_some, next_eq]

theorem siftUp_spec (carries : h.Carries hole item keys) (item_eq : h.store hole = some item)
    (up : UpHole arity h.store hole item) :
    ∃ next, h.siftUp hole = some next ∧ next.Denotes keys ∧
      next.heap.length = h.heap.length := by
  obtain ⟨next, next_eq, denotes, length_eq⟩ := siftUpFrom_spec hole le_rfl carries up
  exact ⟨next, by simp [siftUp, item_eq, next_eq], denotes, length_eq⟩

theorem siftDown_spec (carries : h.Carries hole item keys) (item_eq : h.store hole = some item)
    (down : DownHole arity h.store hole item) :
    ∃ next, h.siftDown hole = some next ∧ next.Denotes keys ∧
      next.heap.length = h.heap.length := by
  obtain ⟨next, next_eq, denotes, length_eq⟩ :=
    siftDownFrom_spec h.heap.length (Nat.le_add_left _ _) carries down
  exact ⟨next, by simp [siftDown, item_eq, next_eq], denotes, length_eq⟩

/-! ## Insertion, update and removal -/

omit [LinearOrder κ] in
theorem posOf_grow (h : Raw κ) (drv other : DrvId) : (h.grow drv).posOf other = h.posOf other := by
  simp only [posOf, grow, List.getElem?_append]
  split
  · rfl
  · rename_i beyond
    rw [getElem?_eq_none (Nat.le_of_not_lt beyond), List.getElem?_replicate]
    split <;> rfl

theorem Denotes.grow (denotes : h.Denotes keys) (drv : DrvId) : (h.grow drv).Denotes keys where
  ordered := denotes.ordered
  seated idx item item_eq := by
    rw [posOf_grow]
    exact denotes.seated item_eq
  found other key key_eq := by
    rw [posOf_grow]
    exact denotes.found key_eq
  tidy other key_eq := by
    rw [posOf_grow]
    exact denotes.tidy key_eq

omit [LinearOrder κ] in
theorem lt_length_grow (h : Raw κ) (drv : ℕ) : drv < (h.grow drv).pos.length := by
  have length_eq : (h.grow drv).pos.length = h.pos.length + (drv + 1 - h.pos.length) := by
    simp [Raw.grow]
  omega

theorem Denotes.posOf_eq_none_iff (denotes : h.Denotes keys) (drv : DrvId) :
    h.posOf drv = none ↔ keys drv = none := by
  constructor
  · intro pos_eq
    by_contra key_ne
    obtain ⟨key, key_eq⟩ := ne_none_iff_exists'.mp key_ne
    obtain ⟨idx, idx_eq, -⟩ := denotes.found key_eq
    simp [pos_eq] at idx_eq
  · exact fun key_eq => denotes.tidy key_eq

/-- A new item appended to the heap is carried at the last position. -/
theorem Denotes.carries_append (denotes : h.Denotes keys) {drv : DrvId}
    (drv_lt : drv < h.pos.length) (fresh : keys drv = none) (key : κ) :
    (Raw.mk (h.heap ++ [Item.mk key drv]) (h.pos.set drv (some h.heap.length))).Carries
      h.heap.length (Item.mk key drv) (update keys drv (some key)) := by
  have posOf_next := posOf_set (h.heap ++ [Item.mk key drv]) drv_lt (some h.heap.length)
  constructor
  · simp
  · simpa using drv_lt
  · simp
  · intro idx other idx_ne other_eq
    have idx_lt : idx < h.heap.length := by
      have := lt_length other_eq
      simp at this
      omega
    rw [store, List.getElem?_append_left idx_lt] at other_eq
    obtain ⟨pos_eq, key_eq⟩ := denotes.seated other_eq
    have other_ne : other.id ≠ drv := by
      intro id_eq
      simp [id_eq, fresh] at key_eq
    refine ⟨other_ne, ?_, by rw [update_of_ne other_ne, key_eq]⟩
    rw [posOf_next, if_neg other_ne]
    exact pos_eq
  · intro other key' other_ne key_eq
    rw [Item.id_mk] at other_ne
    rw [update_of_ne other_ne] at key_eq
    obtain ⟨idx, pos_eq, at_idx⟩ := denotes.found key_eq
    have idx_lt := lt_length at_idx
    refine ⟨idx, idx_lt.ne, ?_, ?_⟩
    · rw [posOf_next, if_neg other_ne]
      exact pos_eq
    · rw [store, List.getElem?_append_left idx_lt]
      exact at_idx
  · intro other key_eq
    have other_ne : other ≠ drv := by
      rintro rfl
      simp at key_eq
    rw [update_of_ne other_ne] at key_eq
    rw [posOf_next, if_neg other_ne]
    exact denotes.tidy key_eq

/-- Giving the item at `hole` another key leaves a heap with a hole. -/
theorem Denotes.carries_rekey (denotes : h.Denotes keys) {old : Item κ}
    (old_eq : h.store hole = some old) (key : κ) :
    (Raw.mk (h.heap.set hole (Item.mk key old.id)) h.pos).Carries hole (Item.mk key old.id)
      (update keys old.id (some key)) := by
  have carries := denotes.carries old_eq
  have store_next := store_set carries.hole_lt (Item.mk key old.id) h.pos
  constructor
  · simpa using carries.hole_lt
  · exact carries.id_lt
  · simp
  · intro idx other idx_ne other_eq
    rw [store_next, update_of_ne idx_ne] at other_eq
    obtain ⟨other_ne, other_pos, other_key⟩ := carries.seated idx_ne other_eq
    exact ⟨other_ne, other_pos, by rw [update_of_ne other_ne, other_key]⟩
  · intro drv key' drv_ne key_eq
    rw [Item.id_mk] at drv_ne
    rw [update_of_ne drv_ne] at key_eq
    obtain ⟨idx, idx_ne, pos_eq, at_idx⟩ := carries.found drv_ne key_eq
    exact ⟨idx, idx_ne, pos_eq, by rw [store_next, update_of_ne idx_ne, at_idx]⟩
  · intro drv key_eq
    have drv_ne : drv ≠ old.id := by
      rintro rfl
      simp at key_eq
    rw [update_of_ne drv_ne] at key_eq
    exact denotes.tidy key_eq

/-- `set` maps `drv` to `key` and leaves every other id alone. -/
theorem Denotes.set_spec (denotes : h.Denotes keys) (drv : DrvId) (key : κ) :
    ∃ next, h.set drv key = some next ∧
      next.Denotes (update keys drv (some key)) := by
  have grown := denotes.grow drv
  cases pos_eq : (h.grow drv).posOf drv with
  | none =>
    have carries := grown.carries_append (h.lt_length_grow drv) ((grown.posOf_eq_none_iff drv).mp pos_eq) key
    have store_eq : (Raw.mk ((h.grow drv).heap ++ [Item.mk key drv])
        ((h.grow drv).pos.set drv (some (h.grow drv).heap.length))).store =
          update (h.grow drv).store (h.grow drv).heap.length
            (some (Item.mk key drv)) := by
      funext idx
      by_cases idx_last : idx = (h.grow drv).heap.length
      · subst idx_last
        simp [store]
      · rw [update_of_ne idx_last]
        by_cases idx_lt : idx < (h.grow drv).heap.length
        · exact List.getElem?_append_left idx_lt
        · rw [store, getElem?_eq_none (by simp; omega), store, getElem?_eq_none (by omega)]
    have up := (grown.ordered.upHole_last (Item.mk key drv)
      fun idx le => getElem?_eq_none le).update (some (Item.mk key drv))
    rw [← store_eq] at up
    obtain ⟨next, next_eq, next_denotes, -⟩ := siftUp_spec carries (by rw [store_eq, update_self]) up
    exact ⟨next, by simp only [set, pos_eq]; exact next_eq, next_denotes⟩
  | some idx =>
    obtain ⟨old_key, key_eq⟩ : ∃ old_key, keys drv = some old_key := by
      apply ne_none_iff_exists'.mp
      intro key_eq
      simp [grown.tidy key_eq] at pos_eq
    obtain ⟨idx', pos_eq', old_eq⟩ := grown.found key_eq
    obtain rfl : idx' = idx := Option.some.inj (pos_eq'.symm.trans pos_eq)
    have carries := grown.carries_rekey old_eq key
    have store_eq := store_set (grown.carries old_eq).hole_lt (Item.mk key drv) (h.grow drv).pos
    have item_eq : (Raw.mk ((h.grow drv).heap.set idx' (Item.mk key drv))
        (h.grow drv).pos).store idx' = some (Item.mk key drv) := by
      rw [store_eq, update_self]
    have read_old : (h.grow drv).heap[idx']? = some (Item.mk old_key drv) := old_eq
    simp only [set, pos_eq, read_old, bind_eq_bind, bind_some]
    by_cases smaller : key < (Item.mk old_key drv).key
    · have up := (grown.ordered.upHole old_eq
        (show Item.mk key drv ≤ Item.mk old_key drv from Item.le_of_key_lt smaller)).update (some (Item.mk key drv))
      rw [← store_eq] at up
      obtain ⟨next, next_eq, next_denotes, -⟩ := siftUp_spec carries item_eq up
      exact ⟨next, (if_pos smaller).trans next_eq, next_denotes⟩
    · have old_le : Item.mk old_key drv ≤ Item.mk key drv :=
        Prod.Lex.toLex_le_toLex.mpr (by
          obtain lt | eq := lt_or_eq_of_le (not_lt.mp smaller)
          · exact Or.inl lt
          · exact Or.inr ⟨eq, le_rfl⟩)
      have down := (grown.ordered.downHole old_eq old_le).update (some (Item.mk key drv))
      rw [← store_eq] at down
      obtain ⟨next, next_eq, next_denotes, -⟩ := siftDown_spec carries item_eq down
      exact ⟨next, (if_neg smaller).trans next_eq, next_denotes⟩

omit [LinearOrder κ] in
/-- Dropping the last item of a heap drops it from every position. -/
theorem store_dropLast (h : Raw κ) (pos : List (Option ℕ)) (idx : ℕ) :
    (Raw.mk h.heap.dropLast pos).store idx = if idx < h.heap.length - 1 then h.store idx else none := by
  simp [store, List.getElem?_dropLast]

/-- Removing the last item closes the heap at once. -/
theorem Denotes.drop_last (denotes : h.Denotes keys) {item : Item κ}
    (item_eq : h.store (h.heap.length - 1) = some item) :
    (Raw.mk h.heap.dropLast (h.pos.set item.id none)).Denotes
      (update keys item.id none) := by
  have carries := denotes.carries item_eq
  have posOf_next := posOf_set h.heap.dropLast carries.id_lt none
  constructor
  · refine denotes.ordered.mono fun idx low low_eq => ?_
    rw [store_dropLast] at low_eq
    split at low_eq
    · exact low_eq
    · cases low_eq
  · intro idx other other_eq
    rw [store_dropLast] at other_eq
    split at other_eq
    · rename_i idx_lt
      obtain ⟨other_ne, other_pos, other_key⟩ := carries.seated idx_lt.ne other_eq
      refine ⟨?_, by rw [update_of_ne other_ne, other_key]⟩
      rw [posOf_next, if_neg other_ne]
      exact other_pos
    · cases other_eq
  · intro drv key key_eq
    have drv_ne : drv ≠ item.id := by
      rintro rfl
      simp at key_eq
    rw [update_of_ne drv_ne] at key_eq
    obtain ⟨idx, idx_ne, pos_eq, at_idx⟩ := carries.found drv_ne key_eq
    have idx_lt := lt_length at_idx
    refine ⟨idx, ?_, ?_⟩
    · rw [posOf_next, if_neg drv_ne]
      exact pos_eq
    · rw [store_dropLast, if_pos (by omega), at_idx]
  · intro drv key_eq
    rw [posOf_next]
    by_cases drv_item : drv = item.id
    · rw [if_pos drv_item]
    · rw [update_of_ne drv_item] at key_eq
      rw [if_neg drv_item]
      exact denotes.tidy key_eq

/-- Removing an inner item leaves its place to the last one. -/
theorem Denotes.carries_last (denotes : h.Denotes keys) {gone last : Item κ}
    (gone_eq : h.store hole = some gone) (hole_lt : hole < h.heap.length - 1)
    (last_eq : h.store (h.heap.length - 1) = some last) :
    (Raw.mk h.heap.dropLast (h.pos.set gone.id none)).Carries hole last
      (update keys gone.id none) := by
  have from_hole := denotes.carries gone_eq
  have from_last := denotes.carries last_eq
  have posOf_next := posOf_set h.heap.dropLast from_hole.id_lt none
  have last_ne : last.id ≠ gone.id := (from_hole.seated hole_lt.ne' last_eq).1
  constructor
  · simpa using hole_lt
  · simpa using from_last.id_lt
  · rw [update_of_ne last_ne]
    exact from_last.item_key
  · intro idx other idx_ne other_eq
    rw [store_dropLast] at other_eq
    split at other_eq
    · rename_i idx_lt
      obtain ⟨other_ne, other_pos, other_key⟩ := from_hole.seated idx_ne other_eq
      refine ⟨(from_last.seated idx_lt.ne other_eq).1, ?_, by rw [update_of_ne other_ne, other_key]⟩
      rw [posOf_next, if_neg other_ne]
      exact other_pos
    · cases other_eq
  · intro drv key drv_ne key_eq
    have drv_gone : drv ≠ gone.id := by
      rintro rfl
      simp at key_eq
    rw [update_of_ne drv_gone] at key_eq
    obtain ⟨idx, idx_ne, pos_eq, at_idx⟩ := from_hole.found drv_gone key_eq
    have idx_lt := lt_length at_idx
    have idx_last : idx ≠ h.heap.length - 1 := by
      rintro rfl
      rw [last_eq] at at_idx
      exact drv_ne (by rw [Option.some.inj at_idx, Item.id_mk])
    refine ⟨idx, idx_ne, ?_, ?_⟩
    · rw [posOf_next, if_neg drv_gone]
      exact pos_eq
    · rw [store_dropLast, if_pos (by omega), at_idx]
  · intro drv key_eq
    rw [posOf_next]
    by_cases drv_gone : drv = gone.id
    · rw [if_pos drv_gone]
    · rw [update_of_ne drv_gone] at key_eq
      rw [if_neg drv_gone]
      exact denotes.tidy key_eq

/-- An item written over an inner one finds its place by `siftUp` and then `siftDown`. -/
theorem Carries.sift_both (carries : h.Carries hole item keys)
    (item_eq : h.store hole = some item) (pos_eq : h.posOf item.id = some hole)
    (off : OrderedOff arity h.store hole) (bridged : Bridged arity h.store hole) :
    ∃ mid idx next, h.siftUp hole = some mid ∧ mid.posOf item.id = some idx ∧
      mid.siftDown idx = some next ∧ next.Denotes keys ∧
      next.heap.length = h.heap.length := by
  obtain ⟨above, above_eq⟩ := carries.parent_some
  by_cases moves : 0 < hole ∧ item < above
  · -- the item moves up, so the children it leaves behind are larger, and the way down is idle
    have up : UpHole arity h.store hole item :=
      ⟨off, bridged, fun child low child_pos child_below low_eq =>
        moves.2.le.trans (bridged child_pos child_below moves.1 low_eq above_eq)⟩
    obtain ⟨mid, mid_eq, mid_denotes, mid_length⟩ := siftUp_spec carries item_eq up
    obtain ⟨idx, idx_eq, at_idx⟩ := mid_denotes.found carries.item_key
    rw [Item.mk_key_id] at at_idx
    obtain ⟨next, next_eq, next_denotes, next_length⟩ :=
      siftDown_spec (mid_denotes.carries at_idx) at_idx (mid_denotes.ordered.downHole at_idx le_rfl)
    exact ⟨mid, idx, next, mid_eq, idx_eq, next_eq, next_denotes, next_length.trans mid_length⟩
  · -- the item stays, and only the way down is left
    have down : DownHole arity h.store hole item :=
      ⟨off, bridged, fun high hole_pos high_eq => by
        rw [above_eq] at high_eq
        cases high_eq
        exact not_lt.mp fun lt => moves ⟨hole_pos, lt⟩⟩
    obtain ⟨mid, mid_eq, mid_carries, mid_length, mid_pos, mid_store⟩ := carries.place_item
    have stays : h.siftUp hole = some mid := by
      simp only [siftUp, item_eq, bind_eq_bind, bind_some]
      cases hole with
      | zero => exact mid_eq
      | succ hole =>
        have fits : above ≤ item := not_lt.mp fun lt => moves ⟨hole.succ_pos, lt⟩
        simp only [siftUpFrom, Nat.add_one_ne_zero, if_false, above_eq, bind_eq_bind,
          bind_some, fits, if_true]
        exact mid_eq
    have mid_down := down.update (some item)
    rw [← mid_store] at mid_down
    obtain ⟨next, next_eq, next_denotes, next_length⟩ :=
      siftDown_spec mid_carries (by rw [mid_store, update_self]) mid_down
    exact ⟨mid, hole, next, stays, mid_pos, next_eq, next_denotes, next_length.trans mid_length⟩

/-- `erase` removes `drv` and leaves every other id alone. -/
theorem Denotes.erase_spec (denotes : h.Denotes keys) (drv : DrvId) :
    ∃ next, h.erase drv = some next ∧ next.Denotes (update keys drv none) ∧
      ((keys drv).isSome → next.heap.length + 1 = h.heap.length) := by
  cases pos_eq : h.posOf drv with
  | none =>
    have key_eq := (denotes.posOf_eq_none_iff drv).mp pos_eq
    refine ⟨h, by simp [erase, pos_eq], ?_, by simp [key_eq]⟩
    rwa [← key_eq, Function.update_eq_self]
  | some idx =>
    obtain ⟨key, key_eq⟩ : ∃ key, keys drv = some key := by
      apply ne_none_iff_exists'.mp
      intro key_eq
      simp [denotes.tidy key_eq] at pos_eq
    obtain ⟨idx', pos_eq', gone_eq⟩ := denotes.found key_eq
    obtain rfl : idx' = idx := Option.some.inj (pos_eq'.symm.trans pos_eq)
    have idx_lt := (denotes.carries gone_eq).hole_lt
    obtain ⟨last, last_eq⟩ : ∃ last, h.store (h.heap.length - 1) = some last :=
      ⟨_, getElem?_eq_getElem (by omega)⟩
    have read_last : h.heap.getLast? = some last := by
      rw [List.getLast?_eq_getElem?]
      exact last_eq
    simp only [erase, pos_eq, read_last, bind_eq_bind, bind_some, List.length_dropLast]
    by_cases inner : h.heap.length - 1 ≤ idx'
    · obtain rfl : idx' = h.heap.length - 1 := by omega
      refine ⟨_, if_pos inner, denotes.drop_last gone_eq, fun _ => ?_⟩
      simp
      omega
    · have carries := denotes.carries_last gone_eq (by omega) last_eq
      obtain ⟨filled, filled_eq, filled_carries, filled_length, filled_pos, filled_store⟩ := carries.place_item
      have part : Ordered arity (Raw.mk h.heap.dropLast (h.pos.set drv none)).store :=
        denotes.ordered.mono fun position low low_eq => by
          rw [store_dropLast] at low_eq
          split at low_eq
          · exact low_eq
          · cases low_eq
      have hole_some : ((Raw.mk h.heap.dropLast (h.pos.set drv none)).store idx').isSome := by
        rw [store_dropLast, if_pos (by omega), gone_eq]
        rfl
      obtain ⟨mid, position, next, mid_eq, position_eq, next_eq, next_denotes, next_length⟩ :=
        filled_carries.sift_both (by rw [filled_store, update_self]) filled_pos
          (filled_store ▸ part.off.update (some last))
          (filled_store ▸ (part.bridged hole_some).update (some last))
      refine ⟨next, ?_, next_denotes, fun _ => ?_⟩
      · rw [if_neg inner]
        rw [Item.id_mk] at filled_eq
        simp only [filled_eq, mid_eq, position_eq, bind_some]
        exact next_eq
      · rw [next_length, filled_length]
        simp
        omega

end Raw

end IndexedHeap

/-- A heap whose two vectors agree. -/
structure IndexedHeap (κ : Type) [LinearOrder κ] extends IndexedHeap.Raw κ where
  denotes : toRaw.Denotes toRaw.keyOf

namespace IndexedHeap

variable {κ : Type} [LinearOrder κ]

/-- The id that `set` refuses: it stands for "no position". -/
def npos : ℕ := 2 ^ 32 - 1

/-- The key of a queued derivation. -/
def key (h : IndexedHeap κ) (drv : DrvId) : Option κ := h.keyOf drv

/-- A raw heap that describes some map is a heap. -/
def ofDenotes (h : Raw κ) (keys : DrvId → Option κ) (denotes : h.Denotes keys) : IndexedHeap κ where
  toRaw := h
  denotes := by rwa [denotes.keyOf_eq]

variable {keys : DrvId → Option κ}

theorem key_ofDenotes {h : Raw κ} (denotes : h.Denotes keys) :
    (ofDenotes h keys denotes).key = keys :=
  denotes.keyOf_eq

/-- The empty heap. -/
def empty : IndexedHeap κ :=
  ofDenotes { heap := [], pos := [] } (fun _ => none)
    { ordered := fun _ _ _ _ low_eq => by simp [Raw.store] at low_eq
      seated := fun _ _ item_eq => by simp [Raw.store] at item_eq
      found := fun _ _ key_eq => by cases key_eq
      tidy := fun _ _ => by simp [Raw.posOf] }

@[simp] theorem key_empty (drv : DrvId) : (empty : IndexedHeap κ).key drv = none :=
  congrFun (key_ofDenotes _) drv

/-- Number of queued derivations. -/
def size (h : IndexedHeap κ) : ℕ := h.heap.length

/-- The most urgent derivation. -/
def top (h : IndexedHeap κ) : Option DrvId := h.heap.head?.map Item.id

/-- The key of the most urgent derivation. -/
def topKey (h : IndexedHeap κ) : Option κ := h.heap.head?.map Item.key

/-- Queue `drv` under `key`. -/
def set (h : IndexedHeap κ) (drv : DrvId) (key : κ) : Except Error (IndexedHeap κ) :=
  if drv = npos then
    .error .heapIdOutOfRange
  else
    match eq : h.toRaw.set drv key with
    | none => .error .outOfRange
    | some next => .ok (ofDenotes next (update h.key drv (some key)) (by
        obtain ⟨next', next_eq, next_denotes⟩ := h.denotes.set_spec drv key
        obtain rfl : next' = next := Option.some.inj (next_eq.symm.trans eq)
        exact next_denotes))

/-- Take `drv` out of the queue. -/
def erase (h : IndexedHeap κ) (drv : DrvId) : Except Error (IndexedHeap κ) :=
  match eq : h.toRaw.erase drv with
  | none => .error .outOfRange
  | some next => .ok (ofDenotes next (update h.key drv none) (by
      obtain ⟨next', next_eq, next_denotes, -⟩ := h.denotes.erase_spec drv
      obtain rfl : next' = next := Option.some.inj (next_eq.symm.trans eq)
      exact next_denotes))

theorem set_ok (h : IndexedHeap κ) {drv : DrvId} (drv_ne : drv ≠ npos) (key : κ) :
    ∃ next, h.set drv key = .ok next ∧ next.key = update h.key drv (some key) := by
  obtain ⟨raw, raw_eq, raw_denotes⟩ := h.denotes.set_spec drv key
  unfold set
  rw [if_neg drv_ne]
  split
  · rename_i eq
    simp [raw_eq] at eq
  · exact ⟨_, rfl, key_ofDenotes _⟩

theorem erase_ok (h : IndexedHeap κ) (drv : DrvId) :
    ∃ next, h.erase drv = .ok next ∧ next.key = update h.key drv none ∧
      ((h.key drv).isSome → next.size + 1 = h.size) := by
  obtain ⟨raw, raw_eq, -, raw_size⟩ := h.denotes.erase_spec drv
  unfold erase
  split
  · rename_i eq
    simp [raw_eq] at eq
  · rename_i next eq
    cases raw_eq.symm.trans eq
    exact ⟨_, rfl, key_ofDenotes _, raw_size⟩

/-- The head of the queue is least by key and then by id. -/
theorem top_least {h : IndexedHeap κ} {drv other : DrvId} {otherKey : κ}
    (top_eq : h.top = some drv) (other_eq : h.key other = some otherKey) :
    ∃ key, h.key drv = some key ∧ h.topKey = some key ∧ Item.mk key drv ≤ Item.mk otherKey other := by
  obtain ⟨root, root_eq, rfl⟩ := Option.map_eq_some_iff.mp top_eq
  have at_root : h.store 0 = some root := by
    rw [Raw.store, ← List.head?_eq_getElem?, root_eq]
  obtain ⟨idx, -, at_idx⟩ := h.denotes.found other_eq
  refine ⟨root.key, (h.denotes.seated at_root).2, by simp [topKey, root_eq], ?_⟩
  exact h.denotes.ordered.root_le h.filled at_root at_idx

theorem top_eq_none_iff (h : IndexedHeap κ) : h.top = none ↔ ∀ drv, h.key drv = none := by
  constructor
  · intro top_eq drv
    by_contra key_ne
    obtain ⟨key, key_eq⟩ := ne_none_iff_exists'.mp key_ne
    obtain ⟨idx, -, at_idx⟩ := h.denotes.found key_eq
    have empty : h.heap = [] := by simpa [top] using top_eq
    simp [Raw.store, empty] at at_idx
  · intro keys_none
    cases heap_eq : h.heap with
    | nil => simp [top, heap_eq]
    | cons root rest =>
      have at_root : h.store 0 = some root := by simp [Raw.store, heap_eq]
      have root_key := (h.denotes.seated at_root).2
      simp [show h.keyOf root.id = none from keys_none root.id] at root_key

theorem topKey_isSome (h : IndexedHeap κ) : h.topKey.isSome = h.top.isSome := by
  simp [topKey, top]

theorem size_eq_zero_iff (h : IndexedHeap κ) : h.size = 0 ↔ ∀ drv, h.key drv = none := by
  rw [← top_eq_none_iff]
  simp [size, top]

/-- A derivation of the queue, and a smallest key, whenever the queue has a head. -/
theorem topKey_spec {h : IndexedHeap κ} {key : κ} (key_eq : h.topKey = some key) :
    ∃ drv, h.top = some drv ∧ h.key drv = some key ∧
      ∀ other otherKey, h.key other = some otherKey → key ≤ otherKey := by
  obtain ⟨root, root_eq, rfl⟩ := Option.map_eq_some_iff.mp key_eq
  have at_root : h.store 0 = some root := by
    rw [Raw.store, ← List.head?_eq_getElem?, root_eq]
  refine ⟨root.id, by simp [top, root_eq], (h.denotes.seated at_root).2, ?_⟩
  intro other otherKey other_eq
  obtain ⟨idx, -, at_idx⟩ := h.denotes.found other_eq
  exact Item.key_le_of_le (h.denotes.ordered.root_le h.filled at_root at_idx)

/-- Each derivation is in the queue once. -/
theorem size_eq_card (h : IndexedHeap κ) {bound : ℕ} (ids_lt : ∀ drv, (h.key drv).isSome → drv < bound) :
    h.size = ((Finset.range bound).filter fun drv => (h.key drv).isSome = true).card := by
  have nodup : (h.heap.map Item.id).Nodup := by
    rw [List.nodup_iff_getElem?_ne_getElem?]
    intro idx other lt other_lt same
    rw [List.length_map] at other_lt
    have at_other : h.store other = some h.heap[other] := getElem?_eq_getElem other_lt
    have at_idx : h.store idx = some h.heap[idx] := getElem?_eq_getElem (lt.trans other_lt)
    have same_id : h.heap[idx].id = h.heap[other].id := by
      simpa [getElem?_eq_getElem other_lt, getElem?_eq_getElem (lt.trans other_lt)] using same
    have first := (h.denotes.seated at_idx).1
    rw [same_id, (h.denotes.seated at_other).1] at first
    exact lt.ne' (Option.some.inj first)
  have ids_eq : (h.heap.map Item.id).toFinset = (Finset.range bound).filter fun drv => (h.key drv).isSome = true := by
    ext drv
    simp only [List.mem_toFinset, List.mem_map, Finset.mem_filter, Finset.mem_range]
    constructor
    · rintro ⟨item, mem, rfl⟩
      obtain ⟨idx, at_idx⟩ := List.getElem?_of_mem mem
      have key_eq : h.key item.id = some item.key := (h.denotes.seated at_idx).2
      have queued : (h.key item.id).isSome := by simp [key_eq]
      exact ⟨ids_lt item.id queued, queued⟩
    · rintro ⟨-, queued⟩
      obtain ⟨key, key_eq⟩ := Option.isSome_iff_exists.mp queued
      obtain ⟨idx, -, at_idx⟩ := h.denotes.found key_eq
      exact ⟨Item.mk key drv, List.mem_of_getElem? at_idx, rfl⟩
  rw [← ids_eq, List.toFinset_card_of_nodup nodup, List.length_map]
  rfl

/-! ## Histories -/

/-- What is done to a heap. -/
inductive Op (κ : Type)
  | set (drv : DrvId) (key : κ)
  | erase (drv : DrvId)

/-- The id that an operation names. -/
def Op.drv : Op κ → DrvId
  | .set drv _ => drv
  | .erase drv => drv

/-- The heap after an operation. -/
def Op.perform (h : IndexedHeap κ) : Op κ → Except Error (IndexedHeap κ)
  | .set drv key => h.set drv key
  | .erase drv => h.erase drv

/-- The map after an operation: the last `set` wins, and `erase` removes. -/
def Op.denote (keys : DrvId → Option κ) : Op κ → DrvId → Option κ
  | .set drv key => update keys drv (some key)
  | .erase drv => update keys drv none

/-- All operations one after the other on an empty heap. -/
def run (ops : List (Op κ)) : Except Error (IndexedHeap κ) := ops.foldlM Op.perform empty

/-- The map that some operations denote. -/
def denoted (ops : List (Op κ)) : DrvId → Option κ := ops.foldl Op.denote fun _ => none

omit [LinearOrder κ] in
theorem Op.denote_of_ne {op : Op κ} {other : DrvId} (ne : other ≠ op.drv) :
    op.denote keys other = keys other := by
  cases op with
  | set => exact update_of_ne ne ..
  | erase => exact update_of_ne ne ..

theorem perform_ok (h : IndexedHeap κ) {op : Op κ} (id_lt : op.drv < npos) :
    ∃ next, op.perform h = .ok next ∧ next.key = op.denote h.key := by
  cases op with
  | set drv key => exact h.set_ok id_lt.ne key
  | erase drv =>
    obtain ⟨next, erased, key_eq, -⟩ := h.erase_ok drv
    exact ⟨next, erased, key_eq⟩

theorem foldlM_perform_ok (h : IndexedHeap κ) {ops : List (Op κ)} (ids_lt : ∀ op ∈ ops, op.drv < npos) :
    ∃ next, ops.foldlM Op.perform h = .ok next ∧ next.key = ops.foldl Op.denote h.key := by
  induction ops generalizing h with
  | nil => exact ⟨h, rfl, rfl⟩
  | cons op ops ih =>
    obtain ⟨mid, performed, mid_eq⟩ := h.perform_ok (ids_lt op mem_cons_self)
    obtain ⟨next, rest, next_eq⟩ := ih mid fun other mem => ids_lt other (mem_cons_of_mem _ mem)
    refine ⟨next, ?_, by rw [next_eq, mid_eq, List.foldl_cons]⟩
    rw [List.foldlM_cons, performed]
    exact rest

omit [LinearOrder κ] in
theorem denoted_lt {ops : List (Op κ)} (ids_lt : ∀ op ∈ ops, op.drv < npos)
    (keys_lt : ∀ drv, (keys drv).isSome → drv < npos) {drv : DrvId}
    (held : (ops.foldl Op.denote keys drv).isSome) : drv < npos := by
  induction ops generalizing keys with
  | nil => exact keys_lt drv held
  | cons op ops ih =>
    refine ih (fun other mem => ids_lt other (mem_cons_of_mem _ mem)) (fun other other_held => ?_) held
    by_cases own : other = op.drv
    · rw [own]
      exact ids_lt op mem_cons_self
    · rw [Op.denote_of_ne own] at other_held
      exact keys_lt other other_held

/-- Heap and positions are inverse to each other. -/
theorem posOf_eq_some_iff (h : IndexedHeap κ) (idx : ℕ) (drv : DrvId) :
    h.posOf drv = some idx ↔ ∃ key, h.heap[idx]? = some (Item.mk key drv) := by
  constructor
  · intro pos_eq
    cases key_eq : h.keyOf drv with
    | none => simp [h.denotes.tidy key_eq] at pos_eq
    | some key =>
      obtain ⟨place, place_eq, at_place⟩ := h.denotes.found key_eq
      cases place_eq.symm.trans pos_eq
      exact ⟨key, at_place⟩
  · rintro ⟨key, at_idx⟩
    exact (h.denotes.seated at_idx).1

/-- Whatever is set and erased, the heap is the map that this denotes: its size, its members and its least
pair, with heap and positions inverse to each other and no access out of range. -/
theorem heap_is_priority_map (ops : List (Op κ)) (ids_lt : ∀ op ∈ ops, op.drv < npos) :
    ∃ h, run ops = .ok h ∧
      h.size = ((Finset.range npos).filter fun drv => (denoted ops drv).isSome = true).card ∧
      (∀ drv, h.contains drv = (denoted ops drv).isSome) ∧
      (h.top = none ∧ h.topKey = none ∧ (∀ drv, denoted ops drv = none) ∨
        ∃ drv key, h.top = some drv ∧ h.topKey = some key ∧ denoted ops drv = some key ∧
          ∀ other otherKey, denoted ops other = some otherKey → key < otherKey ∨ key = otherKey ∧ drv ≤ other) ∧
      ∀ idx drv, h.posOf drv = some idx ↔ ∃ key, h.heap[idx]? = some (Item.mk key drv) := by
  obtain ⟨h, ran, keys_eq⟩ := (empty : IndexedHeap κ).foldlM_perform_ok ids_lt
  rw [show (empty : IndexedHeap κ).key = fun _ => none from funext key_empty] at keys_eq
  refine ⟨h, ran, ?_, fun drv => ?_, ?_, h.posOf_eq_some_iff⟩
  · rw [h.size_eq_card fun drv held => denoted_lt ids_lt (fun _ => by simp) (keys_eq ▸ held), keys_eq]
    rfl
  · rw [denoted, ← keys_eq]
    cases key_eq : h.key drv with
    | none => simp [Raw.contains, h.denotes.tidy key_eq]
    | some key =>
      obtain ⟨idx, pos_eq, -⟩ := h.denotes.found key_eq
      simp [Raw.contains, pos_eq]
  · rw [denoted, ← keys_eq]
    cases top_eq : h.top with
    | none =>
      have no_key := h.topKey_isSome
      rw [top_eq, Option.isSome_none, Option.isSome_eq_false_iff, Option.isNone_iff_eq_none] at no_key
      exact .inl ⟨rfl, no_key, h.top_eq_none_iff.mp top_eq⟩
    | some drv =>
      obtain ⟨key, topKey_eq⟩ := Option.isSome_iff_exists.mp (h.topKey_isSome.trans (top_eq ▸ rfl))
      obtain ⟨head, head_eq, key_eq, -⟩ := topKey_spec topKey_eq
      obtain rfl := Option.some.inj (head_eq.symm.trans top_eq)
      refine .inr ⟨head, key, rfl, topKey_eq, key_eq, fun other otherKey other_eq => ?_⟩
      obtain ⟨least, least_eq, -, le⟩ := top_least head_eq other_eq
      cases least_eq.symm.trans key_eq
      exact Prod.Lex.le_iff.mp le

/-- One id is given another key, and another is taken out. -/
theorem heap_is_priority_map_rekeyed :
    ∃ h, run [.set 3 (10 : ℕ), .set 1 7, .set 3 2, .erase 1] = .ok h ∧ h.contains 3 = true ∧ h.contains 1 = false := by
  obtain ⟨h, ran, -, contains_eq, -⟩ := heap_is_priority_map [.set 3 (10 : ℕ), .set 1 7, .set 3 2, .erase 1] (by decide)
  exact ⟨h, ran, contains_eq 3, contains_eq 1⟩

end IndexedHeap

end NixGrpcStore.Sched
