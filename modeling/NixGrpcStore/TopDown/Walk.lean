import Mathlib.Data.Finset.Sort
import Mathlib.Logic.Relation
import Mathlib.Tactic

/-!
# Walking a graph from the top down

`nextBatch`, `TopDownWalk` and `missingTopDown` of `src/top-down.hh`: which nodes of a graph a store
lacks, found level by level with few calls.  Nodes are ordered, as `std::set` needs them to be.  The
outer loop ends on finite graphs only and gets fuel; the loop that widens a batch ends by its budget.
-/

namespace NixGrpcStore.TopDown

open Finset (mem_union mem_union_left mem_union_right)
open List (append_assoc flatten_cons mem_append mem_cons mem_cons_of_mem mem_cons_self mem_toFinset nodup_append)
variable {Node Key : Type} [LinearOrder Node] [DecidableEq Key]

/-! ## The next batch -/

/-- The nodes of a list that a set does not have yet, in order, and the set with them. -/
def fresh (known : Finset Node) : List Node → List Node × Finset Node
  | [] => ([], known)
  | node :: nodes =>
    if node ∈ known then fresh known nodes
    else
      let (rest, known) := fresh (insert node known) nodes
      (node :: rest, known)

/-- The unqueried nodes below a level. -/
def belowLevel (children : Node → List Node) (queried : Finset Node) (current : List Node) : Finset Node :=
  (current.flatMap children).toFinset.filter (· ∉ queried)

/-- Add the levels below while they fit in the budget. -/
def widen (children : Node → List Node) (budget : ℕ) (batch : List Node) (queried : Finset Node)
    (current : List Node) : List Node × Finset Node :=
  if short : batch.length < budget then
    let below := belowLevel children queried current
    if stop : below = ∅ ∨ budget < batch.length + below.card then (batch, queried)
    else widen children budget (batch ++ below.sort) (queried ∪ below) below.sort
  else (batch, queried)
termination_by budget - batch.length
decreasing_by
  have longer : 0 < (belowLevel children queried current).card :=
    Finset.card_pos.mpr (Finset.nonempty_iff_ne_empty.mpr fun none => stop (.inl none))
  simp only [List.length_append, Finset.length_sort]
  omega

/-- The unqueried nodes of `level`, plus as many levels below as fit in the budget. -/
def nextBatch (level : List Node) (children : Node → List Node) (queried : Finset Node) (budget : ℕ) :
    List Node × Finset Node :=
  let (batch, queried) := fresh queried level
  widen children budget batch queried level

/-! ## The walk -/

/-- The members of a walk; `batches` records the batches it queried. -/
structure Walk (Node Key : Type) where
  valid : Finset Key := ∅
  queried : Finset Node := ∅
  seen : Finset Node := ∅
  missing : Finset Node := ∅
  batches : List (List Node) := []

section Walk

variable (keys : Node → List Key) (children : Node → List Node) (query : Finset Key → Finset Key)

def queryBatch (walk : Walk Node Key) (batch : List Node) : Walk Node Key :=
  let wanted := (batch.flatMap keys).toFinset
  { walk with
    valid := if wanted = ∅ then walk.valid else walk.valid ∪ query wanted
    batches := walk.batches ++ [batch] }

def isHeld (walk : Walk Node Key) (node : Node) : Bool :=
  !(keys node).isEmpty && (keys node).all (· ∈ walk.valid)

/-- Look at one node of the level; if the store lacks it, its children are looked at next. -/
def visit (stage : Walk Node Key × List Node) (node : Node) : Walk Node Key × List Node :=
  let (walk, next) := stage
  if isHeld keys walk node then (walk, next)
  else ({ walk with missing := insert node walk.missing }, next ++ children node)

/-- One round of the loop, for a level of nodes that were not seen before. -/
def round (budget : ℕ) (walk : Walk Node Key) (level : List Node) : Walk Node Key × List Node :=
  let (batch, queried) := nextBatch level children walk.queried budget
  level.foldl (visit keys children) (queryBatch keys query { walk with queried := queried } batch, [])

/-- The loop of `run`; `none` if the fuel is used up. -/
def run (budget : ℕ) : ℕ → Walk Node Key → List Node → Option (Walk Node Key)
  | 0, _, _ => none
  | fuel + 1, walk, level =>
    let (level, seen) := fresh walk.seen level
    let walk := { walk with seen := seen }
    if level = [] then some walk
    else
      let (walk, next) := round keys children query budget walk level
      run budget fuel walk next

/-- The nodes that the store lacks, and the batches that were queried. -/
def missingTopDown (roots : List Node) (budget fuel : ℕ) : Option (Finset Node × List (List Node)) :=
  (run keys children query budget fuel {} roots).map fun walk => (walk.missing, walk.batches)

end Walk

/-! ## What a batch is -/

section Batch

variable {children : Node → List Node}

/-- The fresh nodes are distinct, were not known, and are known now with all of the list. -/
theorem fresh_spec (known : Finset Node) (nodes : List Node) :
    (fresh known nodes).1.Nodup ∧ (∀ node ∈ (fresh known nodes).1, node ∉ known ∧ node ∈ nodes) ∧
      (fresh known nodes).2 = known ∪ (fresh known nodes).1.toFinset ∧
      (fresh known nodes).2 = known ∪ nodes.toFinset := by
  induction nodes generalizing known with
  | nil => simp [fresh]
  | cons node nodes ih =>
    by_cases inside : node ∈ known
    · obtain ⟨distinct, unknown, fresh_eq, all_eq⟩ := ih known
      simp only [fresh, inside, if_true]
      refine ⟨distinct, fun other mem => ⟨(unknown other mem).1, mem_cons_of_mem _ (unknown other mem).2⟩,
        fresh_eq, ?_⟩
      rw [all_eq]
      ext other
      simp only [mem_union, mem_toFinset, mem_cons]
      constructor
      · exact Or.imp_right .inr
      · rintro (old | rfl | mem)
        · exact .inl old
        · exact .inl inside
        · exact .inr mem
    · obtain ⟨distinct, unknown, fresh_eq, all_eq⟩ := ih (insert node known)
      simp only [fresh, inside, if_false]
      refine ⟨List.nodup_cons.mpr ⟨fun mem => (unknown node mem).1 (Finset.mem_insert_self _ _), distinct⟩,
        ?_, ?_, ?_⟩
      · intro other mem
        rcases mem_cons.mp mem with rfl | mem
        · exact ⟨inside, mem_cons_self⟩
        · exact ⟨fun old => (unknown other mem).1 (Finset.mem_insert_of_mem old),
            mem_cons_of_mem _ (unknown other mem).2⟩
      · rw [fresh_eq, List.toFinset_cons, Finset.insert_union, Finset.union_insert]
      · rw [all_eq, List.toFinset_cons, Finset.insert_union, Finset.union_insert]

/-- Each level is all that was not queried below the one before it. -/
def WholeLevels (children : Node → List Node) : Finset Node → List Node → List (List Node) → Prop
  | _, _, [] => True
  | queried, current, next :: levels =>
    next.Nodup ∧ next.toFinset = belowLevel children queried current ∧
      WholeLevels children (queried ∪ next.toFinset) next levels

/-- Widening appends whole levels, as long as the next one fits. -/
theorem widen_levels (budget : ℕ) (batch : List Node) (queried : Finset Node) (current : List Node) :
    ∃ levels, widen children budget batch queried current =
        (batch ++ levels.flatten, queried ∪ levels.flatten.toFinset) ∧ WholeLevels children queried current levels ∧
      (batch ++ levels.flatten).length ≤ max budget batch.length ∧
      (belowLevel children (queried ∪ levels.flatten.toFinset) (levels.getLastD current) ≠ ∅ →
        budget < (batch ++ levels.flatten).length +
          (belowLevel children (queried ∪ levels.flatten.toFinset) (levels.getLastD current)).card) := by
  induction batch, queried, current using widen.induct children budget with
  | case1 batch queried current short below stop =>
    refine ⟨[], ?_, trivial, by simp, fun more => ?_⟩
    · rw [widen, dif_pos short, dif_pos stop]
      simp
    · simp only [List.flatten_nil, List.toFinset_nil, Finset.union_empty, List.append_nil, List.getLastD_nil] at more ⊢
      exact stop.resolve_left more
  | case2 batch queried current short below go ih =>
    obtain ⟨levels, widened, whole, length_le, cut⟩ := ih
    have below_eq : below.sort.toFinset = below := by simp
    rw [not_or, not_lt] at go
    have fits : (batch ++ below.sort).length ≤ budget := by simpa using go.2
    have union_eq : queried ∪ (below.sort ++ levels.flatten).toFinset = queried ∪ below ∪ levels.flatten.toFinset := by
      rw [List.toFinset_append, below_eq, Finset.union_assoc]
    have last_eq : (below.sort :: levels).getLastD current = levels.getLastD below.sort := by
      rw [List.getLastD_cons]
    refine ⟨below.sort :: levels, ?_, ⟨Finset.sort_nodup _ _, below_eq, by rwa [below_eq]⟩, ?_, ?_⟩
    · rw [widen, dif_pos short, dif_neg (by rw [not_or, not_lt]; exact go), widened, flatten_cons, union_eq,
        append_assoc]
    · rw [flatten_cons, ← append_assoc]
      exact length_le.trans (max_le (le_max_left _ _) (fits.trans (le_max_left _ _)))
    · rw [flatten_cons, union_eq, last_eq, ← append_assoc]
      exact cut
  | case3 batch queried current long =>
    refine ⟨[], ?_, trivial, by simp, fun more => ?_⟩
    · rw [widen, dif_neg long]
      simp
    · have some_more := Finset.card_pos.mpr (Finset.nonempty_iff_ne_empty.mpr more)
      rw [List.flatten_nil, List.append_nil]
      exact (not_lt.mp long).trans_lt (Nat.lt_add_of_pos_right some_more)

/-- Whole levels have distinct nodes that were not queried. -/
theorem WholeLevels.distinct {queried : Finset Node} {current : List Node} {levels : List (List Node)}
    (whole : WholeLevels children queried current levels) :
    levels.flatten.Nodup ∧ ∀ node ∈ levels.flatten, node ∉ queried := by
  induction levels generalizing queried current with
  | nil => exact ⟨List.nodup_nil, nofun⟩
  | cons next levels ih =>
    obtain ⟨distinct, next_eq, rest⟩ := whole
    obtain ⟨rest_distinct, unqueried⟩ := ih rest
    rw [flatten_cons]
    refine ⟨nodup_append.mpr ⟨distinct, rest_distinct, ?_⟩, fun node mem => ?_⟩
    · rintro node in_next other in_rest rfl
      exact unqueried node in_rest (mem_union_right _ (mem_toFinset.mpr in_next))
    · rcases mem_append.mp mem with in_next | in_rest
      · rw [← mem_toFinset, next_eq] at in_next
        exact (Finset.mem_filter.mp in_next).2
      · exact fun old => unqueried node in_rest (mem_union_left _ old)

/-- A batch has distinct nodes that were not queried; with it, all of the level is. -/
theorem nextBatch_spec (level : List Node) (queried : Finset Node) (budget : ℕ) :
    (nextBatch level children queried budget).1.Nodup ∧
      (∀ node ∈ (nextBatch level children queried budget).1, node ∉ queried) ∧
      (nextBatch level children queried budget).2 =
        queried ∪ (nextBatch level children queried budget).1.toFinset ∧
      ∀ node ∈ level, node ∈ (nextBatch level children queried budget).2 := by
  obtain ⟨distinct, unknown, fresh_eq, all_eq⟩ := fresh_spec queried level
  obtain ⟨levels, widened, whole, -⟩ :=
    @widen_levels _ _ children budget (fresh queried level).1 (fresh queried level).2 level
  obtain ⟨levels_distinct, unqueried⟩ := whole.distinct
  have batch_eq : nextBatch level children queried budget =
      ((fresh queried level).1 ++ levels.flatten, (fresh queried level).2 ∪ levels.flatten.toFinset) := widened
  rw [batch_eq]
  refine ⟨?_, ?_, ?_, ?_⟩
  · refine nodup_append.mpr ⟨distinct, levels_distinct, ?_⟩
    rintro node first other second rfl
    refine unqueried node second ?_
    rw [fresh_eq]
    exact mem_union_right _ (mem_toFinset.mpr first)
  · intro node mem
    rcases mem_append.mp mem with first | second
    · exact (unknown node first).1
    · intro old
      refine unqueried node second ?_
      rw [fresh_eq]
      exact mem_union_left _ old
  · rw [fresh_eq, List.toFinset_append, Finset.union_assoc]
  · intro node mem
    rw [all_eq]
    exact mem_union_left _ (mem_union_right _ (mem_toFinset.mpr mem))

/-- Every node of whole levels is reached from the first through nodes of the levels. -/
theorem WholeLevels.reached {queried : Finset Node} {current : List Node}
    {levels : List (List Node)} (whole : WholeLevels children queried current levels)
    {batch : List Node} (inside : levels.flatten ⊆ batch) {node : Node}
    (mem : node ∈ levels.flatten) :
    ∃ start ∈ current,
      Relation.ReflTransGen (fun upper lower => lower ∈ children upper ∧ lower ∈ batch) start node := by
  induction levels generalizing queried current with
  | nil => cases mem
  | cons next levels ih =>
    obtain ⟨-, next_eq, rest⟩ := whole
    rw [flatten_cons, List.append_subset] at inside
    have above : ∀ lower ∈ next, ∃ start ∈ current, lower ∈ children start ∧ lower ∈ batch := by
      intro lower in_next
      have in_below := mem_toFinset.mpr in_next
      rw [next_eq, belowLevel, Finset.mem_filter, mem_toFinset, List.mem_flatMap] at in_below
      obtain ⟨⟨start, start_mem, child⟩, -⟩ := in_below
      exact ⟨start, start_mem, child, inside.1 in_next⟩
    rcases mem_append.mp mem with in_next | in_rest
    · obtain ⟨start, start_mem, step⟩ := above node in_next
      exact ⟨start, start_mem, .single step⟩
    · obtain ⟨middle, middle_mem, path⟩ := ih rest inside.2 in_rest
      obtain ⟨start, start_mem, step⟩ := above middle middle_mem
      exact ⟨start, start_mem, .head step path⟩

/-- A batch has distinct nodes, none of them queried before, and the queried nodes grow by just these.  It
has all of the level that was not queried, and then whole levels below it, each node of them reached through
the batch.  It stays within the budget, unless the level alone goes beyond it, and ends only where nothing
follows or what follows would go beyond it. -/
theorem nextBatch_bounded (children : Node → List Node) (level : List Node) (queried : Finset Node) (budget : ℕ) :
    ∃ batch first levels, nextBatch level children queried budget = (batch, queried ∪ batch.toFinset) ∧
      batch.Nodup ∧ (∀ node ∈ batch, node ∉ queried) ∧
      batch = first ++ levels.flatten ∧ first.toFinset = level.toFinset \ queried ∧
      WholeLevels children (queried ∪ level.toFinset) level levels ∧
      (∀ node ∈ batch, node ∈ level ∨ ∃ start ∈ level,
        Relation.ReflTransGen (fun upper lower => lower ∈ children upper ∧ lower ∈ batch) start node) ∧
      batch.length ≤ max budget (level.toFinset \ queried).card ∧
      (belowLevel children (queried ∪ batch.toFinset) (levels.getLastD level) ≠ ∅ →
        budget < batch.length + (belowLevel children (queried ∪ batch.toFinset) (levels.getLastD level)).card) := by
  obtain ⟨distinct, unknown, fresh_eq, all_eq⟩ := fresh_spec queried level
  obtain ⟨levels, widened, whole, length_le, cut⟩ :=
    @widen_levels _ _ children budget (fresh queried level).1 (fresh queried level).2 level
  obtain ⟨batch_distinct, unqueried, queried_eq, -⟩ := @nextBatch_spec _ _ children level queried budget
  have batch_eq : nextBatch level children queried budget =
      ((fresh queried level).1 ++ levels.flatten, (fresh queried level).2 ∪ levels.flatten.toFinset) := widened
  rw [batch_eq] at batch_distinct unqueried queried_eq
  have first_eq : (fresh queried level).1.toFinset = level.toFinset \ queried := by
    ext node
    rw [Finset.mem_sdiff, mem_toFinset, mem_toFinset]
    constructor
    · exact fun mem => (unknown node mem).symm
    · rintro ⟨mem, new⟩
      have known : node ∈ (fresh queried level).2 := by simp [all_eq, mem]
      rw [fresh_eq, mem_union, mem_toFinset] at known
      exact known.resolve_left new
  refine ⟨_, (fresh queried level).1, levels, batch_eq.trans (congrArg _ queried_eq), batch_distinct, unqueried, rfl,
    first_eq, all_eq ▸ whole, fun node mem => ?_, ?_, ?_⟩
  · rcases mem_append.mp mem with in_first | in_levels
    · exact .inl (unknown node in_first).2
    · exact .inr (whole.reached (List.subset_append_right _ _) in_levels)
  · rwa [← first_eq, List.toFinset_card_of_nodup distinct]
  · rwa [← queried_eq]

end Batch

/-! ## What the walk finds -/

section Exact

variable (keys : Node → List Key) (children : Node → List Node) (held : Key → Prop)

/-- The store lacks a key of the node, or the node has none. -/
def Lacks (node : Node) : Prop := keys node = [] ∨ ∃ key ∈ keys node, ¬ held key

/-- A step down between two nodes that the store lacks. -/
def LackingStep (upper lower : Node) : Prop :=
  Lacks keys held upper ∧ lower ∈ children upper ∧ Lacks keys held lower

/-- There is a path from a root to the node, and the store lacks every node of it. -/
def LackingPath (roots : List Node) (node : Node) : Prop :=
  ∃ root ∈ roots, Lacks keys held root ∧ Relation.ReflTransGen (LackingStep keys children held) root node

variable {keys children held} {roots : List Node}

omit [LinearOrder Node] [DecidableEq Key] in
theorem LackingPath.lacks {node : Node} (path : LackingPath keys children held roots node) :
    Lacks keys held node := by
  obtain ⟨root, -, lacks, steps⟩ := path
  cases steps with
  | refl => exact lacks
  | tail _ last => exact last.2.2

omit [LinearOrder Node] [DecidableEq Key] in
theorem LackingPath.down {upper lower : Node}
    (path : LackingPath keys children held roots upper) (child : lower ∈ children upper)
    (lacks : Lacks keys held lower) : LackingPath keys children held roots lower := by
  have upper_lacks := path.lacks
  obtain ⟨root, mem, root_lacks, steps⟩ := path
  exact ⟨root, mem, root_lacks, steps.tail ⟨upper_lacks, child, lacks⟩⟩

/-- What was queried is known: a node that was asked about is held exactly if the store holds it. -/
structure Informed (keys : Node → List Key) (held : Key → Prop) (walk : Walk Node Key) : Prop where
  sound : ∀ key ∈ walk.valid, held key
  complete : ∀ node ∈ walk.queried, ∀ key ∈ keys node, held key → key ∈ walk.valid
  seen : walk.seen ⊆ walk.queried
  batches : walk.batches.flatten.Nodup ∧ ∀ node ∈ walk.batches.flatten, node ∈ walk.queried

variable {walk : Walk Node Key}

omit [LinearOrder Node] in
theorem Informed.isHeld_iff (informed : Informed keys held walk) {node : Node}
    (queried : node ∈ walk.queried) : isHeld keys walk node = true ↔ ¬ Lacks keys held node := by
  have same : (∀ key ∈ keys node, key ∈ walk.valid) ↔ ∀ key ∈ keys node, held key := by
    constructor
    · exact fun all key mem => informed.sound key (all key mem)
    · exact fun all key mem => informed.complete node queried key mem (all key mem)
  simp [isHeld, Lacks, same]

/-- Where the walk stands between two rounds. -/
structure Standing (keys : Node → List Key) (children : Node → List Node) (held : Key → Prop)
    (roots : List Node) (walk : Walk Node Key) (level : List Node) : Prop
    extends Informed keys held walk where
  missing_iff : ∀ node, node ∈ walk.missing ↔ node ∈ walk.seen ∧ Lacks keys held node
  called : ∀ node, node ∈ walk.seen ∨ node ∈ level →
    node ∈ roots ∨ ∃ upper, LackingPath keys children held roots upper ∧ node ∈ children upper
  roots_seen : ∀ node ∈ roots, node ∈ walk.seen ∨ node ∈ level
  children_seen : ∀ upper ∈ walk.missing, ∀ node ∈ children upper, node ∈ walk.seen ∨ node ∈ level

/-- A batch is queried: its nodes are known with those known before. -/
theorem Informed.queryBatch (informed : Informed keys held walk)
    [DecidablePred held] {query : Finset Key → Finset Key} (store : ∀ asked, query asked = asked.filter held)
    {seen : Finset Node} {level : List Node} (budget : ℕ) (seen_eq : seen = walk.seen ∪ level.toFinset) :
    Informed keys held
      (queryBatch keys query
        { walk with seen := seen, queried := (nextBatch level children walk.queried budget).2 }
        (nextBatch level children walk.queried budget).1) := by
  obtain ⟨distinct, unqueried, queried_eq, level_queried⟩ :=
    @nextBatch_spec _ _ children level walk.queried budget
  generalize nextBatch level children walk.queried budget = next at *
  obtain ⟨batch, queried⟩ := next
  simp only at distinct unqueried queried_eq level_queried
  have valid_iff : ∀ key, key ∈ (TopDown.queryBatch keys query
      { walk with seen := seen, queried := queried } batch).valid ↔
        key ∈ walk.valid ∨ (∃ node ∈ batch, key ∈ keys node) ∧ held key := by
    intro key
    simp only [TopDown.queryBatch]
    split
    · rename_i none
      have no_key : ¬ ∃ node ∈ batch, key ∈ keys node := by
        intro some_key
        have mem : key ∈ (batch.flatMap keys).toFinset := by simpa using some_key
        simp [none] at mem
      simp [no_key]
    · simp [store]
  refine ⟨?_, ?_, ?_, ?_, ?_⟩
  · intro key mem
    rcases (valid_iff key).mp mem with old | ⟨-, holds⟩
    · exact informed.sound key old
    · exact holds
  · intro node mem key its holds
    rw [valid_iff]
    simp only [TopDown.queryBatch, queried_eq, mem_union, mem_toFinset] at mem
    rcases mem with old | new
    · exact .inl (informed.complete node old key its holds)
    · exact .inr ⟨⟨node, new, its⟩, holds⟩
  · intro node mem
    simp only [TopDown.queryBatch, seen_eq, mem_union, mem_toFinset] at mem ⊢
    rcases mem with old | new
    · rw [queried_eq]
      exact mem_union_left _ (informed.seen old)
    · exact level_queried node new
  · simp only [TopDown.queryBatch, List.flatten_append, List.flatten_singleton]
    refine nodup_append.mpr ⟨informed.batches.1, distinct, ?_⟩
    rintro node old other new rfl
    exact unqueried node new (informed.batches.2 node old)
  · intro node mem
    simp only [TopDown.queryBatch, List.flatten_append, List.flatten_singleton, mem_append] at mem ⊢
    rw [queried_eq]
    rcases mem with old | new
    · exact mem_union_left _ (informed.batches.2 node old)
    · exact mem_union_right _ (mem_toFinset.mpr new)

/-- The nodes of a level that the store lacks are missing, and their children come next. -/
theorem foldl_visit (level : List Node) (informed : Informed keys held walk)
    (queried : ∀ node ∈ level, node ∈ walk.queried) (next : List Node) :
    ∃ missing, (level.foldl (visit keys children) (walk, next)).1 = { walk with missing := missing } ∧
      (∀ node, node ∈ missing ↔ node ∈ walk.missing ∨ node ∈ level ∧ Lacks keys held node) ∧
      ∀ node, node ∈ (level.foldl (visit keys children) (walk, next)).2 ↔
        node ∈ next ∨ ∃ upper ∈ level, Lacks keys held upper ∧ node ∈ children upper := by
  induction level generalizing walk next with
  | nil => exact ⟨walk.missing, rfl, by simp, by simp⟩
  | cons first level ih =>
    have first_held := informed.isHeld_iff (queried first mem_cons_self)
    have rest : ∀ node ∈ level, node ∈ walk.queried := fun node mem => queried node (mem_cons_of_mem _ mem)
    rw [List.foldl_cons, visit]
    by_cases holds : isHeld keys walk first = true
    · have kept := first_held.mp holds
      rw [if_pos holds]
      obtain ⟨missing, walk_eq, missing_iff, next_iff⟩ := ih informed rest next
      refine ⟨missing, walk_eq, fun node => ?_, fun node => ?_⟩
      · rw [missing_iff, mem_cons]
        constructor
        · exact Or.imp_right fun found => ⟨.inr found.1, found.2⟩
        · rintro (old | ⟨rfl | found, lacks⟩)
          · exact .inl old
          · exact absurd lacks kept
          · exact .inr ⟨found, lacks⟩
      · rw [next_iff]
        constructor
        · exact Or.imp_right fun ⟨upper, mem, found⟩ => ⟨upper, mem_cons_of_mem _ mem, found⟩
        · rintro (old | ⟨upper, mem, lacks, child⟩)
          · exact .inl old
          · rcases mem_cons.mp mem with rfl | mem
            · exact absurd lacks kept
            · exact .inr ⟨upper, mem, lacks, child⟩
    · have lacking : Lacks keys held first := by
        by_contra kept
        exact holds (first_held.mpr kept)
      rw [if_neg holds]
      obtain ⟨missing, walk_eq, missing_iff, next_iff⟩ :=
        @ih { walk with missing := insert first walk.missing }
          ⟨informed.sound, informed.complete, informed.seen, informed.batches⟩ rest (next ++ children first)
      refine ⟨missing, walk_eq, fun node => ?_, fun node => ?_⟩
      · rw [missing_iff, Finset.mem_insert, mem_cons]
        constructor
        · rintro ((rfl | old) | ⟨found, lacks⟩)
          · exact .inr ⟨.inl rfl, lacking⟩
          · exact .inl old
          · exact .inr ⟨.inr found, lacks⟩
        · rintro (old | ⟨rfl | found, lacks⟩)
          · exact .inl (.inr old)
          · exact .inl (.inl rfl)
          · exact .inr ⟨found, lacks⟩
      · rw [next_iff, mem_append]
        constructor
        · rintro ((old | child) | ⟨upper, mem, found⟩)
          · exact .inl old
          · exact .inr ⟨first, mem_cons_self, lacking, child⟩
          · exact .inr ⟨upper, mem_cons_of_mem _ mem, found⟩
        · rintro (old | ⟨upper, mem, lacks, child⟩)
          · exact .inl (.inl old)
          · rcases mem_cons.mp mem with rfl | mem
            · exact .inl (.inr child)
            · exact .inr ⟨upper, mem, lacks, child⟩

/-- One round takes the walk a level down. -/
theorem Standing.round {level : List Node}
    (standing : Standing keys children held roots walk level) [DecidablePred held]
    {query : Finset Key → Finset Key} (store : ∀ asked, query asked = asked.filter held) (budget : ℕ) :
    Standing keys children held roots
        (round keys children query budget { walk with seen := (fresh walk.seen level).2 } (fresh walk.seen level).1).1
        (round keys children query budget { walk with seen := (fresh walk.seen level).2 } (fresh walk.seen level).1).2 ∧
      (round keys children query budget { walk with seen := (fresh walk.seen level).2 }
        (fresh walk.seen level).1).1.seen = (fresh walk.seen level).2 ∧
      ∀ node ∈ (round keys children query budget { walk with seen := (fresh walk.seen level).2 }
        (fresh walk.seen level).1).2, ∃ upper ∈ level, node ∈ children upper := by
  obtain ⟨-, unknown, seen_eq, all_eq⟩ := fresh_spec walk.seen level
  generalize fresh walk.seen level = entered at *
  obtain ⟨entered, seen⟩ := entered
  simp only at unknown seen_eq all_eq ⊢
  have informed := @Informed.queryBatch _ _ _ _ keys children held walk standing.toInformed _ query store seen
    entered budget seen_eq
  have entered_queried : ∀ node ∈ entered, node ∈ (nextBatch entered children walk.queried budget).2 :=
    (nextBatch_spec entered walk.queried budget).2.2.2
  obtain ⟨missing, walk_eq, missing_iff, next_iff⟩ := foldl_visit entered informed entered_queried []
  have seen_iff : ∀ node, node ∈ seen ↔ node ∈ walk.seen ∨ node ∈ level := by
    intro node
    rw [all_eq, mem_union, mem_toFinset]
  have next_iff' : ∀ node, node ∈ (TopDown.round keys children query budget { walk with seen := seen } entered).2 ↔
      ∃ upper ∈ entered, Lacks keys held upper ∧ node ∈ children upper := by
    intro node
    simpa [TopDown.round] using next_iff node
  have walk_eq' : (TopDown.round keys children query budget { walk with seen := seen } entered).1 = _ := walk_eq
  have path_of : ∀ node ∈ entered, Lacks keys held node → LackingPath keys children held roots node := by
    intro node mem lacks
    rcases standing.called node (.inr (unknown node mem).2) with root | ⟨upper, path, child⟩
    · exact ⟨node, root, lacks, .refl⟩
    · exact path.down child lacks
  rw [walk_eq']
  refine ⟨⟨⟨informed.sound, informed.complete, informed.seen, informed.batches⟩, ?_, ?_, ?_, ?_⟩, rfl, ?_⟩
  · intro node
    show node ∈ missing ↔ node ∈ seen ∧ Lacks keys held node
    rw [missing_iff, seen_eq, mem_union, mem_toFinset]
    constructor
    · rintro (old | ⟨new, lacks⟩)
      · have known := (standing.missing_iff node).mp old
        exact ⟨.inl known.1, known.2⟩
      · exact ⟨.inr new, lacks⟩
    · rintro ⟨old | new, lacks⟩
      · exact .inl ((standing.missing_iff node).mpr ⟨old, lacks⟩)
      · exact .inr ⟨new, lacks⟩
  · rintro node (old | new)
    · exact standing.called node ((seen_iff node).mp old)
    · obtain ⟨upper, mem, lacks, child⟩ := (next_iff' node).mp new
      exact .inr ⟨upper, path_of upper mem lacks, child⟩
  · exact fun node root => .inl ((seen_iff node).mpr (standing.roots_seen node root))
  · intro upper mem node child
    rcases (missing_iff upper).mp mem with old | ⟨new, lacks⟩
    · exact .inl ((seen_iff node).mpr (standing.children_seen upper old node child))
    · exact .inr ((next_iff' node).mpr ⟨upper, new, lacks, child⟩)
  · intro node mem
    obtain ⟨upper, entered_mem, -, child⟩ := (next_iff' node).mp mem
    exact ⟨upper, (unknown upper entered_mem).2, child⟩

omit [LinearOrder Node] [DecidableEq Key] in
/-- A walk that has no node left to look at found what there is to find. -/
theorem Standing.exact {level : List Node}
    (standing : Standing keys children held roots walk level) (all_seen : ∀ node ∈ level, node ∈ walk.seen)
    (node : Node) : node ∈ walk.missing ↔ LackingPath keys children held roots node := by
  constructor
  · intro mem
    obtain ⟨seen, lacks⟩ := (standing.missing_iff node).mp mem
    rcases standing.called node (.inl seen) with root | ⟨upper, path, child⟩
    · exact ⟨node, root, lacks, .refl⟩
    · exact path.down child lacks
  · rintro ⟨root, mem, root_lacks, steps⟩
    induction steps with
    | refl =>
      have seen := (standing.roots_seen root mem).elim id (all_seen root)
      exact (standing.missing_iff root).mpr ⟨seen, root_lacks⟩
    | @tail upper lower _ last ih =>
      have seen := (standing.children_seen upper ih lower last.2.1).elim id (all_seen lower)
      exact (standing.missing_iff lower).mpr ⟨seen, last.2.2⟩

/-- The loop ends on a finite graph: every round sees a node it has not seen before. -/
theorem run_exact [DecidablePred held] {query : Finset Key → Finset Key}
    (store : ∀ asked, query asked = asked.filter held) {graph : Finset Node}
    (closed : ∀ node ∈ graph, ∀ child ∈ children node, child ∈ graph) (budget fuel : ℕ)
    {level : List Node} (standing : Standing keys children held roots walk level)
    (level_inside : ∀ node ∈ level, node ∈ graph) (seen_inside : walk.seen ⊆ graph)
    (enough : graph.card < fuel + walk.seen.card) :
    ∃ last, run keys children query budget fuel walk level = some last ∧
      (∀ node, node ∈ last.missing ↔ LackingPath keys children held roots node) ∧
      last.batches.flatten.Nodup := by
  induction fuel generalizing walk level with
  | zero =>
    have within := Finset.card_le_card seen_inside
    omega
  | succ fuel ih =>
    obtain ⟨distinct, unknown, seen_eq, all_eq⟩ := fresh_spec walk.seen level
    simp only [run]
    by_cases none : (fresh walk.seen level).1 = []
    · have same : (fresh walk.seen level).2 = walk.seen := by simp [seen_eq, none]
      have all_seen : ∀ node ∈ level, node ∈ walk.seen := by
        intro node mem
        rw [← same, all_eq]
        exact mem_union_right _ (mem_toFinset.mpr mem)
      rw [if_pos none, same]
      exact ⟨walk, rfl, standing.exact all_seen, standing.batches.1⟩
    · rw [if_neg none]
      obtain ⟨next_standing, next_seen, next_below⟩ := standing.round store budget
      have grown : walk.seen.card < (fresh walk.seen level).2.card := by
        obtain ⟨node, mem⟩ := List.exists_mem_of_ne_nil _ none
        refine Finset.card_lt_card (Finset.ssubset_iff_of_subset ?_ |>.mpr ⟨node, ?_, (unknown node mem).1⟩)
        · rw [seen_eq]
          exact Finset.subset_union_left
        · rw [seen_eq]
          exact mem_union_right _ (mem_toFinset.mpr mem)
      refine ih next_standing ?_ ?_ ?_
      · intro node mem
        obtain ⟨upper, upper_mem, child⟩ := next_below node mem
        exact closed upper (level_inside upper upper_mem) node child
      · rw [next_seen, all_eq]
        intro node mem
        rcases mem_union.mp mem with old | new
        · exact seen_inside old
        · exact level_inside node (mem_toFinset.mp new)
      · rw [next_seen]
        omega

omit [LinearOrder Node] [DecidableEq Key] in
/-- In a store that holds all below what it holds, a node that it lacks is lacked with all above it. -/
theorem lackingPath_iff_of_closed {graph : Finset Node} (inside : ∀ root ∈ roots, root ∈ graph)
    (closed : ∀ node ∈ graph, ∀ child ∈ children node, child ∈ graph)
    (whole : ∀ upper ∈ graph, ∀ lower ∈ children upper, Lacks keys held lower → Lacks keys held upper)
    (node : Node) :
    LackingPath keys children held roots node ↔
      (∃ root ∈ roots, Relation.ReflTransGen (fun upper lower => lower ∈ children upper) root node) ∧
        Lacks keys held node := by
  constructor
  · intro path
    refine ⟨?_, path.lacks⟩
    obtain ⟨root, mem, -, steps⟩ := path
    exact ⟨root, mem, Relation.ReflTransGen.mono (fun _ _ step => step.2.1) _ _ steps⟩
  · rintro ⟨⟨root, mem, steps⟩, lacks⟩
    have walked : node ∈ graph ∧ (Lacks keys held node → LackingPath keys children held roots node) := by
      clear lacks
      induction steps with
      | refl => exact ⟨inside root mem, fun lacks => ⟨root, mem, lacks, .refl⟩⟩
      | @tail upper lower _ child ih =>
        obtain ⟨upper_inside, path⟩ := ih
        exact ⟨closed upper upper_inside lower child,
          fun lacks => (path (whole upper upper_inside lower child lacks)).down child lacks⟩
    exact walked.2 lacks

end Exact

/-- `missingTopDown` finds exactly the nodes that are lacking with all nodes of a path from a root,
whatever the budget, and queries no node twice. -/
theorem missingTopDown_exact (keys : Node → List Key) (children : Node → List Node) (held : Key → Prop)
    [DecidablePred held] (query : Finset Key → Finset Key) (store : ∀ asked, query asked = asked.filter held)
    (graph : Finset Node) (roots : List Node) (inside : ∀ root ∈ roots, root ∈ graph)
    (closed : ∀ node ∈ graph, ∀ child ∈ children node, child ∈ graph) :
    ∃ missing : Finset Node, (∀ node, node ∈ missing ↔ LackingPath keys children held roots node) ∧
      ((∀ upper ∈ graph, ∀ lower ∈ children upper, ¬ Lacks keys held upper → ¬ Lacks keys held lower) →
        ∀ node, node ∈ missing ↔
          (∃ root ∈ roots, Relation.ReflTransGen (fun upper lower => lower ∈ children upper) root node) ∧
            Lacks keys held node) ∧
      ∀ budget fuel, graph.card < fuel →
        ∃ batches, missingTopDown keys children query roots budget fuel = some (missing, batches) ∧
          batches.flatten.Nodup := by
  have start : Standing keys children held roots {} roots := by
    refine ⟨⟨by simp, by simp, by simp, by simp⟩, by simp, ?_, fun _ root => .inr root, by simp⟩
    rintro node (seen | root)
    · simp at seen
    · exact .inl root
  have ends := fun budget fuel (enough : graph.card < fuel) =>
    run_exact store closed budget fuel start inside (by simp) (by simpa using enough)
  obtain ⟨first, -, first_iff, -⟩ := ends 0 (graph.card + 1) (Nat.lt_succ_self _)
  refine ⟨first.missing, first_iff, fun whole node => ?_, fun budget fuel enough => ?_⟩
  · rw [first_iff]
    refine lackingPath_iff_of_closed inside closed (fun upper mem lower child lacks => ?_) node
    by_contra kept
    exact whole upper mem lower child kept lacks
  · obtain ⟨last, ran, last_iff, distinct⟩ := ends budget fuel enough
    have same : last.missing = first.missing := by
      ext node
      rw [last_iff, first_iff]
    exact ⟨last.batches, by simp [missingTopDown, ran, same], distinct⟩

/-- A cycle below the root, with a held node at its end. -/
def looped : ℕ → List ℕ
  | 0 => [1]
  | 1 => [0, 2]
  | _ => []

theorem missingTopDown_exact_looped :
    missingTopDown (fun node => [node]) looped (Finset.filter (2 ≤ ·)) [0] 1 5 = some ({0, 1}, [[0], [1], [2]]) ∧
    ∃ missing : Finset ℕ, (∀ node, node ∈ missing ↔ LackingPath (fun node => [node]) looped (2 ≤ ·) [0] node) := by
  refine ⟨by decide +kernel, ?_⟩
  obtain ⟨missing, exact_iff, -⟩ := missingTopDown_exact (fun node => [node]) looped (2 ≤ ·)
    (Finset.filter (2 ≤ ·)) (fun _ => rfl) (Finset.range 3) [0] (by simp) (by decide)
  exact ⟨missing, exact_iff⟩

end NixGrpcStore.TopDown
