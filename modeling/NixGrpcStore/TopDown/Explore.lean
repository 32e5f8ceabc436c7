import NixGrpcStore.TopDown.Build
import NixGrpcStore.Lib.CountedOrder

/-!
# What the exploration of the graph finds

The nodes below the roots are entered once each; every node then has the number of its users, and
all keys that one of them may require.
-/

namespace NixGrpcStore.TopDown

open Relation CountedOrder

variable {Node Key : Type} [LinearOrder Node]

/-! ## What is asked -/

/-- What is asked of a walk: the requested nodes, whether they are rebuilt, and what nodes use. -/
structure Demand (Node Key : Type) [LinearOrder Node] where
  roots : Dict Node (List Key)
  rebuildRoots : Bool
  uses : Node → Dict Node (List Key)

variable {node other : Node}

namespace Demand

variable (demand : Demand Node Key)

def Uses (user node : Node) : Prop := node ∈ (demand.uses user).names

instance : DecidableRel demand.Uses := fun user node => inferInstanceAs (Decidable (node ∈ (demand.uses user).names))

/-- The node is a root or below one. -/
def Reached (node : Node) : Prop := ∃ root ∈ demand.roots.names, ReflTransGen demand.Uses root node

/-- The key is requested of a root that is not rebuilt. -/
def Requests (node : Node) (key : Key) : Prop :=
  demand.rebuildRoots = false ∧ ∃ entry ∈ demand.roots.entries, entry.1 = node ∧ key ∈ entry.2

/-- One node asks the key of another. -/
def Asks (user node : Node) (key : Key) : Prop :=
  ∃ entry ∈ (demand.uses user).entries, entry.1 = node ∧ key ∈ entry.2

variable {demand}

theorem Asks.uses {user : Node} {key : Key} (asks : demand.Asks user node key) :
    demand.Uses user node := by
  obtain ⟨entry, mem, rfl, -⟩ := asks
  exact List.mem_map_of_mem mem

theorem Reached.below {user : Node} (reached : demand.Reached user) (uses : demand.Uses user node) :
    demand.Reached node := by
  obtain ⟨root, mem, path⟩ := reached
  exact ⟨root, mem, path.tail uses⟩

end Demand

variable {start walk : BuildWalk Node Key} {visited todo : List Node}

namespace BuildWalk

variable {demand : Demand Node Key}

/-- Where the exploration stands: the nodes visited so far, and those to look at. -/
structure Explored (demand : Demand Node Key) (start walk : BuildWalk Node Key) (visited todo : List Node) :
    Prop where
  frame : walk = { start with used := walk.used, users := walk.users, anyNeeds := walk.anyNeeds }
  distinct : visited.Nodup
  used_eq : ∀ node, walk.used node = if node ∈ visited then some (demand.uses node) else none
  reached : ∀ node ∈ visited ++ todo, demand.Reached node
  roots : ∀ root ∈ demand.roots.names, root ∈ visited ++ todo
  closed : ∀ user ∈ visited, ∀ node, demand.Uses user node → node ∈ visited ++ todo
  users_eq : ∀ node, walk.users node =
    if openEdges demand.Uses visited [] node = 0 then none else some (openEdges demand.Uses visited [] node)
  start_needs : ∀ node key, key ∈ lookup start.anyNeeds node → key ∈ lookup walk.anyNeeds node
  anyNeeds : ∀ user ∈ visited, ∀ node key, demand.Asks user node key → key ∈ lookup walk.anyNeeds node

/-- A node is looked at again. -/
theorem Explored.skip (explored : Explored demand start walk visited (node :: todo))
    (known : node ∈ visited) : Explored demand start walk visited todo := by
  have same : ∀ other, other ∈ visited ++ node :: todo ↔ other ∈ visited ++ todo := by
    intro other
    simp only [List.mem_append, List.mem_cons]
    constructor
    · rintro (old | rfl | later)
      · exact .inl old
      · exact .inl known
      · exact .inr later
    · exact Or.imp_right .inr
  obtain ⟨frame, distinct, used_eq, reached, roots, closed, users_eq, start_needs, anyNeeds⟩ := explored
  simp only [same] at reached roots closed
  exact ⟨frame, distinct, used_eq, reached, roots, closed, users_eq, start_needs, anyNeeds⟩

/-- At the end exactly the nodes below the roots were visited. -/
theorem Explored.visited_iff (explored : Explored demand start walk visited []) (node : Node) :
    node ∈ visited ↔ demand.Reached node := by
  constructor
  · exact fun mem => explored.reached node (List.mem_append_left _ mem)
  · rintro ⟨root, mem, path⟩
    induction path with
    | refl => simpa using explored.roots root mem
    | tail _ edge ih => simpa using explored.closed _ ih _ edge

end BuildWalk

/-! ## The tables of keys -/

section Tables

variable [DecidableEq Key]

theorem mem_lookup_insertKeys {table : Node → Option (Finset Key)} {keys : Finset Key}
    {key : Key} : key ∈ lookup (insertKeys table node keys) other ↔
      key ∈ lookup table other ∨ other = node ∧ key ∈ keys := by
  by_cases same : other = node
  · subst same
    simp [lookup, insertKeys]
  · simp [lookup, insertKeys, same]

theorem isSome_insertKeys {table : Node → Option (Finset Key)} {keys : Finset Key} :
    (insertKeys table node keys other).isSome ↔ (table other).isSome ∨ other = node := by
  by_cases same : other = node <;> simp [insertKeys, same]

/-- The keys that a list of entries brings into a table. -/
theorem foldl_insertKeys (keysOf : Node × List Key → Finset Key) (entries : List (Node × List Key))
    (table : Node → Option (Finset Key)) :
    (∀ node, (entries.foldl (fun table entry => insertKeys table entry.1 (keysOf entry)) table node).isSome ↔
      (table node).isSome ∨ node ∈ entries.map Prod.fst) ∧
    ∀ node key, key ∈ lookup (entries.foldl (fun table entry => insertKeys table entry.1 (keysOf entry)) table) node ↔
      key ∈ lookup table node ∨ ∃ entry ∈ entries, entry.1 = node ∧ key ∈ keysOf entry := by
  induction entries generalizing table with
  | nil => simp
  | cons entry entries ih =>
    obtain ⟨some_iff, mem_iff⟩ := ih (insertKeys table entry.1 (keysOf entry))
    constructor
    · intro node
      rw [List.foldl_cons, some_iff, isSome_insertKeys, List.map_cons, List.mem_cons, or_assoc]
    · intro node key
      rw [List.foldl_cons, mem_iff, mem_lookup_insertKeys, or_assoc]
      simp only [List.mem_cons, exists_eq_or_imp, @eq_comm _ node]

namespace BuildWalk

variable {demand : Demand Node Key}

/-! ## The roots -/

theorem foldl_enterRoot (rebuildRoots : Bool) (entries : List (Node × List Key)) (walk : BuildWalk Node Key)
    (same : walk.anyNeeds = walk.needs) :
    ∃ rebuilt needs, entries.foldl (enterRoot rebuildRoots) walk =
        { walk with rebuilt := rebuilt, needs := needs, anyNeeds := needs } ∧
      (∀ node, node ∈ rebuilt ↔ node ∈ walk.rebuilt ∨ rebuildRoots = true ∧ node ∈ entries.map Prod.fst) ∧
      needs = entries.foldl (fun table entry => insertKeys table entry.1
        (if rebuildRoots then ∅ else entry.2.toFinset)) walk.needs := by
  induction entries generalizing walk with
  | nil => exact ⟨walk.rebuilt, walk.needs, by cases walk; cases same; rfl, by simp, rfl⟩
  | cons entry entries ih =>
    have needs_eq : (enterRoot rebuildRoots walk entry).needs =
        insertKeys walk.needs entry.1 (if rebuildRoots then ∅ else entry.2.toFinset) := by
      cases rebuildRoots <;> simp [enterRoot, insertKeys]
    have entered_same : (enterRoot rebuildRoots walk entry).anyNeeds = (enterRoot rebuildRoots walk entry).needs := by
      simp only [enterRoot, same]
    obtain ⟨rebuilt, needs, result, rebuilt_iff, result_needs⟩ := ih (enterRoot rebuildRoots walk entry) entered_same
    refine ⟨rebuilt, needs, result, ?_, ?_⟩
    · intro node
      rw [rebuilt_iff]
      cases rebuildRoots <;> simp [enterRoot, or_assoc, or_left_comm]
    · rw [result_needs, needs_eq, List.foldl_cons]

/-! ## The nodes below -/

theorem foldl_enterUse (entries : List (Node × List Key)) (distinct : (entries.map Prod.fst).Nodup)
    (walk : BuildWalk Node Key) :
    ∃ users, entries.foldl enterUse walk =
        { walk with
          users := users
          anyNeeds := entries.foldl (fun table entry => insertKeys table entry.1 entry.2.toFinset) walk.anyNeeds } ∧
      ∀ node, users node =
        if node ∈ entries.map Prod.fst then some ((walk.users node).getD 0 + 1) else walk.users node := by
  induction entries generalizing walk with
  | nil => exact ⟨walk.users, rfl, by simp⟩
  | cons entry entries ih =>
    obtain ⟨apart, distinct⟩ := List.nodup_cons.mp distinct
    obtain ⟨users, result, users_eq⟩ := ih distinct (enterUse walk entry)
    refine ⟨users, result, ?_⟩
    intro node
    rw [users_eq]
    by_cases same : node = entry.1
    · subst same
      simp [enterUse, apart]
    · simp [enterUse, same, -List.mem_map]

/-- A node is visited. -/
theorem Explored.visit
    (explored : Explored demand start walk visited (node :: todo)) (unknown : node ∉ visited) :
    Explored demand start
      ((demand.uses node).entries.foldl enterUse
        { walk with used := Function.update walk.used node (some (demand.uses node)) })
      (node :: visited) ((demand.uses node).names.reverse ++ todo) := by
  obtain ⟨users, result, users_eq⟩ := foldl_enterUse (demand.uses node).entries (demand.uses node).names_nodup
    { walk with used := Function.update walk.used node (some (demand.uses node)) }
  obtain ⟨-, mem_iff⟩ := foldl_insertKeys (fun entry => entry.2.toFinset) (demand.uses node).entries walk.anyNeeds
  rw [result]
  have mem_append : ∀ other, other ∈ visited ++ node :: todo →
      other ∈ node :: visited ++ ((demand.uses node).names.reverse ++ todo) := by
    intro other mem
    simp only [List.mem_append, List.mem_cons] at mem ⊢
    tauto
  have node_reached : demand.Reached node := explored.reached node (by simp)
  refine ⟨?_, List.nodup_cons.mpr ⟨unknown, explored.distinct⟩, ?_, ?_, ?_, ?_, ?_, ?_, ?_⟩
  · rw [explored.frame]
  · intro other
    by_cases same : other = node
    · subst same
      simp
    · simp [same, explored.used_eq]
  · intro other mem
    simp only [List.mem_append, List.mem_cons, List.mem_reverse] at mem
    rcases mem with (rfl | old) | new | later
    · exact node_reached
    · exact explored.reached other (List.mem_append_left _ old)
    · exact node_reached.below new
    · exact explored.reached other (by simp [later])
  · exact fun root mem => mem_append root (explored.roots root mem)
  · intro user mem other edge
    rcases List.mem_cons.mp mem with rfl | old
    · exact List.mem_append_right _ (List.mem_append_left _ (List.mem_reverse.mpr edge))
    · exact mem_append other (explored.closed user old other edge)
  · intro other
    have count_eq : openEdges demand.Uses (node :: visited) [] other =
        openEdges demand.Uses visited [] other + if demand.Uses node other then 1 else 0 := by
      simp [openEdges, List.countP_cons]
    have edge_iff : other ∈ (demand.uses node).entries.map Prod.fst ↔ demand.Uses node other := Iff.rfl
    refine (users_eq other).trans ?_
    rw [count_eq]
    simp only [edge_iff, explored.users_eq]
    split_ifs <;> simp_all
  · exact fun other key mem => (mem_iff other key).mpr (.inl (explored.start_needs other key mem))
  · intro user mem other key asks
    refine (mem_iff other key).mpr ?_
    rcases List.mem_cons.mp mem with rfl | old
    · obtain ⟨entry, its, name, in_keys⟩ := asks
      exact .inr ⟨entry, its, name, List.mem_toFinset.mpr in_keys⟩
    · exact .inl (explored.anyNeeds user old other key asks)

/-- The nodes still to be looked at if each that is not visited adds what it uses. -/
def work (demand : Demand Node Key) (graph : Finset Node) (visited todo : List Node) : ℕ :=
  todo.length + ∑ node ∈ graph \ visited.toFinset, (demand.uses node).names.length

/-- With enough fuel the exploration of a finite graph ends with all nodes below the roots visited. -/
theorem Explored.explore {graph : Finset Node} (inside : ∀ node, demand.Reached node → node ∈ graph)
    (fuel : ℕ) (explored : Explored demand start walk visited todo)
    (enough : work demand graph visited todo ≤ fuel) :
    ∃ last visited', explore demand.uses fuel walk todo = some last ∧ Explored demand start last visited' [] := by
  induction fuel generalizing walk visited todo with
  | zero =>
    cases todo with
    | nil => exact ⟨walk, visited, rfl, explored⟩
    | cons node todo => simp [work] at enough
  | succ fuel ih =>
    cases todo with
    | nil => exact ⟨walk, visited, rfl, explored⟩
    | cons node todo =>
      by_cases known : node ∈ visited
      · have used : (walk.used node).isSome := by rw [explored.used_eq, if_pos known]; rfl
        rw [BuildWalk.explore, if_pos used]
        apply ih (explored.skip known)
        simp only [work, List.length_cons] at enough ⊢
        omega
      · have unused : ¬ (walk.used node).isSome := by rw [explored.used_eq, if_neg known]; simp
        rw [BuildWalk.explore, if_neg unused]
        apply ih (explored.visit known)
        have in_graph : node ∈ graph \ visited.toFinset :=
          Finset.mem_sdiff.mpr ⟨inside node (explored.reached node (by simp)), by simpa using known⟩
        have split := Finset.sum_erase_add (graph \ visited.toFinset)
          (fun node => (demand.uses node).names.length) in_graph
        have erased : graph \ (node :: visited).toFinset = (graph \ visited.toFinset).erase node := by
          ext other
          simp only [List.toFinset_cons, Finset.mem_sdiff, Finset.mem_insert, Finset.mem_erase]
          tauto
        simp only [work, List.length_cons, List.length_append, List.length_reverse, erased] at enough ⊢
        omega

end BuildWalk

end Tables

end NixGrpcStore.TopDown
