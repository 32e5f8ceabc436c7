import NixGrpcStore.TopDown.Walk

/-!
# Deciding what must be built

`BuildWalk` and `missingForBuild` of `src/top-down.hh`.  The graph below the roots is explored first,
with the number of users of each node; then nodes are decided level by level, each when the last of
its users is.  The maps the walk looks things up in are functions; those it iterates over, which the
caller gives it, are sorted lists.  Both loops end on finite graphs only and get fuel.
-/

namespace NixGrpcStore.TopDown

/-- A `std::map`: its entries in the order of their keys. -/
structure Dict (Node α : Type) [LinearOrder Node] where
  entries : List (Node × α)
  sorted : (entries.map Prod.fst).Pairwise (· < ·)

variable {Node Key : Type} [LinearOrder Node] [DecidableEq Key]

namespace Dict

variable {α : Type}

/-- The keys of a map, in order. -/
def names (dict : Dict Node α) : List Node := dict.entries.map Prod.fst

theorem names_nodup (dict : Dict Node α) : dict.names.Nodup := dict.sorted.imp fun less => ne_of_lt less

end Dict

/-- A call of the store, with its answer. -/
inductive StoreCall (Key : Type)
  | query (asked answer : Finset Key)
  | fetch (asked answer : Finset Key)

def StoreCall.answer : StoreCall Key → Finset Key
  | .query _ answer | .fetch _ answer => answer

/-- The members of a walk; `calls` records the calls of the store and `decided` the nodes in the
order in which they were decided. -/
structure BuildWalk (Node Key : Type) [LinearOrder Node] where
  rebuilt : Finset Node := ∅
  /-- The dependency graph below the roots, and the number of users of each node. -/
  used : Node → Option (Dict Node (List Key)) := fun _ => none
  users : Node → Option ℕ := fun _ => none
  /-- Keys required by requests and by nodes that get built. -/
  needs : Node → Option (Finset Key) := fun _ => none
  /-- Keys any user might require; queried ahead in batches. -/
  anyNeeds : Node → Option (Finset Key) := fun _ => none
  level : List Node := []
  valid : Finset Key := ∅
  queried : Finset Node := ∅
  missing : Finset Node := ∅
  calls : List (StoreCall Key) := []
  decided : List Node := []

/-- `table[node]`: a default is entered for a node that has no entry. -/
def lookup {α : Type} [EmptyCollection α] (table : Node → Option α) (node : Node) : α := (table node).getD ∅

/-- `table[node].insert(keys)`. -/
def insertKeys (table : Node → Option (Finset Key)) (node : Node) (keys : Finset Key) :
    Node → Option (Finset Key) :=
  Function.update table node (some (lookup table node ∪ keys))

namespace BuildWalk

/-! ## Exploring the graph -/

/-- Enter a root with the keys that are asked of it. -/
def enterRoot (rebuildRoots : Bool) (walk : BuildWalk Node Key) (root : Node × List Key) : BuildWalk Node Key :=
  let keys := if rebuildRoots then lookup walk.needs root.1 else lookup walk.needs root.1 ∪ root.2.toFinset
  { walk with
    rebuilt := if rebuildRoots then insert root.1 walk.rebuilt else walk.rebuilt
    needs := Function.update walk.needs root.1 (some keys)
    anyNeeds := Function.update walk.anyNeeds root.1 (some keys) }

/-- Count one more user of a node and the keys it may require. -/
def enterUse (walk : BuildWalk Node Key) (use : Node × List Key) : BuildWalk Node Key :=
  { walk with
    anyNeeds := insertKeys walk.anyNeeds use.1 use.2.toFinset
    users := Function.update walk.users use.1 (some ((walk.users use.1).getD 0 + 1)) }

/-- The loop over the nodes to look at, the last one first. -/
def explore (uses : Node → Dict Node (List Key)) :
    ℕ → BuildWalk Node Key → List Node → Option (BuildWalk Node Key)
  | _, walk, [] => some walk
  | 0, _, _ :: _ => none
  | fuel + 1, walk, node :: todo =>
    if (walk.used node).isSome then explore uses fuel walk todo
    else
      let walk := { walk with used := Function.update walk.used node (some (uses node)) }
      explore uses fuel ((uses node).entries.foldl enterUse walk) ((uses node).names.reverse ++ todo)

/-- The constructor: what is below the roots, and the roots that no node uses. -/
def make (roots : Dict Node (List Key)) (rebuildRoots : Bool) (uses : Node → Dict Node (List Key))
    (fuel : ℕ) : Option (BuildWalk Node Key) :=
  let walk : BuildWalk Node Key := roots.entries.foldl (enterRoot rebuildRoots) {}
  (explore uses fuel walk roots.names.reverse).map fun walk =>
    { walk with level := roots.names.filter fun root => (walk.users root).isNone }

/-! ## Deciding level by level -/

variable (query fetch : Finset Key → Finset Key)

def isHeld (walk : BuildWalk Node Key) (node : Node) : Bool :=
  node ∉ walk.rebuilt && lookup walk.needs node ≠ ∅ && lookup walk.needs node ⊆ walk.valid

/-- The nodes a node uses. -/
def below (walk : BuildWalk Node Key) (node : Node) : List Node := ((walk.used node).map Dict.names).getD []

def queryAhead (budget : ℕ) (walk : BuildWalk Node Key) (needed : List Node) : BuildWalk Node Key :=
  let (batch, queried) := nextBatch needed walk.below walk.queried budget
  let keys := batch.foldl (fun keys node => keys ∪ lookup walk.anyNeeds node) ∅
  if keys = ∅ then { walk with queried := queried }
  else
    { walk with
      queried := queried
      valid := walk.valid ∪ query keys
      calls := walk.calls ++ [.query keys (query keys)] }

/-- The keys that the needed nodes lack. -/
def lacking (walk : BuildWalk Node Key) (needed : List Node) : Finset Key :=
  needed.foldl (fun keys node => if node ∈ walk.rebuilt then keys else keys ∪ (lookup walk.needs node \ walk.valid)) ∅

def fetchLacking (walk : BuildWalk Node Key) (needed : List Node) : BuildWalk Node Key :=
  let lacking := walk.lacking needed
  if lacking = ∅ then walk
  else
    { walk with
      valid := walk.valid ∪ fetch lacking
      calls := walk.calls ++ [.fetch lacking (fetch lacking)] }

/-- One user of a node less is to be decided; the last one makes the node come next. -/
def release (stage : BuildWalk Node Key × List Node) (child : Node) : BuildWalk Node Key × List Node :=
  let (walk, next) := stage
  let left := (walk.users child).getD 0 - 1
  ({ walk with users := Function.update walk.users child (some left) }, if left = 0 then next ++ [child] else next)

/-- Decide one node of the level. -/
def decideOne (stage : BuildWalk Node Key × List Node) (node : Node) : BuildWalk Node Key × List Node :=
  let (walk, next) := stage
  let uses := ((walk.used node).map Dict.entries).getD []
  let walk := { walk with decided := walk.decided ++ [node] }
  let walk :=
    if (walk.needs node).isSome && !walk.isHeld node then
      { walk with
        missing := insert node walk.missing
        needs := uses.foldl (fun needs use => insertKeys needs use.1 use.2.toFinset) walk.needs }
    else walk
  (walk.below node).foldl release (walk, next)

/-- Decide the current level; the nodes whose users are now all decided come next. -/
def decide (walk : BuildWalk Node Key) : BuildWalk Node Key × List Node :=
  walk.level.foldl decideOne (walk, [])

/-- One round of the loop in `run`. -/
def round (budget : ℕ) (walk : BuildWalk Node Key) : BuildWalk Node Key :=
  let needed := walk.level.filter fun node => (walk.needs node).isSome
  let walk := (walk.queryAhead query budget needed).fetchLacking fetch needed
  { walk.decide.1 with level := walk.decide.2 }

/-- The loop of `run`; `none` if the fuel is used up. -/
def run (budget : ℕ) : ℕ → BuildWalk Node Key → Option (BuildWalk Node Key)
  | 0, walk => if walk.level = [] then some walk else none
  | fuel + 1, walk => if walk.level = [] then some walk else run budget fuel (walk.round query fetch budget)

end BuildWalk

/-- What must be built, with the record of the walk. -/
def missingForBuild (roots : Dict Node (List Key)) (rebuildRoots : Bool)
    (uses : Node → Dict Node (List Key)) (query fetch : Finset Key → Finset Key) (budget fuel : ℕ) :
    Option (BuildWalk Node Key) :=
  (BuildWalk.make roots rebuildRoots uses fuel).bind (BuildWalk.run query fetch budget fuel)

end NixGrpcStore.TopDown
