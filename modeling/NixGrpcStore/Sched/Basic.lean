import Mathlib.Algebra.Order.Ring.Rat
import Mathlib.Tactic
import NixGrpcStore.Lib.Tally

/-!
# Data of the placement core

Clients, workers, slots of derivations and assignments are numbered, in the source by `uint64_t` and
`uint32_t` and here without a bound; `noWorker` and `npos`, the largest 32-bit number in the source,
are `none` here.  Times, hints and weights are `double`s in the source and exact rationals here.
-/

namespace NixGrpcStore.Sched

/-- Number of a connected client. -/
abbrev ClientId := ℕ

/-- Index of a worker in the scheduler's table. -/
abbrev WorkerId := ℕ

/-- Index of a derivation in the scheduler's table. -/
abbrev DrvId := ℕ

/-- The exceptions of the scheduler. -/
inductive Error
  /-- `at` of a standard container outside its range. -/
  | outOfRange
  /-- "IndexedHeap: id out of range" -/
  | heapIdOutOfRange
  /-- "FreeIndex: unknown worker %d" -/
  | unknownWorker (wid : WorkerId)
  /-- "FreeIndex: corrupt bucket for worker %d" -/
  | corruptBucket (wid : WorkerId)
  /-- "scheduler: derivation table full" -/
  | tableFull
  /-- "scheduler: Hello without addr" -/
  | helloWithoutAddr
  /-- "WorkerSession: first message must be Hello" -/
  | firstMessageNotHello
  /-- "worker %s offers no system" -/
  | offersNoSystem (addr : String)
  /-- "WorkerSession: bad system '%s'" -/
  | badSystem (name : String)
  deriving DecidableEq, Repr

/-- The bytes of a text. -/
def bytes (text : String) : List UInt8 := text.toByteArray.data.toList

/-- Store paths are keyed by the first 32 bytes of their last component, padded with zeros. -/
structure PathKey where
  /-- The hash part. -/
  hash : List UInt8
  /-- It has a fixed size. -/
  size_eq : hash.length = 32
  deriving DecidableEq

namespace PathKey

/-- What follows the last slash. -/
def baseName (path : String) : List UInt8 :=
  ((bytes path).reverse.takeWhile (· ≠ '/'.toUInt8)).reverse

/-- The key of `/nix/store/<hash>-name`, or of a bare name. -/
def ofPath (path : String) : PathKey where
  hash := ((baseName path).take 32).rightpad 32 0
  size_eq := by simp

end PathKey

/-- Weights of the placement. -/
structure Config where
  /-- `cp_hint` milliseconds per millisecond waited. -/
  ageWeight : ℚ := 4
  /-- `cp_hint` milliseconds per extra follower. -/
  faninWeight : ℚ := 30000
  /-- Input bytes a fully free worker is worth. -/
  locLambda : ℚ := 256000000
  deriving DecidableEq

/-- One placement made by `dispatch`. -/
structure Assign where
  drv : DrvId
  worker : WorkerId
  assignId : ℕ
  clients : List ClientId
  deriving DecidableEq, Repr

/-- A derivation somebody wants or some worker builds. -/
structure Entry where
  drvPath : String
  /-- For locality only. -/
  inputs : List PathKey := []
  system : String := ""
  /-- Required of the worker. -/
  features : List String := []
  followers : List ClientId := []
  worker : Option WorkerId := none
  assignId : ℕ := 0
  enqMs : ℚ := 0
  cpHint : ℚ := 0
  /-- As last told to the followers. -/
  unplaceable : Bool := false
  /-- Gave it back; used only if no other worker can run it. -/
  avoid : Option WorkerId := none
  deriving DecidableEq

/-- The key under which derivations are told apart. -/
def Entry.pathKey (ent : Entry) : PathKey := PathKey.ofPath ent.drvPath

/-- A worker that has said Hello at some time. -/
structure Worker where
  addr : String
  systems : List String := []
  features : List String := []
  maxJobs : ℤ := 0
  up : Bool := false
  draining : Bool := false
  running : List DrvId := []
  deriving DecidableEq

/-- A worker that says Hello with `max_jobs` 0 is up but runs nothing. -/
def Worker.takesWork (wkr : Worker) : Bool := wkr.up && !wkr.draining && decide (0 < wkr.maxJobs)

/-- The worker serves the derivation's system and has every feature it requires. -/
def offers (wkr : Worker) (ent : Entry) : Bool :=
  wkr.systems.contains ent.system && ent.features.all fun feat => wkr.features.contains feat

/-- Followers beyond the first. -/
def Entry.extra (ent : Entry) : ℕ :=
  if ent.followers.isEmpty then 0 else ent.followers.length - 1

/-- Urgency in the queue; smaller keys go first. -/
def prio (cfg : Config) (ent : Entry) : ℚ :=
  -(ent.cpHint + cfg.faninWeight * ent.extra - cfg.ageWeight * ent.enqMs)

/-- The order in which a hash map is visited, which the language leaves open. -/
structure VisitOrder where
  /-- The names in the order of the visit. -/
  visit : List String → List String
  /-- Each name is visited once. -/
  visit_perm : ∀ names, (visit names).Perm names

instance : Inhabited VisitOrder := ⟨⟨id, fun _ => .refl _⟩⟩

end NixGrpcStore.Sched
