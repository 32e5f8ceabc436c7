import Mathlib.Tactic

/-!
# Messages of the scheduling streams

The messages of `proto/nix_remote.proto` that the scheduler exchanges with clients and workers.
A message whose `oneof` is unset is `empty`.
-/

namespace NixGrpcStore.Remote

/-- A client wants a derivation. -/
structure Want where
  drvPath : String
  /-- Names of the outputs in the shared cache. -/
  outKeys : List String := []
  /-- Store paths of all inputs, for locality. -/
  inputs : List String := []
  /-- Remaining critical path below this derivation. -/
  cpHintMs : ℕ := 0
  buildMode : ℕ := 0
  requiredFeatures : List String := []
  /-- Empty means the scheduler's own system. -/
  system : String := ""
  deriving DecidableEq

/-- What a client says on its Schedule stream. -/
inductive ClientMsg
  | want (want : Want)
  | cancel (drvPath : String)
  | empty
  deriving DecidableEq

/-- A placement, as told to a client. -/
structure Assigned where
  drvPath : String
  workerAddr : String
  assignId : ℕ
  /-- The worker's native system, for the balancer. -/
  workerSystem : String
  deriving DecidableEq

/-- What the scheduler tells a client. -/
inductive SchedMsg
  | assigned (asg : Assigned)
  | cached (drvPath : String)
  | unplaceable (drvPath reason : String)
  | restarting
  | placeable (drvPath : String)
  | empty
  deriving DecidableEq

/-- A worker opens its session. -/
structure Hello where
  addr : String
  /-- Native first, then extra platforms. -/
  systems : List String
  features : List String := []
  maxJobs : ℕ := 0
  /-- Builds in progress and Expects not yet claimed. -/
  running : List (String × ℕ) := []
  deriving DecidableEq

/-- How a build ended. -/
inductive Outcome
  | built
  | failed
  | cancelled
  | noShow
  | givenBack
  deriving DecidableEq

/-- Why a build was given back. -/
inductive Reason
  | unspecified
  | draining
  | publishUnavailable
  | inputUnavailable
  | unreachable
  | transientFailure
  deriving DecidableEq

/-- A worker no longer holds a derivation. -/
structure Done where
  drvPath : String
  assignId : ℕ
  outcome : Outcome
  outputs : List (String × ℕ) := []
  /-- With `givenBack`. -/
  reason : Reason := .unspecified
  deriving DecidableEq

/-- What a worker says on its session. -/
inductive WorkerMsg
  | hello (hel : Hello)
  | done (done : Done)
  | load (draining : Bool)
  | empty
  deriving DecidableEq

/-- What the scheduler tells a worker. -/
inductive SchedCmd
  | expect (drvPath : String) (assignId : ℕ)
  | revoke (drvPath : String)
  | restarting
  deriving DecidableEq

end NixGrpcStore.Remote
