import NixGrpcStore.Remote
import NixGrpcStore.Lib.Run
import Mathlib.Data.List.AList

/-!
# The builder's side

`Builder` of `src/daemon/coordinator.cc`: the table of builds the scheduler assigned to this worker,
and the calls of `build` in `src/daemon/main.cc` that claim, run and report them.  The calls come from
several threads; each is cut where it takes a lock, reads or writes the drain flag, or sends a
message.  Between two such steps of one thread the others may do anything.  Metrics and log lines are
left out, as are the parts of a shared build that only its callers look at.
-/

namespace NixGrpcStore

open Remote

namespace Builder

/-- Number of a shared build. -/
abbrev SharedId := ℕ

/-- A build that later callers attach to. -/
structure Shared where
  /-- The scheduler moved the derivation to a worker further along. -/
  revoked : Bool := false
  finished : Bool := false
  /-- The serialised result. -/
  resultWire : String := ""
  deriving DecidableEq

/-- One assignment the builder accepted from its scheduler. -/
structure Expected where
  assignId : ℕ
  /-- In milliseconds. -/
  since : ℚ
  /-- A client reached us for it. -/
  claimed : Bool := false
  running : Bool := false
  shared : SharedId
  deriving DecidableEq

/-- The table of assignments, by derivation. -/
abbrev Table := AList fun _ : String => Expected

/-- The rows of a table that satisfy a condition. -/
def keepOnly (keep : Expected → Bool) (table : Table) : Table where
  entries := table.entries.filter fun row => keep row.2
  nodupKeys := table.nodupKeys.sublist List.filter_sublist

/-- How long an Expect waits for its client, in milliseconds. -/
def expectTimeout : ℚ := 60000

/-- What a worker says about itself. -/
structure Options where
  advertise : String
  thisSystem : String
  extraPlatforms : List String := []
  extraSystems : List String := []
  systemFeatures : List String := []
  maxJobs : ℕ := 1

end Builder

/-- The table, the shared builds that were ever made, and the drain flag. -/
structure Builder where
  expected : Builder.Table := ∅
  shareds : List Builder.Shared := []
  draining : Bool := false

namespace Builder

/-- What `admit` hands to a caller. -/
structure Admission where
  shared : SharedId
  assignId : ℕ
  /-- The derivation already runs: wait for it. -/
  attach : Bool
  deriving DecidableEq

/-! ## Sections that hold the lock of the table -/

/-- The second part of `onExpect`. -/
def expect (drvPath : String) (assignId : ℕ) (now : ℚ) (b : Builder) : Builder :=
  match b.expected.lookup drvPath with
  | none =>
    { b with
      expected := b.expected.insert drvPath { assignId, since := now, shared := b.shareds.length }
      shareds := b.shareds ++ [{}] }
  | some ent =>
    -- announced again across a restart of the scheduler: keep the live one
    if ent.claimed then b
    else { b with expected := b.expected.insert drvPath { ent with assignId, since := now } }

/-- A client is here for a derivation. -/
def claim (drvPath : String) (b : Builder) : Builder :=
  match b.expected.lookup drvPath with
  | none => b
  | some ent => { b with expected := b.expected.insert drvPath { ent with claimed := true } }

/-- `admit`: a caller may build, or attach to the build that runs. -/
def admission (drvPath : String) (b : Builder) : Option Admission × Builder :=
  match b.expected.lookup drvPath with
  | none => (none, b)
  | some ent =>
    (some { shared := ent.shared, assignId := ent.assignId, attach := ent.running },
      { b with expected := b.expected.insert drvPath { ent with claimed := true, running := true } })

/-- The first part of `onRevoke`; the result is the assignment to report as cancelled. -/
def revoke (drvPath : String) (b : Builder) : Option ℕ × Builder :=
  match b.expected.lookup drvPath with
  | none => (none, b)
  | some ent =>
    if ent.running then
      -- the call that builds notices, kills the build and reports Done itself
      (none, { b with shareds := b.shareds.modify ent.shared fun shared => { shared with revoked := true } })
    else
      (some ent.assignId, { b with expected := b.expected.erase drvPath })

/-- The first part of `finished`. -/
def take (drvPath : String) (b : Builder) : Option Expected × Builder :=
  (b.expected.lookup drvPath, { b with expected := b.expected.erase drvPath })

/-- The second part of `finished`, under the mutex of the shared build. -/
def publish (shared : SharedId) (wire : String) (b : Builder) : Builder :=
  { b with
    shareds := b.shareds.modify shared fun shared => { shared with finished := true, resultWire := wire } }

/-- Take what nobody claimed off the table. -/
def takeUnclaimed (pred : Expected → Bool) (b : Builder) : List (String × ℕ) × Builder :=
  ((b.expected.entries.filter fun row => !row.2.claimed && pred row.2).map fun row => (row.1, row.2.assignId),
    { b with expected := keepOnly (fun ent => ent.claimed || !pred ent) b.expected })

/-- What the builder says when a session opens. -/
def hello (opts : Options) (b : Builder) : Hello where
  addr := opts.advertise
  systems := opts.thisSystem :: opts.extraPlatforms ++ opts.extraSystems
  features := opts.systemFeatures
  maxJobs := opts.maxJobs
  running := b.expected.entries.map fun row => (row.1, row.2.assignId)

/-- The Dones of `giveBack`. -/
def givenBack (drvs : List (String × ℕ)) (reason : Reason) : List WorkerMsg :=
  drvs.map fun drv => .done { drvPath := drv.1, assignId := drv.2, outcome := .givenBack, reason }

/-! ## Threads -/

/-- What a thread does next. -/
inductive Task
  /-- `onExpect` found the flag clear. -/
  | expect (drvPath : String) (assignId : ℕ)
  /-- Messages are sent one after the other. -/
  | say (msgs : List WorkerMsg)
  /-- `setDraining` changed the flag. -/
  | announce (draining : Bool)
  /-- `setDraining` told the scheduler. -/
  | takeAll
  /-- `tick` read the clock and the flag. -/
  | expire (draining : Bool) (now : ℚ)
  /-- `greet` made its Hello. -/
  | greet (hel : Hello)
  /-- `greet` sent its Hello. -/
  | greeted
  deriving DecidableEq

/-- How far a call that builds has come. -/
inductive Phase
  | building
  /-- `finished` took the row it found, if any, off the table. -/
  | taken (shared : Option SharedId) (wire : String) (done : Done)
  /-- `finished` published the result. -/
  | published (wire : String) (done : Done)
  /-- `finished` sent its Done. -/
  | reported (wire : String) (done : Done)
  deriving DecidableEq

/-- A call of `build` that was admitted and did not attach. -/
structure Owner where
  drvPath : String
  shared : SharedId
  assignId : ℕ
  phase : Phase := .building
  deriving DecidableEq

/-- The builder and its threads. -/
structure Bench where
  builder : Builder := {}
  tasks : List Task := []
  /-- All calls that ever owned a build. -/
  owners : List Owner := []

/-- What may happen next. -/
inductive Act
  | onExpect (drvPath : String) (assignId : ℕ)
  | onRevoke (drvPath : String)
  | claim (drvPath : String)
  | admission (drvPath : String)
  /-- An owner calls `finished`. -/
  | finished (index : ℕ) (outcome : Outcome) (outputs : List (String × ℕ)) (wire : String) (reason : Reason)
  /-- The call of an owner to `finished` goes on. -/
  | proceed (index : ℕ)
  | setDraining (draining : Bool)
  | tick (now : ℚ)
  | greet
  /-- Another thread goes on. -/
  | resume (index : ℕ) (now : ℚ)

/-- A message, with the owner whose `finished` sent it. -/
abbrev Sent := Option ℕ × WorkerMsg

/-- The first step of `onExpect`. -/
def onExpect (drvPath : String) (assignId : ℕ) (b : Builder) : List Task :=
  if drvPath = "" then []
  else if b.draining then [.say (givenBack [(drvPath, assignId)] .draining)]
  else [.expect drvPath assignId]

/-- The Done of `finished`. -/
def doneOf (drvPath : String) (found : Option Expected) (outcome : Outcome) (outputs : List (String × ℕ))
    (reason : Reason) : Done where
  drvPath
  assignId := (found.map Expected.assignId).getD 0
  outcome
  outputs
  reason

/-- The next step of a thread: the builder after it, what was sent, and what the thread does then. -/
def Task.next (now : ℚ) (b : Builder) : Task → Builder × List WorkerMsg × List Task
  | .expect drvPath assignId => (b.expect drvPath assignId now, [], [])
  | .say [] => (b, [], [])
  | .say (msg :: msgs) => (b, [msg], [.say msgs])
  | .announce draining => (b, [.load draining], if draining then [.takeAll] else [])
  | .takeAll =>
    let (drvs, b) := b.takeUnclaimed fun _ => true
    (b, [], [.say (givenBack drvs .draining)])
  | .expire draining now =>
    let (drvs, b) := b.takeUnclaimed fun ent => draining || now - ent.since > expectTimeout
    (b, [], [.say (givenBack drvs (if draining then .draining else .unreachable))])
  | .greet hel => (b, [.hello hel], [.greeted])
  | .greeted => (b, [], if b.draining then [.say [.load true]] else [])

/-- One step of one thread, with what is sent. -/
def Act.perform (opts : Options) (w : Bench) : Act → Option (Bench × List Sent)
  | .onExpect drvPath assignId => some ({ w with tasks := w.tasks ++ w.builder.onExpect drvPath assignId }, [])
  | .onRevoke drvPath =>
    let (cancelled, builder) := w.builder.revoke drvPath
    some
      ({ w with
          builder
          tasks := w.tasks ++ (cancelled.map fun assignId =>
            Task.say [.done { drvPath, assignId, outcome := .cancelled }]).toList }, [])
  | .claim drvPath => some ({ w with builder := w.builder.claim drvPath }, [])
  | .admission drvPath =>
    let (adm, builder) := w.builder.admission drvPath
    let owned := (adm.filter fun adm => !adm.attach).map fun adm =>
      ({ drvPath, shared := adm.shared, assignId := adm.assignId } : Owner)
    some ({ w with builder, owners := w.owners ++ owned.toList }, [])
  | .finished index outcome outputs wire reason =>
    match w.owners[index]? with
    | some owner =>
      match owner.phase with
      | .building =>
        let (found, builder) := w.builder.take owner.drvPath
        let phase := .taken (found.map Expected.shared) wire (doneOf owner.drvPath found outcome outputs reason)
        some ({ w with builder, owners := w.owners.set index { owner with phase } }, [])
      | _ => none
    | none => none
  | .proceed index =>
    match w.owners[index]? with
    | some owner =>
      match owner.phase with
      | .taken shared wire done =>
        let builder := (shared.map fun shared => w.builder.publish shared wire).getD w.builder
        some ({ w with builder, owners := w.owners.set index { owner with phase := .published wire done } }, [])
      | .published wire done =>
        some ({ w with owners := w.owners.set index { owner with phase := .reported wire done } },
          [(some index, .done done)])
      | _ => none
    | none => none
  | .setDraining draining =>
    if w.builder.draining = draining then some (w, [])
    else
      some ({ w with builder := { w.builder with draining }, tasks := w.tasks ++ [.announce draining] }, [])
  | .tick now => some ({ w with tasks := w.tasks ++ [.expire w.builder.draining now] }, [])
  | .greet => some ({ w with tasks := w.tasks ++ [.greet (w.builder.hello opts)] }, [])
  | .resume index now =>
    match w.tasks[index]? with
    | some task =>
      let (builder, msgs, rest) := task.next now w.builder
      some ({ w with builder, tasks := w.tasks.take index ++ rest ++ w.tasks.drop (index + 1) },
        msgs.map fun msg => (none, msg))
    | none => none

/-- The runs of a builder, with the messages that were sent. -/
abbrev Reached (opts : Options) : Bench → List Sent → Prop :=
  Run.Reached (fun w => w = {}) fun w sent w' => ∃ act : Act, act.perform opts w = some (w', sent)

end Builder

end NixGrpcStore
