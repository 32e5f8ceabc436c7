import NixGrpcStore.Remote
import NixGrpcStore.Sched.Core

/-!
# The dispatcher under its mutex

`Dispatcher` of `src/daemon/dispatcher.cc`: what each section that holds the mutex does.  Clients
and sessions are numbered, and a send closure is a place in the log: the log records what the
closures were called with, newest first, together with the messages that were taken in.  What the
surroundings answer (whether a closure accepts a command, the clock, the order in which a hash map
is visited) is a function of the log.  Metrics and log lines are left out.
-/

namespace NixGrpcStore.Dispatcher

open Sched Remote StateExcept

/-- Number of a WorkerSession stream. -/
abbrev SessionId := ℕ

/-- Longest name of a system, in bytes. -/
def maxSystemLen : ℕ := 64

/-- How long builds of a client that left keep running. -/
def orphanGraceMs : ℚ := 10000

/-- Settings of the dispatcher. -/
structure Config where
  /-- For Wants and Hellos with an empty or "builtin" system. -/
  defaultSystem : String
  /-- The scheduler's own system has a name. -/
  defaultSystem_ne : defaultSystem ≠ ""
  /-- Whether a shared cache is configured. -/
  present : Bool := false
  /-- Threads that ask the cache; none means the caller's thread asks. -/
  lookupThreads : ℕ := 32

/-- "builtin" runs anywhere and counts as the scheduler's own system. -/
def Config.systemFor (cfg : Config) (system : String) : String :=
  if system = "" ∨ system = "builtin" then cfg.defaultSystem else system

/-- How a Want is answered at once. -/
inductive Answer
  | restarting
  | cached
  | badSystem
  | tooManySystems
  /-- It goes to the core. -/
  | kept
  deriving DecidableEq

/-- What happened, as far as it can be seen from outside. -/
inductive Event
  /-- A message was handed to a client's send closure. -/
  | toClient (client : ClientId) (msg : SchedMsg)
  /-- A command was handed to a session's send closure, which accepted it or not. -/
  | toSession (sid : SessionId) (cmd : SchedCmd) (delivered : Bool)
  /-- A Want was taken in. -/
  | want (client : ClientId) (want : Want) (answer : Answer)
  /-- A Cancel was taken in. -/
  | cancel (client : ClientId) (drvPath : String)
  /-- A worker was registered by its Hello. -/
  | hello (sid : SessionId) (hel : Hello)
  /-- The core placed a derivation. -/
  | placed (asg : Assign) (drvPath : String)
  deriving DecidableEq

/-- What is queued to run after the mutex is released. -/
inductive Deferred
  /-- End the stream of a replaced session. -/
  | abort (sid : SessionId)
  /-- Tell a watcher that the membership changed. -/
  | wake (watcher : ℕ)
  deriving DecidableEq

/-- An assigned derivation whose last follower left. -/
structure Orphan where
  drv : DrvId
  assignId : ℕ
  dueMs : ℚ
  deriving DecidableEq

/-- A worker as the balancer sees it. -/
structure Member where
  addr : String
  draining : Bool
  deriving DecidableEq

/-- What the mutex guards, with the fields it guards in clients and sessions. -/
structure State where
  core : Core := {}
  /-- Clients that are connected. -/
  clients : List ClientId := []
  /-- The live session of each worker. -/
  workers : AList (fun _ : WorkerId => SessionId) := ∅
  lettingGo : Bool := false
  orphans : List Orphan := []
  watchers : List ℕ := []
  nextWatcher : ℕ := 1
  /-- The members of each system. -/
  published : String → List Member := fun _ => []
  nextClient : ClientId := 1
  /-- The field `gone` of a client. -/
  gone : List ClientId := []
  /-- The field `id` of a session. -/
  ids : SessionId → Option WorkerId := fun _ => none
  deferred : List Deferred := []
  log : List Event := []

/-- A section that holds the mutex. -/
abbrev LockedM := EStateM Error State

/-- Answers of the surroundings. -/
structure World where
  /-- Whether a send closure accepts a command. -/
  delivers : List Event → SessionId → SchedCmd → Bool
  nowMs : List Event → ℚ
  order : List Event → VisitOrder

/-- Run an operation of the core. -/
def onCore {α : Type} (m : CoreM α) : LockedM α := onPart State.core (fun d s => { d with core := s }) m

theorem after_onCore {α : Type} (m : CoreM α) (d : State) :
    after (onCore m d) = { d with core := after (m d.core) } :=
  after_onPart ..

/-- Record an event. -/
def note (event : Event) : LockedM Unit := modify fun d => { d with log := event :: d.log }

/-- Hand a message to a client's send closure. -/
def sendClient (client : ClientId) (msg : SchedMsg) : LockedM Unit := note (.toClient client msg)

/-- Hand a command to a session's send closure. -/
def sendSession (world : World) (sid : SessionId) (cmd : SchedCmd) : LockedM Bool := do
  let delivered := world.delivers (← get).log sid cmd
  note (.toSession sid cmd delivered)
  pure delivered

/-- Hand a message to each of the clients that is still connected. -/
def sendAll (msg : SchedMsg) : List ClientId → LockedM Unit
  | [] => pure ()
  | client :: clients => do
    if client ∈ (← get).clients then do
      sendClient client msg
      sendAll msg clients
    else
      sendAll msg clients

/-- Tell the followers of a derivation. -/
def sendToFollowers (drv : DrvId) (msg : SchedMsg) : LockedM Unit := do
  match ← onCore (Core.entryAt drv) with
  | none => pure ()
  | some ent => sendAll msg ent.followers

/-- Where a derivation is assigned. -/
def assignedMsg (drv : DrvId) : LockedM SchedMsg := do
  match ← onCore (Core.entryAt drv) with
  | none => pure .empty
  | some ent =>
    match ent.worker with
    | none => pure .empty
    | some wid => do
      let wkr ← onCore (Core.workerAt wid)
      pure (.assigned
        { drvPath := ent.drvPath
          workerAddr := wkr.addr
          assignId := ent.assignId
          workerSystem := wkr.systems.head?.getD "" })

/-- Why nobody can take a derivation. -/
def unplaceableMsg (s : Core) (ent : Entry) : SchedMsg :=
  .unplaceable ent.drvPath
    ("no connected, non-draining worker for system '" ++ ent.system ++ "' offers features \x7b"
      ++ ",".intercalate ent.features ++ "\x7d, the workers offer \x7b"
      ++ ",".intercalate (s.offeredFeatures ent.system) ++ "\x7d")

/-- Tell the followers of one entry what its flag says. -/
def tellFlag (drv : DrvId) : LockedM Unit := do
  match ← onCore (Core.entryAt drv) with
  | none => pure ()
  | some ent => do
    let s := (← get).core
    sendToFollowers drv (if ent.unplaceable then unplaceableMsg s ent else .placeable ent.drvPath)

/-- Tell the followers of each of the entries. -/
def tellFlags : List DrvId → LockedM Unit
  | [] => pure ()
  | drv :: drvs => do
    tellFlag drv
    tellFlags drvs

/-- After an event that changes which workers are usable: tell the followers of queued entries
whose answer flipped. -/
def placeabilityChangedLocked : LockedM Unit := do
  let changed ← onCore Core.placeabilityChanges
  tellFlags changed

/-- The workers that are up, in each system as often as they list it. -/
def membersOf (workers : List Worker) (system : String) : List Member :=
  workers.flatMap fun wkr =>
    if wkr.up then
      (wkr.systems.filter (· = system)).map fun _ => { addr := wkr.addr, draining := !wkr.takesWork }
    else
      []

/-- Wake whoever watches the membership. -/
def wakeWatchersLocked : LockedM Unit :=
  modify fun d => { d with deferred := (d.watchers.map .wake).reverse ++ d.deferred }

/-- Publish the membership. -/
def membershipChangedLocked : LockedM Unit := do
  modify fun d => { d with published := membersOf d.core.workers }
  wakeWatchersLocked

/-- A worker's stream died under us: requeue and let the next event retry. -/
def expectUndeliverable (wid : WorkerId) : LockedM Unit := do
  onCore (Core.workerGone wid)
  membershipChangedLocked
  modify fun d => { d with workers := d.workers.erase wid }
  placeabilityChangedLocked

/-- Hand an Expect to the live session of a worker. -/
def sendExpect (world : World) (wid : WorkerId) (cmd : SchedCmd) : LockedM Bool := do
  match (← get).workers.lookup wid with
  | none => pure false
  | some sid => sendSession world sid cmd

/-- Deliver one placement. -/
def deliver (world : World) (asg : Assign) : LockedM Unit := do
  match ← onCore (Core.entryAt asg.drv) with
  | none => pure ()
  | some ent => do
    note (.placed asg ent.drvPath)
    let _ ← onCore (Core.workerAt asg.worker)
    let delivered ← sendExpect world asg.worker (.expect ent.drvPath asg.assignId)
    if delivered then do
      let msg ← assignedMsg asg.drv
      sendToFollowers asg.drv msg
    else
      expectUndeliverable asg.worker

/-- Deliver all placements. -/
def deliverAll (world : World) : List Assign → LockedM Unit
  | [] => pure ()
  | asg :: out => do
    deliver world asg
    deliverAll world out

/-- Run dispatch and deliver Expect (first) and Assigned. -/
def dispatchLocked (world : World) : LockedM Unit := do
  let out ← onCore (Core.dispatch (world.order (← get).log))
  deliverAll world out

/-- Revoke a derivation on the live session of a worker. -/
def revokeOn (world : World) (wid : WorkerId) (drvPath : String) : LockedM Unit := do
  match (← get).workers.lookup wid with
  | none => pure ()
  | some sid => do
    let _ ← sendSession world sid (.revoke drvPath)
    pure ()

/-- The entry moved to a reconnecting worker that was already building it: stop the copy we
started and send its clients after the original. -/
def supersede (world : World) (sup : Superseded) : LockedM Unit := do
  match ← onCore (Core.entryAt sup.drv) with
  | none => pure ()
  | some ent => do
    let msg ← assignedMsg sup.drv
    sendToFollowers sup.drv msg
    match sup.loser with
    | none => pure ()
    | some loser => revokeOn world loser ent.drvPath

/-- Settle all moved entries. -/
def supersedeAll (world : World) : List Superseded → LockedM Unit
  | [] => pure ()
  | sup :: superseded => do
    supersede world sup
    supersedeAll world superseded

/-- Revoke the build of an orphan, unless it is followed or placed anew. -/
def revokeOrphan (world : World) (orphan : Orphan) : LockedM Unit := do
  match ← onCore (Core.entryAt orphan.drv) with
  | none => pure ()
  | some ent =>
    match ent.worker with
    | none => pure ()
    | some wid =>
      if ent.assignId = orphan.assignId ∧ ent.followers.isEmpty then
        revokeOn world wid ent.drvPath
      else
        pure ()

/-- Handle the orphans whose grace is over; the result is the rest. -/
def revokeDue (world : World) (now : ℚ) : List Orphan → LockedM (List Orphan)
  | [] => pure []
  | orphan :: orphans =>
    if now < orphan.dueMs then do
      let rest ← revokeDue world now orphans
      pure (orphan :: rest)
    else do
      revokeOrphan world orphan
      revokeDue world now orphans

/-- Revoke what nobody came back for in time. -/
def revokeOrphans (world : World) : LockedM Unit := do
  let d ← get
  let rest ← revokeDue world (world.nowMs d.log) d.orphans
  modify fun d => { d with orphans := rest }

/-! ## Clients -/

/-- A client opens its stream. -/
def connectClient : LockedM ClientId := do
  let d ← get
  set { d with nextClient := d.nextClient + 1, clients := d.nextClient :: d.clients }
  pure d.nextClient

/-- How a Want is answered at once. -/
def answerTo (cfg : Config) (d : State) (want : Want) (cached : Bool) : Answer :=
  if d.lettingGo then
    -- yielded while this batch waited for its lookup: go to the new leader
    .restarting
  else if cached then .cached
  else if maxSystemLen < want.system.utf8ByteSize then .badSystem
  else if !d.core.admitsSystem (cfg.systemFor want.system) then .tooManySystems
  else .kept

/-- What a Want says to the core. -/
def wantInfo (cfg : Config) (want : Want) : WantInfo where
  drvPath := want.drvPath
  inputs := want.inputs
  system := cfg.systemFor want.system
  features := want.requiredFeatures
  cpHintMs := want.cpHintMs

/-- Keep the Want of a derivation nobody can take: right after a restart no worker has said Hello
yet. -/
def tellUnplaceable (client : ClientId) (drv : DrvId) : LockedM Unit := do
  match ← onCore (Core.entryAt drv) with
  | none => pure ()
  | some ent => do
    let s := (← get).core
    if ent.worker = none ∧ s.placeableId drv = false then do
      onCore (Core.markUnplaceable drv true)
      sendClient client (unplaceableMsg s ent)
    else
      pure ()

/-- A Want that goes to the core. -/
def keepWant (world : World) (cfg : Config) (client : ClientId) (want : Want) : LockedM Unit := do
  let res ← onCore (Core.want client (wantInfo cfg want) (world.nowMs (← get).log))
  match res.assigned with
  | some _ => do
    let msg ← assignedMsg res.drv
    sendClient client msg
  | none => do
    dispatchLocked world
    tellUnplaceable client res.drv

/-- A client wants a derivation. -/
def onWant (world : World) (cfg : Config) (client : ClientId) (want : Want) (cached : Bool) :
    LockedM Unit :=
  if want.drvPath = "" then
    pure ()
  else do
    let answer := answerTo cfg (← get) want cached
    note (.want client want answer)
    match answer with
    | .restarting => sendClient client .restarting
    | .cached => sendClient client (.cached want.drvPath)
    | .badSystem =>
      sendClient client (.unplaceable want.drvPath ("bad system '" ++ want.system ++ "'"))
    | .tooManySystems =>
      sendClient client (.unplaceable want.drvPath
        ("too many systems no worker offers, not keeping '" ++ cfg.systemFor want.system ++ "'"))
    | .kept => keepWant world cfg client want

/-- A client no longer wants a derivation. -/
def onCancel (world : World) (client : ClientId) (drvPath : String) : LockedM Unit := do
  note (.cancel client drvPath)
  match ← onCore (Core.cancel client drvPath) with
  | none => pure ()
  | some wid => revokeOn world wid drvPath

/-- One message of a client, and whether the cache has what it asks for. -/
def onClientMsg (world : World) (cfg : Config) (client : ClientId) :
    ClientMsg × Bool → LockedM Unit
  | (.want want, cached) => onWant world cfg client want cached
  | (.cancel drvPath, _) => onCancel world client drvPath
  | (.empty, _) => pure ()

/-- The messages of one chunk, in order. -/
def onClientMsgs (world : World) (cfg : Config) (client : ClientId) :
    List (ClientMsg × Bool) → LockedM Unit
  | [] => pure ()
  | msg :: msgs => do
    onClientMsg world cfg client msg
    onClientMsgs world cfg client msgs

/-- Note an assigned derivation whose last follower left. -/
def addOrphan (world : World) (drv : DrvId) : LockedM Unit := do
  match ← onCore (Core.entryAt drv) with
  | none => pure ()
  | some ent =>
    modify fun d =>
      { d with
        orphans := d.orphans ++
          [{ drv, assignId := ent.assignId, dueMs := world.nowMs d.log + orphanGraceMs }] }

/-- Note all of them. -/
def addOrphans (world : World) : List (DrvId × WorkerId) → LockedM Unit
  | [] => pure ()
  | (drv, _) :: revokes => do
    addOrphan world drv
    addOrphans world revokes

/-- A client's stream ended. -/
def clientGone (world : World) (client : ClientId) : LockedM Unit := do
  modify fun d =>
    { d with gone := client :: d.gone, clients := d.clients.filter (· ≠ client) }
  let revokes ← onCore (Core.clientGone client)
  addOrphans world revokes

/-! ## Workers -/

/-- The systems of a Hello. -/
def systemsOf (cfg : Config) : List String → LockedM (List String)
  | [] => pure []
  | name :: names =>
    if maxSystemLen < name.utf8ByteSize then
      throw (.badSystem name)
    else do
      let systems ← systemsOf cfg names
      pure (cfg.systemFor name :: systems)

/-- A half-open older session must not take the new one down when it finally closes. -/
def detachOld (sid : SessionId) (wid : WorkerId) : LockedM Unit := do
  match (← get).workers.lookup wid with
  | none => pure ()
  | some old =>
    if old = sid then
      pure ()
    else
      modify fun d =>
        { d with ids := Function.update d.ids old none, deferred := .abort old :: d.deferred }

/-- What a Hello says to the core. -/
def helloInfo (hel : Hello) (systems : List String) : HelloInfo where
  addr := hel.addr
  systems
  features := hel.features
  maxJobs := hel.maxJobs
  running := hel.running

/-- Make a session the live one of its worker. -/
def seat (sid : SessionId) (hel : Hello) (wid : WorkerId) : LockedM Unit :=
  modify fun d =>
    { d with
      ids := Function.update d.ids sid (some wid)
      workers := d.workers.insert wid sid
      log := .hello sid hel :: d.log }

/-- A worker opens its session. -/
def onHello (world : World) (cfg : Config) (sid : SessionId) (hel : Hello) : LockedM Unit :=
  if hel.systems = [] then
    throw (.offersNoSystem hel.addr)
  else do
    let systems ← systemsOf cfg hel.systems
    let wid ← onCore (Core.workerId hel.addr)
    detachOld sid wid
    let (wid, superseded) ← onCore (Core.hello (helloInfo hel systems))
    seat sid hel wid
    membershipChangedLocked
    supersedeAll world superseded
    placeabilityChangedLocked

/-- A worker no longer holds a derivation. -/
def onDone (wid : WorkerId) (done : Done) : LockedM Unit :=
  match done.outcome with
  | .givenBack | .noShow => do
    onCore (Core.giveBack wid done.drvPath)
    -- its followers may have no worker left
    placeabilityChangedLocked
  | .built => onCore (Core.done wid done.drvPath done.outputs)
  | .failed | .cancelled => onCore (Core.done wid done.drvPath [])

/-- A worker starts or stops to refuse new work. -/
def onLoad (wid : WorkerId) (draining : Bool) : LockedM Unit := do
  onCore (Core.setDraining wid draining)
  membershipChangedLocked
  placeabilityChangedLocked

/-- One message of a session. -/
def workerMsgLocked (world : World) (cfg : Config) (sid : SessionId) : WorkerMsg → LockedM Unit
  | .hello hel => onHello world cfg sid hel
  | msg => do
    match (← get).ids sid with
    | none => throw .firstMessageNotHello
    | some wid =>
      match msg with
      | .done done => onDone wid done
      | .load draining => onLoad wid draining
      | _ => pure ()

/-- The messages of a batch, in order. -/
def workerMsgsLocked (world : World) (cfg : Config) (sid : SessionId) : List WorkerMsg → LockedM Unit
  | [] => pure ()
  | msg :: msgs => do
    workerMsgLocked world cfg sid msg
    workerMsgsLocked world cfg sid msgs

/-- A Hello. -/
def isHello : WorkerMsg → Bool
  | .hello _ => true
  | _ => false

/-- A batch from a session. -/
def workerMsgs (world : World) (cfg : Config) (sid : SessionId) : List WorkerMsg → LockedM Unit
  | [] => pure ()
  | first :: msgs => do
    if (← get).ids sid = none ∧ isHello first = false then
      throw .firstMessageNotHello
    else do
      workerMsgsLocked world cfg sid (first :: msgs)
      dispatchLocked world

/-- A session's stream ended. -/
def workerGone (world : World) (sid : SessionId) : LockedM Unit := do
  match (← get).ids sid with
  | none => pure ()
  | some wid => do
    onCore (Core.workerGone wid)
    modify fun d => { d with workers := d.workers.erase wid }
    membershipChangedLocked
    dispatchLocked world
    placeabilityChangedLocked
    modify fun d => { d with ids := Function.update d.ids sid none }

/-! ## Leadership and membership -/

/-- This node leads. -/
def serving : LockedM Unit := modify fun d => { d with lettingGo := false }

/-- Hand a command to each of the sessions. -/
def sendSessions (world : World) (cmd : SchedCmd) : List SessionId → LockedM Unit
  | [] => pure ()
  | sid :: sids => do
    let _ ← sendSession world sid cmd
    sendSessions world cmd sids

/-- Tell every connected peer that the streams are about to close on purpose. -/
def restarting (world : World) : LockedM Unit := do
  modify fun d => { d with lettingGo := true }
  wakeWatchersLocked
  let d ← get
  sendAll .restarting d.clients
  sendSessions world .restarting (d.workers.entries.map Sigma.snd)

/-- Register a watcher of the membership. -/
def watchMembership : LockedM ℕ := do
  let d ← get
  set { d with nextWatcher := d.nextWatcher + 1, watchers := d.watchers ++ [d.nextWatcher] }
  pure d.nextWatcher

/-- Forget a watcher. -/
def unwatchMembership (watcher : ℕ) : LockedM Unit :=
  modify fun d => { d with watchers := d.watchers.filter (· ≠ watcher) }

end NixGrpcStore.Dispatcher
