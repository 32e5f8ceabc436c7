import NixGrpcStore.Lib.StateExcept
import NixGrpcStore.Sched.Systems

/-!
# The placement core

`sched::Core` of `src/daemon/scheduler.hh`, function by function.  The core is a record and its
operations are computations over it that may throw; what they wrote before a throw stays.
Containers that are only looked up by key are association lists.
-/

namespace NixGrpcStore.Sched

open StateExcept

/-- The state of the placement core. -/
structure Core where
  cfg : Config := {}
  /-- Live entries only. -/
  drvIds : AList (fun _ : PathKey => DrvId) := ∅
  /-- Slots for reuse; the back of the source's vector comes first. -/
  freeIds : List DrvId := []
  workerIds : AList (fun _ : String => WorkerId) := ∅
  entries : List (Option Entry) := []
  workers : List Worker := []
  workersUp : ℕ := 0
  systems : Systems := ∅
  follows : AList (fun _ : ClientId => List DrvId) := ∅
  /-- Output path to who built it last, for input locality. -/
  lastBuilder : AList (fun _ : PathKey => WorkerId × ℕ) := ∅
  lastAssignId : ℕ := 0

/-- An operation of the core. -/
abbrev CoreM := EStateM Error Core

/-- What a client says about a derivation it wants. -/
structure WantInfo where
  drvPath : String
  inputs : List String := []
  system : String
  features : List String := []
  cpHintMs : ℚ := 0

/-- The entry of a Want, and where it is assigned already. -/
structure WantResult where
  drv : DrvId
  assigned : Option (WorkerId × ℕ) := none

/-- What a worker says about itself. -/
structure HelloInfo where
  addr : String
  /-- First is the native one. -/
  systems : List String
  features : List String := []
  maxJobs : ℕ := 0
  /-- Running and expected derivations with their assignment. -/
  running : List (String × ℕ) := []

/-- A reported derivation that followers wait for, and the worker that loses it. -/
structure Superseded where
  drv : DrvId
  loser : Option WorkerId := none
  deriving DecidableEq

/-- A derivation `dispatch` could not place. -/
structure Skipped where
  system : String
  drv : DrvId
  key : ℚ

namespace Core

/-- Bound on the derivation table. -/
def maxEntries : ℕ := 2 ^ 22

/-- Bound on the locality table. -/
def maxLastBuilder : ℕ := 2 ^ 18

/-- Bound on systems that are wanted but offered by no worker. -/
def maxUnofferedSystems : ℕ := 16

/-- `entries.at(drv)` -/
def entryAt (drv : DrvId) : CoreM (Option Entry) := do
  match (← get).entries[drv]? with
  | some slot => pure slot
  | none => throw .outOfRange

/-- `workers.at(wid)` -/
def workerAt (wid : WorkerId) : CoreM Worker := do
  match (← get).workers[wid]? with
  | some wkr => pure wkr
  | none => throw .outOfRange

/-- Write a slot of the derivation table. -/
def setEntry (drv : DrvId) (slot : Option Entry) : CoreM Unit :=
  modify fun s => { s with entries := s.entries.set drv slot }

/-- Write a slot of the worker table. -/
def setWorker (wid : WorkerId) (wkr : Worker) : CoreM Unit :=
  modify fun s => { s with workers := s.workers.set wid wkr }

/-- Change queues and free-slot indexes. -/
def onSystems (change : Systems → Except Error Systems) : CoreM Unit := fun s =>
  match change s.systems with
  | .ok systems => .ok () { s with systems }
  | .error err => .error err s

/-- A slot for a new derivation, reused if possible. -/
def takeId : CoreM DrvId := do
  let s ← get
  match s.freeIds with
  | drv :: freeIds => do
    set { s with freeIds }
    pure drv
  | [] =>
    if maxEntries ≤ s.entries.length then
      throw .tableFull
    else do
      set { s with entries := s.entries ++ [none] }
      pure s.entries.length

/-- The slot of a derivation, allocated on first use. -/
def drvId (path : String) : CoreM DrvId := do
  match (← get).drvIds.lookup (PathKey.ofPath path) with
  | some drv => pure drv
  | none => do
    let drv ← takeId
    modify fun s => { s with drvIds := s.drvIds.insert (PathKey.ofPath path) drv }
    pure drv

/-- The slot of a live derivation. -/
def findDrv (s : Core) (path : String) : Option DrvId := s.drvIds.lookup (PathKey.ofPath path)

/-- The slot of a worker, allocated on first use and kept for ever. -/
def workerId (addr : String) : CoreM WorkerId := do
  let s ← get
  match s.workerIds.lookup addr with
  | some wid => pure wid
  | none => do
    set
      { s with
        workers := s.workers ++ [({ addr } : Worker)]
        workerIds := s.workerIds.insert addr s.workers.length }
    pure s.workers.length

/-- Some worker, up or not, lists the system. -/
def offered (s : Core) (system : String) : Bool :=
  s.workers.any fun wkr => wkr.systems.contains system

/-- Count the free slots of a worker anew, in each system it lists. -/
def refreshFree (wid : WorkerId) : CoreM Unit := do
  let wkr ← workerAt wid
  let running : ℤ := (min wkr.running.length FreeIndex.maxSlots : ℕ)
  let val := if wkr.takesWork then wkr.maxJobs - running else 0
  onSystems fun sy => sy.setFreeAll wid val wkr.systems

/-- Queue an entry under its system. -/
def enqueue (drv : DrvId) (ent : Entry) : CoreM Unit := do
  let s ← get
  onSystems fun sy => sy.setKey ent.system drv (prio s.cfg ent)

/-- Take an entry out of its queue; a system that is empty and offered by nobody is forgotten. -/
def unqueue (drv : DrvId) (ent : Entry) : CoreM Unit := do
  if ent.system ∈ (← get).systems then
    onSystems fun sy => sy.eraseKey ent.system drv
    modify fun s =>
      if (s.systems.sys ent.system).queue.size = 0 ∧ ¬ s.offered ent.system then
        { s with systems := s.systems.drop ent.system }
      else
        s

/-- Entry is finished or abandoned: free the slot and its id for reuse. -/
def retire (drv : DrvId) : CoreM Unit := do
  match ← entryAt drv with
  | none => pure ()
  | some ent => do
    unqueue drv ent
    modify fun s =>
      { s with
        drvIds := s.drvIds.erase ent.pathKey
        entries := s.entries.set drv none
        freeIds := drv :: s.freeIds }

/-- The entry a Want creates, or the one it finds. -/
def wantedEntry (info : WantInfo) (nowMs : ℚ) : Option Entry → Entry
  | none =>
    { drvPath := info.drvPath
      inputs := info.inputs.map PathKey.ofPath
      system := info.system
      features := info.features
      enqMs := nowMs }
  | some ent =>
    -- known only from a worker's Hello so far
    if ent.system = "" then { ent with system := info.system, features := info.features } else ent

/-- Make a client a follower. -/
def follow (client : ClientId) (drv : DrvId) (ent : Entry) : CoreM Entry :=
  if client ∈ ent.followers then
    pure ent
  else do
    modify fun s =>
      { s with follows := s.follows.insert client ((s.follows.lookup client).getD [] ++ [drv]) }
    pure { ent with followers := ent.followers ++ [client] }

/-- A client wants a derivation that is not cached. -/
def want (client : ClientId) (info : WantInfo) (nowMs : ℚ) : CoreM WantResult := do
  let drv ← drvId info.drvPath
  let slot ← entryAt drv
  let ent ← follow client drv (wantedEntry info nowMs slot)
  let ent := { ent with cpHint := max ent.cpHint info.cpHintMs }
  setEntry drv (some ent)
  match ent.worker with
  | some wid => pure { drv, assigned := some (wid, ent.assignId) }
  | none => do
    enqueue drv ent
    pure { drv }

/-- A client no longer follows an entry.  The result is the worker to revoke on, if the last
follower left an assigned entry. -/
def cancelId (client : ClientId) (drv : DrvId) : CoreM (Option WorkerId) := do
  match ((← get).entries[drv]?).join with
  | none => pure none
  | some ent =>
    if client ∉ ent.followers then
      pure none
    else do
      let ent := { ent with followers := ent.followers.filter (· ≠ client) }
      setEntry drv (some ent)
      match ent.followers, ent.worker with
      | _ :: _, none => do
        enqueue drv ent
        pure none
      | _ :: _, some _ => pure none
      | [], none => do
        retire drv
        pure none
      | [], some wid => pure (some wid)

/-- A client no longer wants a derivation. -/
def cancel (client : ClientId) (drvPath : String) : CoreM (Option WorkerId) := do
  match (← get).findDrv drvPath with
  | none => pure none
  | some drv => cancelId client drv

/-- Cancel a list of ids and collect what is to be revoked. -/
def cancelAll (client : ClientId) : List DrvId → CoreM (List (DrvId × WorkerId))
  | [] => pure []
  | drv :: drvs => do
    let revoke ← cancelId client drv
    let revokes ← cancelAll client drvs
    pure ((revoke.map (drv, ·)).toList ++ revokes)

/-- A client left.  `follows` may name slots it no longer follows; these are skipped. -/
def clientGone (client : ClientId) : CoreM (List (DrvId × WorkerId)) := do
  match (← get).follows.lookup client with
  | none => pure []
  | some drvs => do
    modify fun s => { s with follows := s.follows.erase client }
    cancelAll client drvs

/-- Take a derivation off a worker's running list. -/
def release (wid : WorkerId) (drv : DrvId) : CoreM Unit := do
  let wkr ← workerAt wid
  setWorker wid { wkr with running := wkr.running.filter (· ≠ drv) }
  refreshFree wid

/-- Queue an entry that lost its worker, or drop it if nobody follows it. -/
def requeue (drv : DrvId) (ent : Entry) : CoreM Unit := do
  setEntry drv (some ent)
  if ent.followers.isEmpty then retire drv else enqueue drv ent

/-- Requeue what a worker left behind. -/
def requeueAll (wid : WorkerId) : List DrvId → CoreM Unit
  | [] => pure ()
  | drv :: drvs => do
    match ((← get).entries[drv]?).join with
    | some ent => if ent.worker = some wid then requeue drv { ent with worker := none }
    | none => pure ()
    requeueAll wid drvs

/-- Requeues what still has followers; a reconnecting worker's Hello reconciles. -/
def workerGone (wid : WorkerId) : CoreM Unit := do
  let wkr ← workerAt wid
  modify fun s =>
    { s with
      workersUp := if wkr.up then s.workersUp - 1 else s.workersUp
      workers := s.workers.set wid { wkr with up := false } }
  refreshFree wid
  modify fun s => { s with workers := s.workers.set wid { wkr with up := false, running := [] } }
  requeueAll wid wkr.running

/-- A worker that loses a derivation to the one that reports it. -/
def loseTo (wid : WorkerId) (drv : DrvId) (ent : Entry) : CoreM (Option Superseded) :=
  match ent.worker with
  | some other =>
    if other = wid then
      pure none
    else do
      -- placed since our restart, seconds old; the reporter is further along
      release other drv
      pure (some { drv, loser := some other })
  | none => pure (if ent.followers.isEmpty then none else some { drv })

/-- Take a derivation that a worker holds out of its queue and onto the running list. -/
def hold (wid : WorkerId) (drv : DrvId) (system : String) : CoreM Unit := do
  onSystems fun sy => sy.eraseKey system drv
  let wkr ← workerAt wid
  if drv ∉ wkr.running then
    setWorker wid { wkr with running := wkr.running ++ [drv] }

/-- A worker reports that it holds a derivation. -/
def adopt (wid : WorkerId) (path : String) (assignId : ℕ) : CoreM (Option Superseded) := do
  let drv ← drvId path
  let ent := (← entryAt drv).getD { drvPath := path }
  let superseded ← loseTo wid drv ent
  setEntry drv (some { ent with worker := some wid, assignId })
  hold wid drv ent.system
  pure superseded

/-- A worker reports everything it holds. -/
def adoptAll (wid : WorkerId) : List (String × ℕ) → CoreM (List Superseded)
  | [] => pure []
  | (path, assignId) :: running => do
    let first ← adopt wid path assignId
    let rest ← adoptAll wid running
    pure (first.toList ++ rest)

/-- Note what a worker that comes up says about itself. -/
def register (wid : WorkerId) (info : HelloInfo) : CoreM Unit := do
  let wkr ← workerAt wid
  modify fun s =>
    { s with
      workersUp := s.workersUp + 1
      workers := s.workers.set wid
        { wkr with
          up := true
          draining := false
          systems := info.systems
          features := info.features
          maxJobs := (min info.maxJobs FreeIndex.maxSlots : ℕ) } }
  onSystems fun sy => sy.pushAll wid info.systems

/-- The old session of a worker that says Hello again is gone. -/
def endOldSession (wid : WorkerId) : CoreM Unit := do
  if (← workerAt wid).up then
    workerGone wid

/-- A worker opens a session. -/
def hello (info : HelloInfo) : CoreM (WorkerId × List Superseded) :=
  if info.addr = "" then
    throw .helloWithoutAddr
  else do
    let wid ← workerId info.addr
    endOldSession wid
    register wid info
    let superseded ← adoptAll wid info.running
    refreshFree wid
    pure (wid, superseded)

/-- The locality table with one more output; on overflow the rest is dropped. -/
def remember (table : AList fun _ : PathKey => WorkerId × ℕ) (key : PathKey)
    (builder : WorkerId × ℕ) : AList fun _ : PathKey => WorkerId × ℕ :=
  if key ∈ table then table.insert key builder
  else if maxLastBuilder ≤ table.entries.length then AList.insert key builder ∅
  else table.insert key builder

/-- Remember who built an output. -/
def rememberBuilder (path : String) (wid : WorkerId) (size : ℕ) : CoreM Unit :=
  modify fun s => { s with lastBuilder := remember s.lastBuilder (PathKey.ofPath path) (wid, size) }

/-- Remember who built each output. -/
def rememberAll (wid : WorkerId) : List (String × ℕ) → CoreM Unit
  | [] => pure ()
  | (path, size) :: outputs => do
    rememberBuilder path wid size
    rememberAll wid outputs

/-- Take a derivation off a worker; if it was assigned there, see to its entry. -/
def takeOff (wid : WorkerId) (drv : DrvId) (next : Entry → CoreM Unit) : CoreM Unit := do
  release wid drv
  match ← entryAt drv with
  | some ent => if ent.worker = some wid then next ent
  | none => pure ()

/-- A worker finished a derivation. -/
def done (wid : WorkerId) (drvPath : String) (outputs : List (String × ℕ)) : CoreM Unit := do
  let _ ← workerAt wid
  rememberAll wid outputs
  match (← get).findDrv drvPath with
  | none => pure ()
  | some drv => takeOff wid drv fun _ => retire drv

/-- The worker can't run it after all: place it elsewhere. -/
def giveBack (wid : WorkerId) (drvPath : String) : CoreM Unit := do
  match (← get).findDrv drvPath with
  | none => pure ()
  | some drv =>
    takeOff wid drv fun ent => requeue drv { ent with worker := none, avoid := some wid }

/-- A worker starts or stops to refuse new work. -/
def setDraining (wid : WorkerId) (draining : Bool) : CoreM Unit := do
  let wkr ← workerAt wid
  setWorker wid { wkr with draining }
  refreshFree wid

/-! ## Placement -/

/-- The slot count of a worker, read in its native system. -/
def freeOf (s : Core) (wid : WorkerId) : ℤ :=
  match s.workers[wid]? with
  | none => 0
  | some wkr =>
    match wkr.systems.head? with
    | none => 0
    | some native => ((s.systems.lookup native).map fun st => st.free.get wid).getD 0

/-- The first of the eligible workers with most free slots. -/
def mostFree (eligible : WorkerId → Bool) (free : WorkerId → ℤ) :
    Option WorkerId → List WorkerId → Option WorkerId
  | best, [] => best
  | best, wid :: wids =>
    let better := eligible wid && (best.elim true fun old => decide (free old < free wid))
    mostFree eligible free (if better then some wid else best) wids

/-- A property of the worker in a slot. -/
def isWorker (s : Core) (wid : WorkerId) (holds : Worker → Bool) : Bool :=
  (s.workers[wid]?).any holds

/-- Most free among workers offering system and features. -/
def emptiestFor (s : Core) (ent : Entry) : Option WorkerId :=
  match s.systems.lookup ent.system with
  | none => none
  | some st =>
    if ent.features.isEmpty then
      st.free.emptiest
    else
      mostFree
        (fun wid => s.isWorker wid fun wkr =>
          wkr.up && decide (0 < st.free.get wid) && offers wkr ent)
        st.free.get none (List.range s.workers.length)

/-- Another worker than the one that gave the entry back takes work and offers it. -/
def isOther (s : Core) (ent : Entry) (wid : WorkerId) : Bool :=
  decide (some wid ≠ ent.avoid) && s.isWorker wid fun wkr => wkr.takesWork && offers wkr ent

/-- The worker it was given back by, if nobody else can run it. -/
def avoiding (s : Core) (ent : Entry) : Option WorkerId :=
  let wids := List.range s.workers.length
  let best := mostFree (fun wid => s.isOther ent wid && decide (0 < s.freeOf wid)) s.freeOf none wids
  if best.isSome || wids.any (s.isOther ent) then best else ent.avoid

/-- Add input bytes to a candidate's account. -/
def credit (wid : WorkerId) (size : ℚ) : List (WorkerId × ℚ) → List (WorkerId × ℚ)
  | [] => [(wid, size)]
  | (other, total) :: cands =>
    if other = wid then (other, total + size) :: cands else (other, total) :: credit wid size cands

/-- The last builder of an input may take the entry. -/
def isCandidate (s : Core) (ent : Entry) (wid : WorkerId) : Bool :=
  decide (some wid ≠ ent.avoid) &&
    s.isWorker wid fun wkr => wkr.up && decide (0 < s.freeOf wid) && offers wkr ent

/-- Credit the last builder of an input, if it may take the entry. -/
def addCandidate (s : Core) (ent : Entry) (cands : List (WorkerId × ℚ)) (input : PathKey) :
    List (WorkerId × ℚ) :=
  match s.lastBuilder.lookup input with
  | none => cands
  | some (wid, size) => if s.isCandidate ent wid then credit wid size cands else cands

/-- Workers that built inputs of the entry, with the bytes they hold. -/
def candidates (s : Core) (ent : Entry) : List (WorkerId × ℚ) :=
  ent.inputs.foldl (s.addCandidate ent) []

/-- Worth of a worker: input bytes it holds plus its free slots, as a share of the most free. -/
def score (s : Core) (best wid : WorkerId) (size : ℚ) : ℚ :=
  size + s.cfg.locLambda * s.freeOf wid / max 1 (s.freeOf best : ℚ)

/-- Locality may override the most free worker. -/
def preferred (s : Core) (best : WorkerId) :
    WorkerId → ℚ → List (WorkerId × ℚ) → WorkerId
  | picked, _, [] => picked
  | picked, bestScore, (wid, size) :: cands =>
    let scr := s.score best wid size
    if bestScore < scr then s.preferred best wid scr cands
    else s.preferred best picked bestScore cands

/-- The worker for an entry, if one can take it now. -/
def pick (s : Core) (ent : Entry) : Option WorkerId :=
  let best := s.emptiestFor ent
  let best := if best.isSome ∧ best = ent.avoid then s.avoiding ent else best
  best.map fun wid => s.preferred wid wid (s.score wid wid 0) (s.candidates ent)

/-- What `dispatchHead` did with the head of a queue. -/
inductive HeadResult
  | stale
  | skipped (skip : Skipped)
  | assigned (asg : Assign)

/-- Put an entry on a worker under a new assignment id. -/
def assign (drv : DrvId) (ent : Entry) (wid : WorkerId) : CoreM Assign := do
  let assignId := (← get).lastAssignId + 1
  modify fun s => { s with lastAssignId := assignId }
  setEntry drv (some { ent with worker := some wid, assignId })
  let wkr ← workerAt wid
  setWorker wid { wkr with running := wkr.running ++ [drv] }
  refreshFree wid
  pure { drv, worker := wid, assignId, clients := ent.followers }

/-- Place the head of one system's queue, or set it aside. -/
def dispatchHead (system : String) : CoreM HeadResult := do
  let drv := (((← get).systems.sys system).queue.top).getD 0
  onSystems fun sy => sy.eraseKey system drv
  match ← entryAt drv with
  | none => pure .stale
  | some ent =>
    if ent.followers.isEmpty ∨ ent.worker ≠ none then do
      if ent.followers.isEmpty ∧ ent.worker = none then
        retire drv
      pure .stale
    else do
      let s ← get
      match s.pick ent with
      | none => pure (.skipped { system, drv, key := prio s.cfg ent })
      | some wid => do
        let asg ← assign drv ent wid
        pure (.assigned asg)

/-- Keep the system whose head is most urgent, among those with a free slot. -/
def betterSystem (s : Core) (best : Option (String × ℚ)) (name : String) : Option (String × ℚ) :=
  match s.systems.lookup name with
  | none => best
  | some st =>
    match st.queue.topKey with
    | none => best
    | some key =>
      if 0 < st.free.maxFree ∧ best.elim true (fun old => decide (key < old.2)) then
        some (name, key)
      else
        best

/-- The system to serve next. -/
def bestSystem (s : Core) (order : VisitOrder) : Option (String × ℚ) :=
  (order.visit s.systems.keys).foldl s.betterSystem none

/-- The loop of `dispatch`.  Each round takes one entry out of a queue. -/
def dispatchLoop (order : VisitOrder) : ℕ → CoreM (List Assign × List Skipped)
  | 0 => pure ([], [])
  | rounds + 1 => do
    match (← get).bestSystem order with
    | none => pure ([], [])
    | some (system, _) => do
      let result ← dispatchHead system
      let (out, skipped) ← dispatchLoop order rounds
      match result with
      | .stale => pure (out, skipped)
      | .skipped skip => pure (out, skip :: skipped)
      | .assigned asg => pure (asg :: out, skipped)

/-- Put the skipped entries back. -/
def putBack : List Skipped → CoreM Unit
  | [] => pure ()
  | skip :: skipped => do
    onSystems fun sy => sy.setKey skip.system skip.drv skip.key
    putBack skipped

/-- Place what can be placed, across systems, so that the most urgent derivation wins. -/
def dispatch (order : VisitOrder) : CoreM (List Assign) := do
  let (out, skipped) ← dispatchLoop order (← get).entries.length
  putBack skipped
  pure out

/-! ## Placeability -/

/-- Some worker that takes work could ever run it. -/
def placeable (s : Core) (ent : Entry) : Bool :=
  s.workers.any fun wkr => wkr.takesWork && offers wkr ent

/-- As `placeable`, by slot. -/
def placeableId (s : Core) (drv : DrvId) : Bool := ((s.entries[drv]?).join).any s.placeable

/-- Features of the workers that take work and serve the system. -/
def offeredFeatures (s : Core) (system : String) : List String :=
  let feats := s.workers.flatMap fun wkr =>
    if wkr.takesWork && wkr.systems.contains system then wkr.features else []
  feats.dedup.insertionSort (· ≤ ·)

/-- What a follower was last told about a queued entry. -/
def markUnplaceable (drv : DrvId) (unplaceable : Bool) : CoreM Unit := do
  match ← entryAt drv with
  | some ent => setEntry drv (some { ent with unplaceable })
  | none => pure ()

/-- Answers of `placeable` by system and features. -/
abbrev Memo := AList fun _ : String × List String => Bool

/-- Flip the flag of each queued entry that no longer tells the truth. -/
def flipAll (can : Entry → Bool) : ℕ → Memo → List (Option Entry) →
    List (Option Entry) × List DrvId
  | _, _, [] => ([], [])
  | idx, memo, none :: slots =>
    let (slots, changed) := flipAll can (idx + 1) memo slots
    (none :: slots, changed)
  | idx, memo, some ent :: slots =>
    if ent.worker ≠ none ∨ ent.followers.isEmpty then
      let (slots, changed) := flipAll can (idx + 1) memo slots
      (some ent :: slots, changed)
    else
      let key := (ent.system, ent.features)
      let answer := (memo.lookup key).getD (can ent)
      let (slots, changed) := flipAll can (idx + 1) (memo.insert key answer) slots
      if ent.unplaceable = answer then
        (some { ent with unplaceable := !answer } :: slots, idx :: changed)
      else
        (some ent :: slots, changed)

/-- Queued entries whose placeability flipped since the followers were last told. -/
def placeabilityChanges : CoreM (List DrvId) := do
  let s ← get
  let (entries, changed) := flipAll s.placeable 0 ∅ s.entries
  set { s with entries }
  pure changed

/-- Right after a restart no worker has said Hello yet, so a Want for a system nobody offers is
kept, but only for a few such systems. -/
def admitsSystem (s : Core) (system : String) : Bool :=
  decide (system ∈ s.systems) ||
    decide ((s.systems.keys.countP fun name => !s.offered name) < maxUnofferedSystems)

end Core

end NixGrpcStore.Sched
