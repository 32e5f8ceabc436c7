import NixGrpcStore.Dispatcher.WorkerSections
import NixGrpcStore.Lib.Run

/-!
# The dispatcher and its threads

The entry points of `Dispatcher` and the loops of its threads, cut where they take and release the
mutex.  A batch of a client is applied in chunks, by the thread of its stream or by one of the pool
that asks the cache; between two chunks anything may happen.  A run is a sequence of such calls, in
any order the threads allow.
-/

namespace NixGrpcStore

open Sched Remote StateExcept

namespace Dispatcher

/-- A batch that waits for a thread of the pool. -/
structure LookupJob where
  client : ClientId
  msgs : List ClientMsg
  deriving DecidableEq

/-- A batch that a thread applies. -/
structure Applying where
  client : ClientId
  /-- What is left of it, with whether the cache has what a message asks for. -/
  msgs : List (ClientMsg × Bool)
  /-- Applied by a thread of the pool, not by the thread of the stream. -/
  pooled : Bool
  deriving DecidableEq

end Dispatcher

/-- The dispatcher and what its threads are at. -/
structure Dispatcher where
  state : Dispatcher.State := {}
  lookupQueue : List Dispatcher.LookupJob := []
  applying : List Dispatcher.Applying := []
  /-- What ran after the mutex was released, newest first. -/
  released : List Dispatcher.Deferred := []

namespace Dispatcher

/-- A call of an entry point, or a round of a thread. -/
abbrev DispatcherM := EStateM Error Dispatcher

/-- Hold the mutex, and run what was deferred once it is released. -/
def withLock {α : Type} (m : LockedM α) : DispatcherM α :=
  onPart Dispatcher.state
    (fun x d => { x with state := { d with deferred := [] }, released := d.deferred ++ x.released }) m

/-! ## Batches of clients -/

/-- Only the shared cache counts; a worker-local output is answered by that worker. -/
def wantsLookup (want : Want) : Bool :=
  want.buildMode = 0 && want.outKeys ≠ [] && want.drvPath ≠ ""

/-- Whether the cache is asked about a message. -/
def needsLookup : ClientMsg → Bool
  | .want want => wantsLookup want
  | _ => false

/-- What the cache is asked about a message. -/
def lookupKeys : ClientMsg → List String
  | .want want => if wantsLookup want then want.outKeys else []
  | _ => []

/-- Whether the cache has all that a message asks for. -/
def cachedIn (found : List String) : ClientMsg → Bool
  | .want want => wantsLookup want && want.outKeys.all (· ∈ found)
  | _ => false

/-- One question to the cache for all Wants of a batch; which of them are cached.  The cache gives
no answer if the call throws. -/
def lookup (cfg : Config) (present : List String → Option (List String)) (msgs : List ClientMsg) :
    List Bool :=
  let keys := msgs.flatMap lookupKeys
  if cfg.present = false ∨ keys = [] then
    msgs.map fun _ => false
  else
    match present keys with
    | none => msgs.map fun _ => false
    | some found => msgs.map (cachedIn found)

/-- A thread starts to apply what is left of a batch. -/
def startApplying (job : Applying) : DispatcherM Unit :=
  if job.msgs = [] then
    pure ()
  else
    modify fun x => { x with applying := x.applying ++ [job] }

/-- A batch of a client goes to the pool, or is applied by the caller. -/
def clientMsgs (cfg : Config) (present : List String → Option (List String)) (client : ClientId)
    (msgs : List ClientMsg) : DispatcherM Unit :=
  if cfg.present ∧ msgs.any needsLookup ∧ cfg.lookupThreads ≠ 0 then
    modify fun x => { x with lookupQueue := x.lookupQueue ++ [{ client, msgs }] }
  else
    startApplying { client, msgs := msgs.zip (lookup cfg present msgs), pooled := false }

/-- A thread of the pool takes a batch. -/
def takeJob (cfg : Config) (present : List String → Option (List String)) : DispatcherM Unit := do
  match (← get).lookupQueue with
  | [] => pure ()
  | job :: queue => do
    modify fun x => { x with lookupQueue := queue }
    startApplying
      { client := job.client, msgs := job.msgs.zip (lookup cfg present job.msgs), pooled := true }

/-- The lock is released after so many messages, so that a large batch does not stall everyone. -/
def chunk : ℕ := 256

/-- Apply the next chunk of a batch.  A batch that fails is dropped, and its stream ends. -/
def applyChunk (world : World) (cfg : Config) (index : ℕ) : DispatcherM Unit := do
  match (← get).applying[index]? with
  | none => pure ()
  | some job => do
    modify fun x => { x with applying := x.applying.eraseIdx index }
    if job.client ∈ (← get).state.gone then
      pure ()
    else
      let apply : DispatcherM Unit := do
        withLock (onClientMsgs world cfg job.client (job.msgs.take chunk))
        startApplying { job with msgs := job.msgs.drop chunk }
      if job.pooled then caught apply else apply

/-! ## Runs -/

/-- What may happen next. -/
inductive Call
  | connectClient
  | clientMsgs (client : ClientId) (msgs : List ClientMsg) (present : List String → Option (List String))
  | takeJob (present : List String → Option (List String))
  | applyChunk (index : ℕ)
  | clientGone (client : ClientId)
  | workerMsgs (sid : SessionId) (msgs : List WorkerMsg)
  | workerGone (sid : SessionId)
  /-- A round of the statistics thread, as far as it is more than metrics. -/
  | revokeOrphans
  | restarting
  | serving
  | watchMembership
  | unwatchMembership (watcher : ℕ)

/-- The call is made. -/
def Call.perform (world : World) (cfg : Config) : Call → DispatcherM Unit
  | .connectClient => do let _ ← withLock Dispatcher.connectClient; pure ()
  | .clientMsgs client msgs present => Dispatcher.clientMsgs cfg present client msgs
  | .takeJob present => Dispatcher.takeJob cfg present
  | .applyChunk index => Dispatcher.applyChunk world cfg index
  | .clientGone client => withLock (Dispatcher.clientGone world client)
  | .workerMsgs sid msgs => withLock (Dispatcher.workerMsgs world cfg sid msgs)
  | .workerGone sid => withLock (Dispatcher.workerGone world sid)
  | .revokeOrphans => withLock (Dispatcher.revokeOrphans world)
  | .restarting => withLock (Dispatcher.restarting world)
  | .serving => withLock Dispatcher.serving
  | .watchMembership => do let _ ← withLock Dispatcher.watchMembership; pure ()
  | .unwatchMembership watcher => withLock (Dispatcher.unwatchMembership watcher)

/-- The thread of a client's stream is not applying a batch. -/
def streamIdle (x : Dispatcher) (client : ClientId) : Bool :=
  x.applying.all fun job => job.client ≠ client || job.pooled

/-- The threads are free to make the call. -/
def Call.allowed (cfg : Config) (x : Dispatcher) : Call → Bool
  | .clientMsgs client _ _ => client ∈ x.state.clients && streamIdle x client
  | .clientGone client => client ∈ x.state.clients && streamIdle x client
  | .takeJob _ => (x.applying.filter (·.pooled)).length < cfg.lookupThreads
  | _ => true

/-- A call that does not throw. -/
def Step (cfg : Config) (x : Dispatcher) (calls : List Call) (x' : Dispatcher) : Prop :=
  ∃ call world, calls = [call] ∧ call.allowed cfg x ∧ call.perform world cfg x = .ok () x'

/-- The states of the runs in which no call throws, with the calls that were made. -/
abbrev Reached (cfg : Config) : Dispatcher → List Call → Prop :=
  Run.Reached (fun x => ∃ config : Sched.Config, x = { state := { core := { cfg := config } } }) (Step cfg)

/-- Make the calls one after the other. -/
def runAll (cfg : Config) : List (World × Call) → Dispatcher → Option Dispatcher
  | [], x => some x
  | (world, call) :: calls, x =>
    if call.allowed cfg x then
      match call.perform world cfg x with
      | .ok _ x' => runAll cfg calls x'
      | .error _ _ => none
    else
      none

theorem reached_of_runAll {cfg : Config} {start : Dispatcher → Prop}
    {step : Dispatcher → List Call → Dispatcher → Prop} {x x' : Dispatcher} {made : List Call}
    {calls : List (World × Call)} (reached : Run.Reached start step x made)
    (steps : ∀ world call x x', (world, call) ∈ calls → call.allowed cfg x →
      call.perform world cfg x = .ok () x' → step x [call] x')
    (ran : runAll cfg calls x = some x') :
    Run.Reached start step x' (made ++ calls.map Prod.snd) := by
  induction calls generalizing x made with
  | nil =>
    cases ran
    simpa using reached
  | cons call calls ih =>
    obtain ⟨world, call⟩ := call
    rw [runAll] at ran
    split_ifs at ran with allowed
    cases performed : call.perform world cfg x with
    | error err failed =>
      rw [performed] at ran
      cases ran
    | ok _ mid =>
      rw [performed] at ran
      simpa using ih (.step reached (steps world call x mid List.mem_cons_self allowed performed))
        (fun world' call' y y' mem => steps world' call' y y' (List.mem_cons_of_mem _ mem)) ran

theorem Reached.runAll {cfg : Config} {x x' : Dispatcher} {made : List Call}
    {calls : List (World × Call)} (reached : Reached cfg x made)
    (ran : Dispatcher.runAll cfg calls x = some x') : Reached cfg x' (made ++ calls.map Prod.snd) :=
  reached_of_runAll reached
    (fun world call _ _ _ allowed performed => ⟨call, world, rfl, allowed, performed⟩) ran

/-- Surroundings in which every command is accepted and no time passes. -/
def World.obliging : World where
  delivers _ _ _ := true
  nowMs _ := 0
  order _ := default

/-- A scheduler without a shared cache. -/
def uncached : Config where
  defaultSystem := "x86_64-linux"
  defaultSystem_ne := by decide

/-- A worker connects, and a client that wants one derivation. -/
def onePlacement : List (World × Call) :=
  [(.obliging, .workerMsgs 0 [.hello { addr := "w0", systems := ["x86_64-linux"], maxJobs := 1 }]),
    (.obliging, .connectClient),
    (.obliging, .clientMsgs 1 [.want { drvPath := "a.drv" }] fun _ => none),
    (.obliging, .applyChunk 0)]

theorem onePlacement_reached :
    ∃ x ent, Reached uncached x (onePlacement.map Prod.snd) ∧ x.state.core.entry 0 = some ent ∧
      ent.worker = some 0 ∧ ent.followers = [1] ∧ x.state.clients = [1] := by
  have ends : (runAll uncached onePlacement {}).bind (fun x =>
      (x.state.core.entry 0).map fun ent => (ent.worker, ent.followers, x.state.clients)) =
      some (some 0, [1], [1]) := by
    decide +kernel
  obtain ⟨x, ran, found⟩ := Option.bind_eq_some_iff.mp ends
  obtain ⟨ent, live, shape⟩ := Option.map_eq_some_iff.mp found
  simp only [Prod.mk.injEq] at shape
  exact ⟨x, ent, Reached.runAll (.start ⟨{}, rfl⟩) ran, live, shape⟩

/-! ## What a call does -/

/-- Clients were given their numbers by the dispatcher. -/
structure Known (x : Dispatcher) : Prop where
  clients : ∀ client ∈ x.state.clients, client < x.state.nextClient
  queued : ∀ job ∈ x.lookupQueue, job.client < x.state.nextClient
  applied : ∀ job ∈ x.applying, job.client < x.state.nextClient

/-- Calls and surroundings that take no work off a worker. -/
structure Gentle (world : World) (call : Call) : Prop where
  expects : world.AcceptsExpects
  revokes : world.AcceptsRevokes
  stays : ∀ sid, call ≠ .workerGone sid
  busy : ∀ sid msgs done, call = .workerMsgs sid msgs → .done done ∉ msgs

/-- What a call may do to the state that the mutex guards. -/
structure Serves (lossy : Prop) (x x' : Dispatcher) : Prop where
  does : Does lossy x.state x'.state
  bound : IdsBound x'.state
  known : Known x'

section Calls

variable {lossy : Prop} {world : World} {cfg : Config} {x x' : Dispatcher}

theorem withLock_eq_ok {α : Type} {m : LockedM α} {a : α} (ran : withLock m x = .ok a x') :
    ∃ d, m x.state = .ok a d ∧
      x' = { x with state := { d with deferred := [] }, released := d.deferred ++ x.released } :=
  onPart_eq_ok.mp ran

variable {d d' : State}

theorem withLock_of_ok {α : Type} {m : LockedM α} {a : α} (ran : m x.state = .ok a d) :
    withLock m x = .ok a { x with state := { d with deferred := [] }, released := d.deferred ++ x.released } :=
  onPart_of_ok ran

theorem withLock_of_error {α : Type} {m : LockedM α} {err : Error}
    (failed : m x.state = .error err d) :
    withLock m x = .error err
      { x with state := { d with deferred := [] }, released := d.deferred ++ x.released } := by
  rw [withLock, onPart, failed]

theorem after_withLock {α : Type} (m : LockedM α) (x : Dispatcher) :
    after (withLock m x) =
      { x with
        state := { after (m x.state) with deferred := [] }
        released := (after (m x.state)).deferred ++ x.released } := by
  unfold withLock onPart
  cases m x.state <;> rfl

theorem startApplying_ok (job : Applying) (x : Dispatcher) :
    ∃ x', startApplying job x = .ok () x' ∧ x'.state = x.state ∧ x'.released = x.released := by
  unfold startApplying
  split_ifs
  · exact ⟨_, rfl, rfl, rfl⟩
  · exact ⟨_, rfl, rfl, rfl⟩

theorem startApplying_state (job : Applying) (x : Dispatcher) :
    (after (startApplying job x)).state = x.state := by
  obtain ⟨x', ran, state_eq, -⟩ := startApplying_ok job x
  rw [ran]
  exact state_eq

/-- What concerns the workers and what was said stays as it is. -/
structure Idles (d d' : State) : Prop where
  core_eq : d'.core = d.core
  workers_eq : d'.workers = d.workers
  orphans_eq : d'.orphans = d.orphans
  published_eq : d'.published = d.published
  ids_eq : d'.ids = d.ids
  log_eq : d'.log = d.log

/-- The section that a call runs, if it runs one that matters to the workers. -/
inductive Call.Runs (world : World) (cfg : Config) (x : Dispatcher) : Call → LockedM Unit → Prop
  | chunk {index : ℕ} {job : Applying} (found : x.applying[index]? = some job) :
    Runs world cfg x (.applyChunk index) (onClientMsgs world cfg job.client (job.msgs.take chunk))
  | clientGone (client : ClientId) : Runs world cfg x (.clientGone client) (Dispatcher.clientGone world client)
  | workerMsgs (sid : SessionId) (msgs : List WorkerMsg) :
    Runs world cfg x (.workerMsgs sid msgs) (Dispatcher.workerMsgs world cfg sid msgs)
  | workerGone (sid : SessionId) : Runs world cfg x (.workerGone sid) (Dispatcher.workerGone world sid)
  | revokeOrphans : Runs world cfg x .revokeOrphans (Dispatcher.revokeOrphans world)
  | restarting : Runs world cfg x .restarting (Dispatcher.restarting world)

/-- What a call leaves, also if it throws. -/
theorem Call.outcome (call : Call) (world : World) (cfg : Config) (x : Dispatcher) :
    (∃ x', call.perform world cfg x = .ok () x' ∧ Idles x.state x'.state) ∨
      ∃ m, call.Runs world cfg x m ∧
        (after (call.perform world cfg x)).state = { after (m x.state) with deferred := [] } ∧
        (after (call.perform world cfg x)).released = (after (m x.state)).deferred ++ x.released := by
  have idles : ∀ {x' : Dispatcher}, x'.state = x.state → Idles x.state x'.state := by
    intro x' state_eq
    rw [state_eq]
    exact ⟨rfl, rfl, rfl, rfl, rfl, rfl⟩
  have locked : ∀ {m : LockedM Unit}, call.Runs world cfg x m → call.perform world cfg = withLock m →
      ∃ m, call.Runs world cfg x m ∧
        (after (call.perform world cfg x)).state = { after (m x.state) with deferred := [] } ∧
        (after (call.perform world cfg x)).released = (after (m x.state)).deferred ++ x.released := by
    intro m runs perform_eq
    refine ⟨m, runs, ?_⟩
    rw [perform_eq, after_withLock]
    exact ⟨rfl, rfl⟩
  cases call with
  | clientMsgs client msgs present =>
    left
    rw [Call.perform, Dispatcher.clientMsgs]
    split_ifs
    · exact ⟨_, rfl, idles rfl⟩
    · obtain ⟨x', ran, state_eq, -⟩ := startApplying_ok
        { client, msgs := msgs.zip (lookup cfg present msgs), pooled := false } x
      exact ⟨x', ran, idles state_eq⟩
  | takeJob present =>
    left
    rw [Call.perform, Dispatcher.takeJob, bind_get_apply]
    cases x.lookupQueue with
    | nil => exact ⟨_, rfl, idles rfl⟩
    | cons job queue =>
      obtain ⟨x', ran, state_eq, -⟩ := startApplying_ok
        { client := job.client, msgs := job.msgs.zip (lookup cfg present job.msgs), pooled := true }
        { x with lookupQueue := queue }
      exact ⟨x', ran, idles state_eq⟩
  | applyChunk index =>
    rw [Call.perform, Dispatcher.applyChunk, bind_get_apply]
    cases found : x.applying[index]? with
    | none => exact .inl ⟨_, rfl, idles rfl⟩
    | some job =>
      simp only [bind_modify_apply, bind_get_apply]
      -- what is left of the batch is not part of the state
      have chunked : ∀ next, next = after ((do
          withLock (onClientMsgs world cfg job.client (job.msgs.take chunk))
          startApplying { job with msgs := job.msgs.drop chunk }) { x with applying := x.applying.eraseIdx index }) →
          next.state = { after (onClientMsgs world cfg job.client (job.msgs.take chunk) x.state) with deferred := [] } ∧
          next.released =
            (after (onClientMsgs world cfg job.client (job.msgs.take chunk) x.state)).deferred ++ x.released := by
        rintro next rfl
        have left := after_withLock (onClientMsgs world cfg job.client (job.msgs.take chunk))
          { x with applying := x.applying.eraseIdx index }
        cases ran : withLock (onClientMsgs world cfg job.client (job.msgs.take chunk))
          { x with applying := x.applying.eraseIdx index } with
        | error err next =>
          rw [ran, after_error] at left
          rw [bind_of_error ran, after_error, left]
          exact ⟨rfl, rfl⟩
        | ok _ next =>
          rw [ran, after_ok] at left
          obtain ⟨x', started, state_eq, released_eq⟩ := startApplying_ok { job with msgs := job.msgs.drop chunk } next
          rw [bind_of_ok ran, started, after_ok, state_eq, released_eq, left]
          exact ⟨rfl, rfl⟩
      split_ifs with gone pooled
      · exact .inl ⟨_, rfl, idles rfl⟩
      · exact .inr ⟨_, .chunk found, chunked _ rfl⟩
      · exact .inr ⟨_, .chunk found, chunked _ rfl⟩
  | clientGone client => exact .inr (locked (.clientGone client) rfl)
  | workerMsgs sid msgs => exact .inr (locked (.workerMsgs sid msgs) rfl)
  | workerGone sid => exact .inr (locked (.workerGone sid) rfl)
  | revokeOrphans => exact .inr (locked .revokeOrphans rfl)
  | restarting => exact .inr (locked .restarting rfl)
  | connectClient => exact .inl ⟨_, rfl, rfl, rfl, rfl, rfl, rfl, rfl⟩
  | serving => exact .inl ⟨_, rfl, rfl, rfl, rfl, rfl, rfl, rfl⟩
  | watchMembership => exact .inl ⟨_, rfl, rfl, rfl, rfl, rfl, rfl, rfl⟩
  | unwatchMembership watcher => exact .inl ⟨_, rfl, rfl, rfl, rfl, rfl, rfl, rfl⟩

/-- A section seen from the call that runs it. -/
theorem serves_of_does {queue : List LookupJob} {applying : List Applying}
    {released : List Deferred} (known : Known x) (does : Does lossy x.state d) (bound : IdsBound d)
    (queued : ∀ job ∈ queue, job.client < x.state.nextClient)
    (applied : ∀ job ∈ applying, job.client < x.state.nextClient) :
    Serves lossy x
      { state := { d with deferred := [] }, lookupQueue := queue, applying, released } := by
  have later := moves_nextClient does.moves
  refine ⟨⟨does.inv, does.flags, does.moves⟩, bound, moves_clients does.moves known.clients, ?_, ?_⟩
  · exact fun job mem => (queued job mem).trans_le later
  · exact fun job mem => (applied job mem).trans_le later

theorem IdsBound.of_samePeers (bound : IdsBound d) (does : Does lossy d d')
    (peers : SamePeers d d') : IdsBound d' :=
  bound.of_moves does.moves fun _ _ is_wid => peers.ids_eq ▸ is_wid

theorem Talks.does (talks : Talks d d') (inv : d.core.Inv) (flags : FlagsOff d.core ∅) :
    Does lossy d d' := by
  obtain ⟨said, said_eq, quiet⟩ := talks.log_eq
  refine ⟨talks.core_eq ▸ inv, talks.core_eq ▸ flags, ?_⟩
  rw [State.stage, State.stage, talks.core_eq, talks.clients_eq, talks.workers_eq, talks.nextClient_eq, said_eq]
  exact moves_of_quiet (d.stage ∅) quiet

theorem connectClient_does {client : ClientId} (inv : d.core.Inv) (flags : FlagsOff d.core ∅)
    (ran : Dispatcher.connectClient d = .ok client d') : Does lossy d d' := by
  cases ran
  exact ⟨inv, flags, .single (Move.connect (d.stage ∅))⟩

theorem startApplying_serves {job : Applying} {queue : List LookupJob} (inv : x.state.core.Inv)
    (flags : FlagsOff x.state.core ∅) (bound : IdsBound x.state) (known : Known x)
    (queued : ∀ job ∈ queue, job.client < x.state.nextClient)
    (own : job.client < x.state.nextClient)
    (ran : startApplying job { x with lookupQueue := queue } = .ok () x') : Serves lossy x x' := by
  unfold startApplying at ran
  split_ifs at ran
  · cases ran
    exact ⟨Does.refl inv flags, bound, known.clients, queued, known.applied⟩
  · cases ran
    refine ⟨Does.refl inv flags, bound, known.clients, queued, fun other mem => ?_⟩
    rcases List.mem_append.mp mem with mem | mem
    · exact known.applied other mem
    · rw [List.mem_singleton.mp mem]
      exact own

theorem Serves.trans {x'' : Dispatcher} (first : Serves lossy x x') (second : Serves lossy x' x'') :
    Serves lossy x x'' :=
  ⟨first.does.trans second.does, second.bound, second.known⟩

/-- A chunk and what is left of its batch.  The table may be full, and then the rest is dropped. -/
theorem chunk_serves {job : Applying} (inv : x.state.core.Inv) (flags : FlagsOff x.state.core ∅)
    (bound : IdsBound x.state) (known : Known x) (own : job.client < x.state.nextClient)
    (ready : lossy ∨ world.AcceptsExpects ∧ Seated x.state.core x.state.workers)
    (msgs : List (ClientMsg × Bool)) :
    Serves lossy x
      (after ((do withLock (onClientMsgs world cfg job.client msgs); startApplying job) x)) := by
  obtain ⟨d, ran, does, -⟩ := @onClientMsgs_eq lossy world cfg _ _ inv flags own ready msgs
  have peers : SamePeers x.state d := by
    have kept := @samePeers_onClientMsgs world cfg job.client msgs
    exact ran.elim kept.ok kept.error
  have serves : Serves lossy x
      { x with state := { d with deferred := [] }, released := d.deferred ++ x.released } :=
    serves_of_does known does (bound.of_samePeers does peers) known.queued known.applied
  rcases ran with ran | ran
  · rw [bind_of_ok (withLock_of_ok ran)]
    have started : ∃ next, startApplying job
        { x with state := { d with deferred := [] }, released := d.deferred ++ x.released } =
          .ok () next := by
      unfold startApplying
      split_ifs
      · exact ⟨_, rfl⟩
      · exact ⟨_, rfl⟩
    obtain ⟨next, started⟩ := started
    rw [started]
    exact serves.trans (startApplying_serves does.inv does.flags serves.bound serves.known
      serves.known.queued (peers.nextClient_eq ▸ own) started)
  · rw [bind_of_error (withLock_of_error ran)]
    exact serves

theorem applyChunk_serves {index : ℕ} (inv : x.state.core.Inv) (flags : FlagsOff x.state.core ∅)
    (bound : IdsBound x.state) (known : Known x)
    (ready : lossy ∨ world.AcceptsExpects ∧ Seated x.state.core x.state.workers) :
    Serves lossy x (after (Dispatcher.applyChunk world cfg index x)) := by
  rw [Dispatcher.applyChunk, bind_get_apply]
  cases found : x.applying[index]? with
  | none => exact ⟨Does.refl inv flags, bound, known⟩
  | some job =>
    have erased : Known { x with applying := x.applying.eraseIdx index } :=
      ⟨known.clients, known.queued, fun other mem => known.applied other (List.mem_of_mem_eraseIdx mem)⟩
    have serves := @chunk_serves lossy world cfg
      { x with applying := x.applying.eraseIdx index } { job with msgs := job.msgs.drop chunk }
      inv flags bound erased (known.applied job (List.mem_of_getElem? found)) ready
      (job.msgs.take chunk)
    have same : Serves lossy x { x with applying := x.applying.eraseIdx index } :=
      ⟨Does.refl inv flags, bound, erased⟩
    simp only [bind_modify_apply, bind_get_apply]
    split_ifs
    · exact same
    · exact same.trans serves
    · exact same.trans serves

/-- Every call is made of moves. -/
theorem Call.serves {call : Call} (inv : x.state.core.Inv) (flags : FlagsOff x.state.core ∅)
    (bound : IdsBound x.state) (known : Known x) (allowed : call.allowed cfg x)
    (gentle : lossy ∨ Gentle world call ∧ Seated x.state.core x.state.workers)
    (ran : call.perform world cfg x = .ok () x') : Serves lossy x x' := by
  have ready : lossy ∨ world.AcceptsExpects ∧ Seated x.state.core x.state.workers :=
    gentle.imp id fun calm => ⟨calm.1.expects, calm.2⟩
  have talks : ∀ {d : State}, Talks x.state d → SamePeers x.state d →
      x' = { x with state := { d with deferred := [] }, released := d.deferred ++ x.released } →
      Serves lossy x x' := by
    rintro d talk peers rfl
    exact serves_of_does known (talk.does inv flags) (bound.of_samePeers (talk.does inv flags : Does lossy _ _) peers)
      known.queued known.applied
  cases call with
  | connectClient =>
    obtain ⟨client, mid, locked, rest⟩ := bind_eq_ok.mp ran
    cases rest
    obtain ⟨d, opened, rfl⟩ := withLock_eq_ok locked
    have does : Does lossy x.state d := connectClient_does inv flags opened
    refine serves_of_does known does ?_ known.queued known.applied
    cases opened
    exact bound
  | clientMsgs client msgs present =>
    have own : client < x.state.nextClient := by
      simp only [Call.allowed, Bool.and_eq_true, decide_eq_true_eq] at allowed
      exact known.clients client allowed.1
    rw [Call.perform, Dispatcher.clientMsgs] at ran
    split_ifs at ran
    · cases ran
      refine ⟨Does.refl inv flags, bound, known.clients, fun job mem => ?_, known.applied⟩
      rcases List.mem_append.mp mem with mem | mem
      · exact known.queued job mem
      · rw [List.mem_singleton.mp mem]
        exact own
    · exact startApplying_serves inv flags bound known known.queued own ran
  | takeJob present =>
    rw [Call.perform, Dispatcher.takeJob, bind_get_apply] at ran
    cases queue_eq : x.lookupQueue with
    | nil =>
      rw [queue_eq] at ran
      cases ran
      exact ⟨Does.refl inv flags, bound, known⟩
    | cons job queue =>
      simp only [queue_eq, bind_modify_apply] at ran
      refine startApplying_serves inv flags bound known (fun other mem => ?_) ?_ ran
      · exact known.queued other (queue_eq ▸ List.mem_cons_of_mem job mem)
      · exact known.queued job (queue_eq ▸ List.mem_cons_self)
  | applyChunk index =>
    have serves := @applyChunk_serves lossy world cfg x index inv flags bound known ready
    rw [Call.perform] at ran
    rwa [ran] at serves
  | clientGone client =>
    obtain ⟨d, left, rfl⟩ := withLock_eq_ok ran
    obtain ⟨next, left', does, ids_eq, -⟩ := @clientGone_eq lossy world _ inv flags client
    cases left'.symm.trans left
    exact serves_of_does known does (bound.of_moves does.moves fun _ _ is_wid => ids_eq ▸ is_wid)
      known.queued known.applied
  | workerMsgs sid msgs =>
    obtain ⟨d, heard, rfl⟩ := withLock_eq_ok ran
    obtain ⟨does, d_bound⟩ := workerMsgs_does inv flags bound
      (gentle.imp id fun calm => ⟨calm.1.revokes, fun done => calm.1.busy sid msgs done rfl⟩) ready heard
    exact serves_of_does known does d_bound known.queued known.applied
  | workerGone sid =>
    have loss : lossy := gentle.resolve_right fun calm => calm.1.stays sid rfl
    obtain ⟨d, left, rfl⟩ := withLock_eq_ok ran
    obtain ⟨does, d_bound⟩ := workerGone_does loss inv flags bound left
    exact serves_of_does known does d_bound known.queued known.applied
  | revokeOrphans =>
    obtain ⟨d, revoked, state_eq⟩ := withLock_eq_ok ran
    exact talks (talks_revokeOrphans.ok revoked) (samePeers_revokeOrphans.ok revoked) state_eq
  | restarting =>
    obtain ⟨d, told, state_eq⟩ := withLock_eq_ok ran
    exact talks (talks_restarting.ok told) (framed_samePeers.restarting.ok told) state_eq
  | serving =>
    cases ran
    exact ⟨⟨inv, flags, .refl⟩, bound, known.clients, known.queued, known.applied⟩
  | watchMembership =>
    cases ran
    exact ⟨⟨inv, flags, .refl⟩, bound, known.clients, known.queued, known.applied⟩
  | unwatchMembership watcher =>
    cases ran
    exact ⟨⟨inv, flags, .refl⟩, bound, known.clients, known.queued, known.applied⟩

/-- Nothing has happened yet. -/
theorem serves_start (config : Sched.Config) :
    Serves lossy { state := { core := { cfg := config } } } { state := { core := { cfg := config } } } where
  does := Does.refl (Core.inv_empty config) fun drv _ ent live => by simp [Core.entry] at live
  bound _ _ is_wid := nomatch is_wid
  known := ⟨nofun, nofun, nofun⟩

/-- A run is made of moves. -/
theorem Reached.serves {calls : List Call} (reached : Reached cfg x calls) :
    ∃ config, Serves True { state := { core := { cfg := config } } } x := by
  refine reached.state_invariant
    (P := fun x => ∃ config, Serves True { state := { core := { cfg := config } } } x) ?_ ?_
  · rintro _ ⟨config, rfl⟩
    exact ⟨config, serves_start config⟩
  · rintro x _ x' ⟨config, serves⟩ ⟨call, world, -, allowed, ran⟩
    exact ⟨config, serves.trans (call.serves serves.does.inv serves.does.flags serves.bound serves.known
      allowed (.inl trivial) ran)⟩

end Calls

end Dispatcher

end NixGrpcStore
