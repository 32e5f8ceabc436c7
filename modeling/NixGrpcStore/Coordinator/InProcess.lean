import NixGrpcStore.Builder.Model
import NixGrpcStore.Dispatcher.Declining

/-!
# The worker in the scheduler's own process

`Coordinator` of `src/daemon/coordinator.cc` on a node that schedules onto itself.  The send closure of
its session calls straight into the builder, on the thread that holds the mutex of the dispatcher, and
whatever the builder sends is a call of the dispatcher that takes this mutex.  So a delivery must not
make the builder send.  It does not as long as the scheduler knows that the builder drains before it
places anything: an Expect goes to a worker that takes work.
-/

namespace NixGrpcStore

open List (mem_append mem_append_left mem_map mem_singleton)
open Sched Remote StateExcept Dispatcher Builder

/-- The dispatcher, the builder, and the delivery under way. -/
structure Coordinator where
  dispatcher : Dispatcher := {}
  bench : Bench := {}
  /-- Commands that the section that holds the mutex still has to deliver. -/
  handing : List SchedCmd := []
  /-- What the builder does next inside a delivery. -/
  handling : Option Task := none
  /-- Revokes that have a thread of their own. -/
  spawned : List String := []

namespace Coordinator

/-- The session of the worker in this process. -/
def inProcess : SessionId := 0

/-- Its closure accepts every command. -/
def accepting (world : World) : World :=
  { world with delivers := fun log sid cmd => sid = inProcess || world.delivers log sid cmd }

/-- The commands that a section delivered to the worker in this process, oldest first. -/
def handed (before after : List Event) : List SchedCmd :=
  ((after.take (after.length - before.length)).filterMap fun event =>
    match event with
    | .toSession sid cmd _ => if sid = inProcess then some cmd else none
    | _ => none).reverse

/-- Whether a call takes the mutex of the dispatcher. -/
def locks : Call → Bool
  | .clientMsgs _ _ _ => false
  | .takeJob _ => false
  | _ => true

/-- Calls that the builder in this process makes itself. -/
def ofInProcess : Call → Bool
  | .workerMsgs sid _ => sid = inProcess
  | .workerGone sid => sid = inProcess
  | _ => false

/-- What comes through the session, and not from the node's own threads. -/
def ofSession : Act → Bool
  | .onExpect _ _ => true
  | .onRevoke _ => true
  | _ => false

/-- What may happen next. -/
inductive Move
  /-- A client, another session or a thread of the dispatcher calls. -/
  | call (call : Call) (world : World)
  /-- The section that holds the mutex delivers its next command. -/
  | hand
  /-- The builder goes on inside the delivery. -/
  | go (now : ℚ)
  /-- A thread of the builder goes on. -/
  | act (act : Act) (world : World)
  /-- The thread of a Revoke runs. -/
  | revoke (index : ℕ)

/-- Nobody holds the mutex of the dispatcher. -/
def unlocked (c : Coordinator) : Bool := c.handing.isEmpty && c.handling.isNone

/-- The thread ends that called the dispatcher when it threw. -/
def abandoned (bench : Bench) : Act → Bench
  | .resume index _ => { bench with tasks := bench.tasks.eraseIdx index }
  | _ => bench

/-- A thread of the builder sends a message. -/
def say (cfg : Dispatcher.Config) (world : World) (c : Coordinator) (act : Act) (bench : Bench) (msg : WorkerMsg) :
    Coordinator :=
  match Call.perform (accepting world) cfg (.workerMsgs inProcess [msg]) c.dispatcher with
  | .ok _ dispatcher =>
    { c with dispatcher, bench, handing := handed c.dispatcher.state.log dispatcher.state.log }
  | .error _ dispatcher =>
    { c with
      dispatcher
      bench := abandoned { bench with tasks := c.bench.tasks } act
      handing := handed c.dispatcher.state.log dispatcher.state.log }

/-- One step. -/
def Move.perform (cfg : Dispatcher.Config) (opts : Options) (c : Coordinator) : Move → Option Coordinator
  | .call made world =>
    if made.allowed cfg c.dispatcher && !ofInProcess made && (!locks made || c.unlocked) then
      let dispatcher := after (made.perform (accepting world) cfg c.dispatcher)
      some
        { c with
          dispatcher
          handing := c.handing ++ handed c.dispatcher.state.log dispatcher.state.log }
    else
      none
  | .hand =>
    match c.handling, c.handing with
    | none, .expect drvPath assignId :: handing =>
      some { c with handing, handling := (c.bench.builder.onExpect drvPath assignId).head? }
    | none, .revoke drvPath :: handing => some { c with handing, spawned := c.spawned ++ [drvPath] }
    | none, _ :: handing => some { c with handing }
    | _, _ => none
  | .go now =>
    match c.handling with
    | some task =>
      match task.next now c.bench.builder with
      | (builder, [], rest) => some { c with bench := { c.bench with builder }, handling := rest.head? }
      -- the thread asks for the mutex it holds
      | _ => none
    | none => none
  | .act deed world =>
    if ofSession deed then none
    else
      match deed.perform opts c.bench with
      | some (bench, []) => some { c with bench }
      | some (bench, (_, msg) :: _) => if c.unlocked then some (say cfg world c deed bench msg) else none
      | none => none
  | .revoke index =>
    match c.spawned[index]? with
    | some drvPath =>
      (Act.perform opts c.bench (.onRevoke drvPath)).map fun done =>
        { c with bench := done.1, spawned := c.spawned.eraseIdx index }
    | none => none

/-- The runs of a node that schedules onto itself. -/
abbrev Reached (cfg : Dispatcher.Config) (opts : Options) : Coordinator → List Move → Prop :=
  Run.Reached (fun c => ∃ config : Sched.Config, c = { dispatcher := { state := { core := { cfg := config } } } })
    fun c moves c' => ∃ move, moves = [move] ∧ move.perform cfg opts c = some c'

/-- A delivery makes the builder send: the thread asks for the mutex it holds. -/
def Reenters (c : Coordinator) : Prop := ∃ msg msgs, c.handling = some (.say (msg :: msgs))

/-! ## Runs in which the scheduler hears of a drain first -/

/-- The builder said that it drains, and the scheduler does not know yet. -/
def Untold (c : Coordinator) : Prop := .announce true ∈ c.bench.tasks

/-- What the builder sends while others wait. -/
def Timely (c : Coordinator) : WorkerMsg → Prop
  | .hello hel =>
    c.bench.builder.draining = false ∧
      c.dispatcher.state.core.liveCount + hel.running.length ≤ Core.maxEntries
  | msg => Untold c → msg = .load true

/-- The drain flag is raised, and the scheduler told, before anything else takes the mutex.  No other worker uses
the address of this one. -/
def Move.Orderly (opts : Options) (c : Coordinator) : Move → Prop
  | .call made _ =>
    (locks made = true → ¬ Untold c) ∧ made.Minds True inProcess opts.advertise c.dispatcher
  | .act (.setDraining draining) _ =>
    c.bench.builder.draining ≠ draining →
      (∀ earlier, .announce earlier ∉ c.bench.tasks) ∧ (draining = true → c.unlocked = true)
  | .act deed _ => ∀ msg ∈ ((deed.perform opts c.bench).map Prod.snd).getD [], Timely c msg.2
  | _ => True

/-- The runs all of whose steps are orderly. -/
abbrev ReachedOrderly (cfg : Dispatcher.Config) (opts : Options) : Coordinator → List Move → Prop :=
  Run.Reached (fun c => ∃ config : Sched.Config, c = { dispatcher := { state := { core := { cfg := config } } } })
    fun c moves c' => ∃ move, moves = [move] ∧ move.Orderly opts c ∧ move.perform cfg opts c = some c'

/-- What a task may still send, and what it knows of the drain flag. -/
def Proper (addr : String) (draining : Bool) : Task → Prop
  | .say msgs => ∀ msg ∈ msgs, msg = .load true ∨ ∃ done, msg = .done done
  | .announce announced => announced = draining
  | .greet hel => hel.addr = addr
  | _ => True

/-- What the builder sends. -/
def Sayable (addr : String) (draining : Bool) : WorkerMsg → Prop
  | .hello hel => hel.addr = addr
  | .load drains => drains = false → draining = false
  | .done _ => True
  | .empty => False

/-- The scheduler knows of the drain, or is about to be told. -/
structure Guarded (addr : String) (c : Coordinator) : Prop where
  inv : c.dispatcher.state.core.Inv
  sole : Sole inProcess addr c.dispatcher.state
  proper : ∀ task ∈ c.bench.tasks, Proper addr c.bench.builder.draining task
  told : c.bench.builder.draining = true → Untold c ∨ Declines inProcess c.dispatcher.state
  handing : c.bench.builder.draining = true → ∀ drvPath assignId, .expect drvPath assignId ∉ c.handing
  handling : ∀ task, c.handling = some task → ∃ drvPath assignId, task = .expect drvPath assignId

section Guarded

variable {cfg : Dispatcher.Config} {opts : Options} {addr : String} {c c' : Coordinator}

theorem handed_append (added log : List Event) : handed log (added ++ log) = handed [] added := by
  simp [handed]

theorem mem_handed {log : List Event} {drvPath : String} {assignId : ℕ}
    (mem : .expect drvPath assignId ∈ handed [] log) : ∃ event ∈ log, event.ExpectsOf inProcess := by
  simp only [handed, List.length_nil, Nat.sub_zero, List.take_length, List.mem_reverse, List.mem_filterMap] at mem
  obtain ⟨event, event_mem, expects⟩ := mem
  refine ⟨event, event_mem, ?_⟩
  cases event with
  | toSession sid cmd delivered =>
    dsimp only at expects
    split_ifs at expects with same
    cases expects
    exact same
  | _ => cases expects

theorem next_draining (now : ℚ) (b : Builder) (task : Task) : (task.next now b).1.draining = b.draining := by
  cases task with
  | expect drvPath assignId =>
    simp only [Task.next, Builder.expect]
    cases b.expected.lookup drvPath with
    | none => rfl
    | some ent =>
      dsimp only
      split_ifs <;> rfl
  | say msgs => cases msgs <;> rfl
  | _ => rfl

/-- What a thread does next is proper. -/
theorem next_proper (now : ℚ) (b : Builder) (task : Task) (proper : Proper addr b.draining task)
    (draining : Bool) : ∀ next ∈ (task.next now b).2.2, Proper addr draining next := by
  have given : ∀ drvs reason, Proper addr draining (.say (givenBack drvs reason)) := by
    intro drvs reason msg mem
    obtain ⟨drv, -, rfl⟩ := mem_map.mp mem
    exact .inr ⟨_, rfl⟩
  intro next mem
  cases task with
  | say msgs =>
    cases msgs with
    | nil => cases mem
    | cons msg msgs =>
      obtain rfl : next = .say msgs := by simpa [Task.next] using mem
      exact fun later later_mem => proper later (List.mem_cons_of_mem _ later_mem)
  | announce announced =>
    have is_takeAll : next = .takeAll := by
      simp only [Task.next] at mem
      split_ifs at mem
      · exact mem_singleton.mp mem
      · cases mem
    rw [is_takeAll]
    trivial
  | takeAll =>
    obtain rfl := mem_singleton.mp mem
    exact given _ _
  | expire draining now =>
    obtain rfl := mem_singleton.mp mem
    exact given _ _
  | greet hel =>
    obtain rfl := mem_singleton.mp mem
    trivial
  | greeted =>
    have is_load : next = .say [.load true] := by
      simp only [Task.next] at mem
      split_ifs at mem
      · exact mem_singleton.mp mem
      · cases mem
    rw [is_load]
    exact fun msg msg_mem => .inl (mem_singleton.mp msg_mem)
  | expect drvPath assignId => cases mem

/-- What a thread sends. -/
theorem next_sent (now : ℚ) (b : Builder) (task : Task) (proper : Proper addr b.draining task)
    {msg : WorkerMsg} (mem : msg ∈ (task.next now b).2.1) : Sayable addr b.draining msg := by
  cases task with
  | say msgs =>
    cases msgs with
    | nil => cases mem
    | cons first msgs =>
      obtain rfl : msg = first := by simpa [Task.next] using mem
      rcases proper msg List.mem_cons_self with rfl | ⟨done, rfl⟩
      · exact fun drains => by cases drains
      · trivial
  | announce announced =>
    obtain rfl : msg = .load announced := by simpa [Task.next] using mem
    exact fun drains => proper.symm.trans drains
  | greet hel =>
    obtain rfl : msg = .hello hel := by simpa [Task.next] using mem
    exact proper
  | _ => cases mem

theorem split_at {tasks : List Task} {index : ℕ} {task : Task} (at_index : tasks[index]? = some task) :
    tasks = tasks.take index ++ task :: tasks.drop (index + 1) := by
  obtain ⟨inside, rfl⟩ := List.getElem?_eq_some_iff.mp at_index
  rw [← List.drop_eq_getElem_cons inside, List.take_append_drop]

/-- What the threads of the builder do, `setDraining` apart. -/
structure Keeps (addr : String) (w w' : Bench) (sent : List Sent) : Prop where
  draining_eq : w'.builder.draining = w.builder.draining
  proper : ∀ task ∈ w'.tasks, Proper addr w.builder.draining task
  announces : sent = [] → ∀ announced, .announce announced ∈ w.tasks → .announce announced ∈ w'.tasks
  sayable : ∀ msg ∈ sent, Sayable addr w.builder.draining msg.2

theorem act_keeps {w w' : Bench} {act : Act} {sent : List Sent}
    (proper : ∀ task ∈ w.tasks, Proper opts.advertise w.builder.draining task) (own : ofSession act = false)
    (other : ∀ draining, act ≠ .setDraining draining) (performed : act.perform opts w = some (w', sent)) :
    Keeps opts.advertise w w' sent := by
  have same_tasks : ∀ {builder : Builder} {owners : List Owner}, builder.draining = w.builder.draining →
      Keeps opts.advertise w { w with builder, owners } [] := fun draining_eq =>
    ⟨draining_eq, proper, fun _ _ => id, by simp⟩
  have one_more : ∀ {task : Task}, Proper opts.advertise w.builder.draining task →
      Keeps opts.advertise w { w with tasks := w.tasks ++ [task] } [] := by
    intro task is_proper
    refine ⟨rfl, fun later mem => ?_, fun _ _ => mem_append_left _, by simp⟩
    rcases mem_append.mp mem with old | new
    · exact proper later old
    · rw [mem_singleton.mp new]
      exact is_proper
  cases act with
  | onExpect drvPath assignId => cases own
  | onRevoke drvPath => cases own
  | setDraining draining => exact absurd rfl (other draining)
  | claim drvPath =>
    cases performed
    apply same_tasks
    unfold Builder.claim
    cases w.builder.expected.lookup drvPath <;> rfl
  | admission drvPath =>
    cases performed
    apply same_tasks
    cases w.builder.expected.lookup drvPath <;> rfl
  | finished index outcome outputs wire reason =>
    simp only [Act.perform] at performed
    split at performed
    · split at performed
      · cases performed
        exact same_tasks rfl
      · cases performed
    · cases performed
  | proceed index =>
    simp only [Act.perform] at performed
    split at performed
    · split at performed
      · cases performed
        apply same_tasks
        rename_i shared _ _ _
        cases shared <;> rfl
      · cases performed
        exact ⟨rfl, proper, fun _ _ => id, by simp [Sayable]⟩
      · cases performed
    · cases performed
  | tick now =>
    cases performed
    exact one_more trivial
  | greet =>
    cases performed
    exact one_more rfl
  | resume index now =>
    simp only [Act.perform] at performed
    split at performed
    · rename_i task at_index
      cases performed
      have task_proper := proper task (List.mem_of_getElem? at_index)
      refine ⟨next_draining now w.builder task, fun later mem => ?_, fun quiet announced mem => ?_, fun msg mem => ?_⟩
      · rcases mem_append.mp mem with mem | mem
        · rcases mem_append.mp mem with mem | mem
          · exact proper later (List.mem_of_mem_take mem)
          · exact next_proper now w.builder task task_proper _ later mem
        · exact proper later (List.mem_of_mem_drop mem)
      · rw [split_at at_index] at mem
        rcases mem_append.mp mem with before | here_or_behind
        · exact mem_append_left _ (mem_append_left _ before)
        · rcases List.mem_cons.mp here_or_behind with rfl | behind
          · cases quiet
          · exact List.mem_append_right _ behind
      · obtain ⟨said, said_mem, rfl⟩ := mem_map.mp mem
        exact next_sent now w.builder task task_proper said_mem
    · cases performed

theorem minds_mono {quiet : Prop} {sid other : SessionId} {msg : WorkerMsg}
    (minds : Minds True sid addr other msg) : Minds quiet sid addr other msg := by
  cases msg with
  | hello hel => exact ⟨fun same => absurd trivial (minds.1 same).2, minds.2⟩
  | load drains => exact fun same => .inl ((minds same).resolve_right fun absurd => absurd trivial)
  | done done => trivial
  | empty => trivial

theorem call_minds_mono {quiet : Prop} {made : Call} {x : Dispatcher}
    (minds : made.Minds True inProcess addr x) : made.Minds quiet inProcess addr x := by
  cases made with
  | workerMsgs other msgs => exact ⟨fun msg mem => minds_mono (minds.1 msg mem), minds.2⟩
  | workerGone other => exact minds
  | _ => trivial

/-- A section of the dispatcher ran. -/
theorem Guarded.dispatched (guarded : Guarded addr c) {x : Dispatcher} {bench : Bench}
    {quiet : Prop} (spares : Spares quiet inProcess addr c.dispatcher.state x.state)
    (calm : bench.builder.draining = true → quiet)
    (proper : ∀ task ∈ bench.tasks, Proper addr bench.builder.draining task) :
    Guarded addr
      { c with dispatcher := x, bench, handing := handed c.dispatcher.state.log x.state.log } where
  inv := spares.inv
  sole := spares.sole
  proper := proper
  told drains := .inr (spares.declines (calm drains))
  handing drains drvPath assignId mem := by
    obtain ⟨added, log_eq, none_of⟩ := spares.log
    rw [log_eq, handed_append] at mem
    obtain ⟨event, event_mem, expects⟩ := mem_handed mem
    exact none_of (calm drains) event event_mem expects
  handling := guarded.handling

theorem unlocked_iff : c.unlocked = true ↔ c.handing = [] ∧ c.handling = none := by
  simp [unlocked]

/-- The section in which the dispatcher takes a message of the builder in. -/
theorem Guarded.say_spares (guarded : Guarded addr c) {world : World} {msg : WorkerMsg}
    (sayable : Sayable addr c.bench.builder.draining msg) (timely : Timely c msg) :
    Spares (c.bench.builder.draining = true) inProcess addr c.dispatcher.state
      (after (Call.perform world cfg (.workerMsgs inProcess [msg]) c.dispatcher)).state := by
  have bound := guarded.inv.liveCount_le_max
  have calm : c.bench.builder.draining = false → c.bench.builder.draining = true →
      Declines inProcess c.dispatcher.state :=
    fun idle drains => by cases idle.symm.trans drains
  cases msg with
  | hello hel =>
    obtain ⟨idle, room⟩ := timely
    refine Call.spares guarded.inv guarded.sole (calm idle) ⟨fun msg mem => ?_, by simpa [roomFor] using room⟩
    rw [mem_singleton.mp mem]
    exact ⟨fun _ => ⟨sayable, by simp [idle]⟩, fun other_ne => absurd rfl other_ne⟩
  | load drains =>
    cases drains with
    | true =>
      have spares := @load_spares inProcess addr world cfg c.dispatcher.state guarded.inv guarded.sole
      rw [Call.perform, after_withLock]
      refine Spares.released ⟨spares.inv, spares.sole, fun _ => spares.declines trivial, ?_⟩ rfl
      obtain ⟨added, log_eq, none_of⟩ := spares.log
      exact ⟨added, log_eq, fun _ => none_of trivial⟩
    | false =>
      refine Call.spares guarded.inv guarded.sole (calm (sayable rfl))
        ⟨fun msg mem => ?_, by simpa [roomFor] using bound⟩
      rw [mem_singleton.mp mem]
      exact fun _ => .inr (by simp [sayable rfl])
  | done done =>
    have declines : c.bench.builder.draining = true → Declines inProcess c.dispatcher.state := by
      intro drains
      refine (guarded.told drains).resolve_left fun untold => ?_
      cases timely untold
    refine Call.spares guarded.inv guarded.sole declines ⟨fun msg mem => ?_, by simpa [roomFor] using bound⟩
    rw [mem_singleton.mp mem]
    trivial
  | empty => exact sayable.elim

/-- The builder sends a message. -/
theorem Guarded.say (guarded : Guarded opts.advertise c) {world : World} {act : Act} {bench : Bench}
    {msg : WorkerMsg} {sent : List Sent} (keeps : Keeps opts.advertise c.bench bench sent)
    (mem : msg ∈ sent.map Prod.snd) (timely : Timely c msg) :
    Guarded opts.advertise (say cfg world c act bench msg) := by
  have sayable : Sayable opts.advertise c.bench.builder.draining msg := by
    obtain ⟨said, said_mem, rfl⟩ := mem_map.mp mem
    exact keeps.sayable said said_mem
  have spares := @Guarded.say_spares cfg opts.advertise c guarded (accepting world) msg sayable timely
  unfold Coordinator.say
  cases ran : Call.perform (accepting world) cfg (.workerMsgs inProcess [msg]) c.dispatcher with
  | ok _ x =>
    rw [ran] at spares
    refine guarded.dispatched spares (fun drains => keeps.draining_eq ▸ drains) ?_
    rw [keeps.draining_eq]
    exact keeps.proper
  | error err x =>
    rw [ran] at spares
    have same : (abandoned { bench with tasks := c.bench.tasks } act).builder = bench.builder ∧
        (abandoned { bench with tasks := c.bench.tasks } act).tasks ⊆ c.bench.tasks := by
      cases act with
      | resume index now => exact ⟨rfl, List.eraseIdx_subset⟩
      | _ => exact ⟨rfl, List.Subset.refl _⟩
    refine guarded.dispatched spares (fun drains => ?_) fun task task_mem => ?_
    · rw [same.1, keeps.draining_eq] at drains
      exact drains
    · rw [same.1, keeps.draining_eq]
      exact guarded.proper task (same.2 task_mem)

/-- A thread of the builder does something and sends nothing. -/
theorem Guarded.benched (guarded : Guarded addr c) {bench : Bench} (keeps : Keeps addr c.bench bench []) :
    Guarded addr { c with bench } where
  inv := guarded.inv
  sole := guarded.sole
  proper := by
    rw [keeps.draining_eq]
    exact keeps.proper
  told drains := by
    rw [keeps.draining_eq] at drains
    exact (guarded.told drains).imp_left (keeps.announces rfl true)
  handing drains := guarded.handing (keeps.draining_eq ▸ drains)
  handling := guarded.handling

theorem Guarded.setDraining (guarded : Guarded opts.advertise c) {draining : Bool} {bench : Bench} {sent : List Sent}
    (orderly : c.bench.builder.draining ≠ draining →
      (∀ earlier, .announce earlier ∉ c.bench.tasks) ∧ (draining = true → c.unlocked = true))
    (performed : Act.perform opts c.bench (.setDraining draining) = some (bench, sent)) :
    sent = [] ∧ Guarded opts.advertise { c with bench } := by
  simp only [Act.perform] at performed
  split_ifs at performed with same
  · cases performed
    exact ⟨rfl, guarded⟩
  · cases performed
    obtain ⟨none_earlier, free⟩ := orderly same
    refine ⟨rfl, guarded.inv, guarded.sole, fun task mem => ?_, fun drains => .inl ?_,
      fun drains drvPath assignId => ?_,
      guarded.handling⟩
    · rcases mem_append.mp mem with old | new
      · have proper := guarded.proper task old
        cases task with
        | announce announced => exact absurd old (none_earlier announced)
        | _ => exact proper
      · rw [mem_singleton.mp new]
        rfl
    · obtain rfl : draining = true := drains
      exact List.mem_append_right _ (List.mem_singleton_self _)
    · rw [(unlocked_iff.mp (free drains)).1]
      exact List.not_mem_nil

theorem Guarded.act (guarded : Guarded opts.advertise c) {deed : Act} {world : World}
    (orderly : Move.Orderly opts c (.act deed world))
    (performed : Move.perform cfg opts c (.act deed world) = some c') :
    Guarded opts.advertise c' := by
  have own : ofSession deed = false := by
    by_contra session
    simp [Move.perform, session] at performed
  simp only [Move.perform, own, Bool.false_eq_true, if_false] at performed
  by_cases drains : ∃ draining, deed = .setDraining draining
  · obtain ⟨draining, rfl⟩ := drains
    cases ran : Act.perform opts c.bench (.setDraining draining) with
    | none =>
      rw [ran] at performed
      cases performed
    | some done =>
      obtain ⟨bench, sent⟩ := done
      obtain ⟨rfl, guarded'⟩ := guarded.setDraining orderly ran
      rw [ran] at performed
      cases performed
      exact guarded'
  · have other : ∀ draining, deed ≠ .setDraining draining := fun draining same => drains ⟨draining, same⟩
    have timely : ∀ msg ∈ ((deed.perform opts c.bench).map Prod.snd).getD [], Timely c msg.2 := by
      cases deed with
      | setDraining draining => exact absurd rfl (other draining)
      | _ => exact orderly
    cases ran : deed.perform opts c.bench with
    | none =>
      rw [ran] at performed
      cases performed
    | some done =>
      obtain ⟨bench, sent⟩ := done
      have keeps := act_keeps guarded.proper own other ran
      rw [ran] at performed
      cases sent with
      | nil =>
        cases performed
        exact guarded.benched keeps
      | cons said sent =>
        obtain ⟨owner, msg⟩ := said
        dsimp only at performed
        split_ifs at performed
        cases performed
        exact guarded.say keeps (by simp) (timely (owner, msg) (by simp [ran]))

theorem Guarded.call (guarded : Guarded opts.advertise c) {made : Call} {world : World}
    (orderly : Move.Orderly opts c (.call made world))
    (performed : Move.perform cfg opts c (.call made world) = some c') :
    Guarded opts.advertise c' := by
  obtain ⟨told, minds⟩ := orderly
  simp only [Move.perform] at performed
  split_ifs at performed with allowed
  cases performed
  simp only [Bool.and_eq_true, Bool.or_eq_true, Bool.not_eq_true'] at allowed
  by_cases locked : locks made = true
  · have free : c.unlocked = true := allowed.2.resolve_left (by simp [locked])
    have declines : c.bench.builder.draining = true → Declines inProcess c.dispatcher.state := fun drains =>
      (guarded.told drains).resolve_left (told locked)
    have spares := @Call.spares _ inProcess opts.advertise (accepting world) cfg c.dispatcher made
      guarded.inv guarded.sole
      declines (call_minds_mono minds)
    have guarded' := guarded.dispatched spares id guarded.proper
    rwa [(unlocked_iff.mp free).1, List.nil_append]
  · have state_eq : (after (made.perform (accepting world) cfg c.dispatcher)).state = c.dispatcher.state := by
      cases made with
      | clientMsgs client msgs present =>
        rw [Call.perform, Dispatcher.clientMsgs]
        split_ifs
        · rfl
        · exact startApplying_state _ c.dispatcher
      | takeJob present =>
        rw [Call.perform, Dispatcher.takeJob, bind_get_apply]
        cases c.dispatcher.lookupQueue with
        | nil => rfl
        | cons job queue => exact startApplying_state _ { c.dispatcher with lookupQueue := queue }
      | _ => exact absurd rfl locked
    have nothing : handed c.dispatcher.state.log c.dispatcher.state.log = [] := by simp [handed]
    refine ⟨?_, ?_, guarded.proper, fun drains => (guarded.told drains).imp id ?_, ?_, guarded.handling⟩
    · exact state_eq ▸ guarded.inv
    · exact state_eq ▸ guarded.sole
    · exact fun declines => state_eq ▸ declines
    · rw [state_eq, nothing, List.append_nil]
      exact guarded.handing

theorem Guarded.hand (guarded : Guarded addr c) (performed : Move.perform cfg opts c .hand = some c') :
    Guarded addr c' := by
  have popped : ∀ {cmd : SchedCmd} {rest : List SchedCmd} {handling : Option Task} {spawned : List String},
      c.handing = cmd :: rest → (∀ task, handling = some task → ∃ drvPath assignId, task = .expect drvPath assignId) →
      Guarded addr { c with handing := rest, handling, spawned } := by
    intro cmd rest handling spawned handing_eq expects
    refine ⟨guarded.inv, guarded.sole, guarded.proper, guarded.told, fun drains drvPath assignId mem => ?_, expects⟩
    exact guarded.handing drains drvPath assignId (handing_eq ▸ List.mem_cons_of_mem _ mem)
  simp only [Move.perform] at performed
  split at performed
  · rename_i drvPath assignId rest idle handing_eq
    cases performed
    refine popped handing_eq fun task is_task => ?_
    have undrained : c.bench.builder.draining = false :=
      Bool.eq_false_iff.mpr fun drains => guarded.handing drains drvPath assignId (handing_eq ▸ List.mem_cons_self)
    simp only [Builder.onExpect, undrained, Bool.false_eq_true, if_false] at is_task
    split_ifs at is_task
    · cases is_task
    · exact ⟨drvPath, assignId, (Option.some.inj is_task).symm⟩
  · rename_i idle handing_eq
    cases performed
    exact popped handing_eq guarded.handling
  · rename_i idle handing_eq
    cases performed
    exact popped handing_eq guarded.handling
  · cases performed

theorem Guarded.go (guarded : Guarded addr c) {now : ℚ}
    (performed : Move.perform cfg opts c (.go now) = some c') : Guarded addr c' := by
  simp only [Move.perform] at performed
  split at performed
  · rename_i task is_task
    obtain ⟨drvPath, assignId, rfl⟩ := guarded.handling task is_task
    have draining_eq := next_draining now c.bench.builder (.expect drvPath assignId)
    cases performed
    refine ⟨guarded.inv, guarded.sole, ?_, fun drains => ?_, fun drains => ?_, fun task is_task => by cases is_task⟩
    · have proper := guarded.proper
      rw [← draining_eq] at proper
      exact proper
    · exact guarded.told (draining_eq ▸ drains)
    · exact guarded.handing (draining_eq ▸ drains)
  · cases performed

theorem Guarded.revoke (guarded : Guarded addr c) {index : ℕ}
    (performed : Move.perform cfg opts c (.revoke index) = some c') : Guarded addr c' := by
  simp only [Move.perform] at performed
  split at performed
  · rename_i drvPath at_index
    simp only [Act.perform, Option.map_some, Option.some.injEq] at performed
    subst performed
    have draining_eq : (c.bench.builder.revoke drvPath).2.draining = c.bench.builder.draining := by
      unfold Builder.revoke
      cases c.bench.builder.expected.lookup drvPath with
      | none => rfl
      | some ent =>
        dsimp only
        split_ifs <;> rfl
    have keeps : Keeps addr c.bench
        { c.bench with
          builder := (c.bench.builder.revoke drvPath).2
          tasks := c.bench.tasks ++ ((c.bench.builder.revoke drvPath).1.map fun assignId =>
            Task.say [.done { drvPath, assignId, outcome := .cancelled }]).toList } [] := by
      refine ⟨draining_eq, fun task mem => ?_, fun _ _ => mem_append_left _, by simp⟩
      rcases mem_append.mp mem with old | new
      · exact guarded.proper task old
      · obtain ⟨assignId, -, rfl⟩ := Option.mem_map.mp (Option.mem_toList.mp new)
        exact fun msg msg_mem => .inr ⟨_, mem_singleton.mp msg_mem⟩
    have benched := guarded.benched keeps
    exact ⟨benched.inv, benched.sole, benched.proper, benched.told, benched.handing, benched.handling⟩
  · cases performed

theorem guarded_start (config : Sched.Config) :
    Guarded addr { dispatcher := { state := { core := { cfg := config } } } } where
  inv := Core.inv_empty config
  sole := ⟨nofun, nofun, nofun⟩
  proper _ mem := by cases mem
  told drains := by cases drains
  handing drains := by cases drains
  handling _ is_task := by cases is_task

theorem ReachedOrderly.guarded {moves : List Move} (reached : ReachedOrderly cfg opts c moves) :
    Guarded opts.advertise c := by
  refine reached.state_invariant (P := Guarded opts.advertise) ?_ ?_
  · rintro _ ⟨config, rfl⟩
    exact guarded_start config
  · rintro c _ c' guarded ⟨move, -, orderly, performed⟩
    cases move with
    | call made world => exact guarded.call orderly performed
    | hand => exact guarded.hand performed
    | go now => exact guarded.go performed
    | act deed world => exact guarded.act orderly performed
    | revoke index => exact guarded.revoke performed

/-- In every run in which the scheduler hears of a drain before anything else takes the mutex, the builder sends
nothing from inside a delivery, and the delivery goes on. -/
theorem delivery_never_reenters {moves : List Move} (reached : ReachedOrderly cfg opts c moves) :
    ¬ Reenters c ∧ ∀ now, c.handling.isSome → ∃ c', Move.perform cfg opts c (.go now) = some c' := by
  have guarded := reached.guarded
  refine ⟨?_, fun now busy => ?_⟩
  · rintro ⟨msg, msgs, is_task⟩
    obtain ⟨drvPath, assignId, same⟩ := guarded.handling _ is_task
    cases same
  · obtain ⟨task, is_task⟩ := Option.isSome_iff_exists.mp busy
    obtain ⟨drvPath, assignId, rfl⟩ := guarded.handling task is_task
    refine ⟨_, by simp only [Move.perform, is_task, Task.next]; rfl⟩

end Guarded

/-! ## Two runs -/

instance (c : Coordinator) : Decidable (Untold c) := inferInstanceAs (Decidable (_ ∈ _))

instance (c : Coordinator) : DecidablePred (Timely c)
  | .hello _ => inferInstanceAs (Decidable (_ ∧ _))
  | .load _ => inferInstanceAs (Decidable (_ → _))
  | .done _ => inferInstanceAs (Decidable (_ → _))
  | .empty => inferInstanceAs (Decidable (_ → _))

instance (addr : String) (sid other : SessionId) : DecidablePred (Minds True sid addr other)
  | .hello _ => inferInstanceAs (Decidable (_ ∧ _))
  | .load _ => inferInstanceAs (Decidable (_ → _))
  | .done _ => .isTrue trivial
  | .empty => .isTrue trivial

instance (addr : String) (sid : SessionId) (x : Dispatcher) : DecidablePred (Call.Minds True sid addr x)
  | .workerMsgs _ _ => inferInstanceAs (Decidable (_ ∧ _))
  | .workerGone _ => inferInstanceAs (Decidable (_ ≠ _))
  | .connectClient | .clientMsgs .. | .takeJob _ | .applyChunk _ | .clientGone _ | .revokeOrphans
  | .restarting | .serving
  | .watchMembership | .unwatchMembership _ => .isTrue trivial

instance (opts : Options) (c : Coordinator) : DecidablePred (Move.Orderly opts c)
  | .call _ _ => inferInstanceAs (Decidable (_ ∧ _))
  | .act (.setDraining _) _ => inferInstanceAs (Decidable (_ → _))
  | .act (.onExpect ..) _ | .act (.onRevoke _) _ | .act (.claim _) _ | .act (.admission _) _ | .act (.finished ..) _
  | .act (.proceed _) _ | .act (.tick _) _ | .act .greet _ | .act (.resume ..) _ =>
    inferInstanceAs (Decidable (∀ _ ∈ _, _))
  | .hand | .go _ | .revoke _ => .isTrue trivial

/-- Make the moves one after the other. -/
def runMoves (cfg : Dispatcher.Config) (opts : Options) : List Move → Coordinator → Option Coordinator
  | [], c => some c
  | move :: moves, c => (move.perform cfg opts c).bind (runMoves cfg opts moves)

/-- As `runMoves`, as long as they are orderly. -/
def runOrderly (cfg : Dispatcher.Config) (opts : Options) : List Move → Coordinator → Option Coordinator
  | [], c => some c
  | move :: moves, c =>
    if move.Orderly opts c then (move.perform cfg opts c).bind (runOrderly cfg opts moves) else none

section Examples

variable {cfg : Dispatcher.Config} {opts : Options} {c c' : Coordinator}

theorem reached_runMoves {moves earlier : List Move} (reached : Reached cfg opts c earlier)
    (ran : runMoves cfg opts moves c = some c') : Reached cfg opts c' (earlier ++ moves) := by
  induction moves generalizing c earlier with
  | nil =>
    cases ran
    simpa using reached
  | cons move moves ih =>
    obtain ⟨mid, performed, rest⟩ := Option.bind_eq_some_iff.mp ran
    simpa using ih (.step reached ⟨move, rfl, performed⟩) rest

theorem reached_runOrderly {moves earlier : List Move} (reached : ReachedOrderly cfg opts c earlier)
    (ran : runOrderly cfg opts moves c = some c') : ReachedOrderly cfg opts c' (earlier ++ moves) := by
  induction moves generalizing c earlier with
  | nil =>
    cases ran
    simpa using reached
  | cons move moves ih =>
    rw [runOrderly] at ran
    split_ifs at ran with orderly
    obtain ⟨mid, performed, rest⟩ := Option.bind_eq_some_iff.mp ran
    simpa using ih (.step reached ⟨move, rfl, orderly, performed⟩) rest

/-- A node that schedules onto itself. -/
def alone : Options where
  advertise := "self"
  thisSystem := "x86_64-linux"

/-- The worker says Hello, and a client sends a Want. -/
def oneWant : List Move :=
  [.act .greet .obliging, .act (.resume 0 0) .obliging, .act (.resume 0 0) .obliging, .call .connectClient .obliging,
    .call (.clientMsgs 1 [.want { drvPath := "a.drv" }] fun _ => none) .obliging]

/-- The Want is applied and its Expect delivered. -/
theorem delivery_never_reenters_want : ∃ c moves, ReachedOrderly uncached alone c moves ∧
    c.handling = some (.expect "a.drv" 1) ∧ ∃ c', Move.perform uncached alone c (.go 0) = some c' := by
  have ends : (runOrderly uncached alone (oneWant ++ [.call (.applyChunk 0) .obliging, .hand]) {}).map
      Coordinator.handling = some (some (.expect "a.drv" 1)) := by
    decide +kernel
  obtain ⟨c, ran, handling_eq⟩ := Option.map_eq_some_iff.mp ends
  have reached : ReachedOrderly uncached alone c _ := reached_runOrderly (.start ⟨{}, rfl⟩) ran
  exact ⟨c, _, reached, handling_eq, (delivery_never_reenters reached).2 0 (by rw [handling_eq]; rfl)⟩

/-- The drain flag is raised, and before the scheduler is told, the Want is applied: the builder gives the
derivation back from inside the delivery, and the thread waits for the mutex it holds. -/
theorem drain_races_dispatch : ∃ c moves, Reached uncached alone c moves ∧ Reenters c ∧
    ∀ now, Move.perform uncached alone c (.go now) = none := by
  have ends : (runMoves uncached alone
      (oneWant ++ [.act (.setDraining true) .obliging, .call (.applyChunk 0) .obliging, .hand]) {}).map
      Coordinator.handling =
        some (some (.say [.done
          { drvPath := "a.drv", assignId := 1, outcome := .givenBack, reason := .draining }])) := by
    decide +kernel
  obtain ⟨c, ran, handling_eq⟩ := Option.map_eq_some_iff.mp ends
  refine ⟨c, _, reached_runMoves (.start ⟨{}, rfl⟩) ran, ⟨_, _, handling_eq⟩, fun now => ?_⟩
  simp [Move.perform, handling_eq, Task.next]

end Examples

end Coordinator

end NixGrpcStore
