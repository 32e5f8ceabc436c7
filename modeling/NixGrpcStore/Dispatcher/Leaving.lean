import NixGrpcStore.Dispatcher.Threads
import NixGrpcStore.Sched.Followers

/-!
# A client that leaves

In every run, also one with calls that throw, the followers of a live entry are connected.  A batch
that a thread of the pool applies after its stream ended is dropped, so a client that left follows
nothing again.  What a client leaves behind is therefore found through the slots that were noted when
it joined, and nothing else is touched.
-/

namespace NixGrpcStore.Dispatcher

open Sched Remote StateExcept

variable {world : World} {cfg : Config}

/-! ## Sections that add no follower -/

/-- The same clients are connected, and nobody follows more than before. -/
structure Thins (d d' : State) : Prop where
  sheds : Core.Sheds d.core d'.core
  clients_eq : d'.clients = d.clients
  nextClient_eq : d'.nextClient = d.nextClient
  gone_eq : d'.gone = d.gone

variable {d d' : State}

theorem Thins.sameClients (thins : Thins d d') : SameClients d d' :=
  ⟨thins.clients_eq, thins.nextClient_eq, thins.gone_eq⟩

instance : Std.Refl Thins where
  refl d := ⟨Std.Refl.refl d.core, rfl, rfl, rfl⟩

instance : IsTrans State Thins where
  trans _ _ _ first second :=
    ⟨IsTrans.trans _ _ _ first.sheds second.sheds, second.clients_eq.trans first.clients_eq,
      second.nextClient_eq.trans first.nextClient_eq, second.gone_eq.trans first.gone_eq⟩

theorem thins_onCore {α : Type} {m : CoreM α} (sheds : Respects Core.Sheds m) :
    Respects Thins (onCore m) := by
  intro d
  rw [after_onCore]
  exact ⟨sheds d.core, rfl, rfl, rfl⟩

theorem thins_modify {change : State → State} (core_eq : ∀ d, (change d).core = d.core)
    (clients_eq : ∀ d, (change d).clients = d.clients)
    (nextClient_eq : ∀ d, (change d).nextClient = d.nextClient)
    (gone_eq : ∀ d, (change d).gone = d.gone) : Respects Thins (modify change : LockedM PUnit) :=
  respects_modify fun d =>
    ⟨(core_eq d).symm ▸ Std.Refl.refl d.core, clients_eq d, nextClient_eq d, gone_eq d⟩

theorem thins_note (event : Event) : Respects Thins (note event) :=
  thins_modify (fun _ => rfl) (fun _ => rfl) (fun _ => rfl) fun _ => rfl

theorem framed_thins : Framed Thins where
  entryAt drv := thins_onCore (Core.respects_entryAt drv)
  workerAt wid := thins_onCore (Core.respects_workerAt wid)
  placeabilityChanges := thins_onCore Core.sheds_placeabilityChanges
  workerGone wid := thins_onCore (Core.sheds_workerGone wid)
  dispatch order := thins_onCore (Core.sheds_dispatch order)
  markUnplaceable drv flag := thins_onCore (Core.sheds_markUnplaceable drv flag)
  note event _ := thins_note event
  aside d _ aside :=
    ⟨by rw [aside.core_eq]; exact Std.Refl.refl d.core, aside.clients_eq, aside.nextClient_eq, aside.gone_eq⟩

theorem thins_revokeOrphans : Respects Thins (revokeOrphans world) :=
  respects_get.bind fun _ => (framed_thins.revokeDue _ _).bind fun _ =>
    thins_modify (fun _ => rfl) (fun _ => rfl) (fun _ => rfl) fun _ => rfl

theorem thins_systemsOf (names : List String) : Respects Thins (systemsOf cfg names) := by
  induction names with
  | nil => exact respects_pure []
  | cons name names ih =>
    unfold systemsOf
    split_ifs
    · exact respects_throw _
    · exact ih.bind fun _ => respects_pure _

theorem thins_onHello (sid : SessionId) (hel : Hello) : Respects Thins (onHello world cfg sid hel) := by
  unfold onHello
  split_ifs
  · exact respects_throw _
  · refine (thins_systemsOf _).bind fun systems => (thins_onCore (Core.sheds_workerId _)).bind fun wid =>
      Respects.bind ?_ fun _ => (thins_onCore (Core.sheds_hello _)).bind fun greeted =>
        Respects.bind (thins_modify (fun _ => rfl) (fun _ => rfl) (fun _ => rfl) fun _ => rfl) fun _ =>
          framed_thins.membershipChangedLocked.bind fun _ => (framed_thins.supersedeAll _).bind fun _ =>
            framed_thins.placeabilityChangedLocked
    refine respects_get.bind fun d => ?_
    cases d.workers.lookup wid with
    | none => exact respects_pure ()
    | some old =>
      simp only
      split_ifs
      · exact respects_pure ()
      · exact thins_modify (fun _ => rfl) (fun _ => rfl) (fun _ => rfl) fun _ => rfl

theorem thins_onDone (wid : WorkerId) (done : Done) : Respects Thins (onDone wid done) :=
  respects_onDone (fun _ => thins_onCore (Core.sheds_allows.done wid _ _))
    (thins_onCore (Core.sheds_allows.giveBack wid _))
    framed_thins.placeabilityChangedLocked

theorem thins_workerMsgsLocked (sid : SessionId) (msgs : List WorkerMsg) :
    Respects Thins (workerMsgsLocked world cfg sid msgs) := by
  have spoken : ∀ msg, Respects Thins (workerMsgLocked world cfg sid msg) := by
    intro msg
    cases msg with
    | hello hel => exact thins_onHello sid hel
    | _ =>
      exact respects_workerMsgLocked rfl thins_onDone fun wid draining =>
        framed_thins.onLoad wid draining (thins_onCore (Core.sheds_setDraining wid draining))
  induction msgs with
  | nil => exact respects_pure ()
  | cons msg msgs ih => exact (spoken msg).bind fun _ => ih

theorem thins_workerMsgs (sid : SessionId) (msgs : List WorkerMsg) :
    Respects Thins (workerMsgs world cfg sid msgs) := by
  cases msgs with
  | nil => exact respects_pure ()
  | cons first msgs =>
    refine respects_get.bind fun d => ?_
    split_ifs
    · exact respects_throw _
    · exact (thins_workerMsgsLocked sid _).bind fun _ => framed_thins.dispatchLocked

theorem thins_workerGone (sid : SessionId) : Respects Thins (workerGone world sid) :=
  framed_thins.workerGoneLocked fun d => ⟨Std.Refl.refl d.core, rfl, rfl, rfl⟩

/-! ## Messages of one client -/

/-- The same clients are connected, and at most one of them follows more than before. -/
structure Gains (client : ClientId) (d d' : State) : Prop where
  joins : Core.Joins client d.core d'.core
  clients_eq : d'.clients = d.clients
  nextClient_eq : d'.nextClient = d.nextClient
  gone_eq : d'.gone = d.gone

variable {client : ClientId}

instance : Std.Refl (Gains client) where
  refl d := ⟨Std.Refl.refl d.core, rfl, rfl, rfl⟩

instance : IsTrans State (Gains client) where
  trans _ _ _ first second :=
    ⟨IsTrans.trans _ _ _ first.joins second.joins, second.clients_eq.trans first.clients_eq,
      second.nextClient_eq.trans first.nextClient_eq, second.gone_eq.trans first.gone_eq⟩

theorem Thins.gains (thins : Thins d d') : Gains client d d' :=
  ⟨thins.sheds.joins, thins.clients_eq, thins.nextClient_eq, thins.gone_eq⟩

theorem framed_gains : Framed (Gains client) where
  entryAt drv := (framed_thins.entryAt drv).mono fun _ _ => Thins.gains
  workerAt wid := (framed_thins.workerAt wid).mono fun _ _ => Thins.gains
  placeabilityChanges := framed_thins.placeabilityChanges.mono fun _ _ => Thins.gains
  workerGone wid := (framed_thins.workerGone wid).mono fun _ _ => Thins.gains
  dispatch order := (framed_thins.dispatch order).mono fun _ _ => Thins.gains
  markUnplaceable drv flag := (framed_thins.markUnplaceable drv flag).mono fun _ _ => Thins.gains
  note event outgoing := (framed_thins.note event outgoing).mono fun _ _ => Thins.gains
  aside d d' aside := (framed_thins.aside d d' aside).gains

theorem gains_want (info : WantInfo) (nowMs : ℚ) :
    Respects (Gains client) (onCore (Core.want client info nowMs)) := by
  intro d
  rw [after_onCore]
  exact ⟨Core.joins_want client info nowMs d.core, rfl, rfl, rfl⟩

theorem gains_onClientMsgs (msgs : List (ClientMsg × Bool)) :
    Respects (Gains client) (onClientMsgs world cfg client msgs) := by
  have noted : ∀ event, Respects (Gains client) (note event) := fun event =>
    (thins_note event).mono fun _ _ => Thins.gains
  refine respects_onClientMsgs (fun want cached => ?_) fun drvPath _ _ => ?_
  · exact framed_gains.delivering.onWant client want cached (fun nowMs => gains_want _ nowMs) fun _ => noted _
  · exact framed_gains.toSpoken.onCancel client drvPath
      ((thins_onCore (Core.sheds_cancel client drvPath)).mono fun _ _ => Thins.gains) (noted _)

/-! ## Runs -/

/-- A call, whether or not it throws. -/
def Attempt (cfg : Config) (x : Dispatcher) (calls : List Call) (x' : Dispatcher) : Prop :=
  ∃ call world, calls = [call] ∧ call.allowed cfg x ∧ x' = after (call.perform world cfg x)

/-- The states of all runs, those with calls that throw included. -/
abbrev Attempted (cfg : Config) : Dispatcher → List Call → Prop :=
  Run.Reached (fun x => ∃ config : Sched.Config, x = { state := { core := { cfg := config } } }) (Attempt cfg)

/-- Followers are connected, what they follow is noted, and batches are of clients that connected. -/
structure Attended (x : Dispatcher) : Prop where
  connected : ∀ drv client, x.state.core.FollowsAt drv client → client ∈ x.state.clients
  traced : x.state.core.Traced
  bound : x.state.core.entries.length ≤ Core.maxEntries
  present : ∀ client ∈ x.state.clients, client ∉ x.state.gone ∧ client < x.state.nextClient
  left : ∀ client ∈ x.state.gone, client < x.state.nextClient
  queued : ∀ job ∈ x.lookupQueue, job.client ∈ x.state.clients ∨ job.client ∈ x.state.gone
  applied : ∀ job ∈ x.applying, job.client ∈ x.state.clients ∨ job.client ∈ x.state.gone

section Runs

variable {x : Dispatcher}

section Steps

variable (attended : Attended x)
include attended

/-- A section of a connected client, or of none. -/
theorem Attended.gains (gains : Gains client x.state d)
    (here : client ∈ x.state.clients) {released : List Deferred} :
    Attended { x with state := { d with deferred := [] }, released } := by
  obtain ⟨joins, clients_eq, nextClient_eq, gone_eq⟩ := gains
  refine ⟨fun drv other follows => ?_, joins.traced attended.traced, joins.bound attended.bound, ?_, ?_, ?_, ?_⟩
  · rcases joins.fewer drv other follows with old | is_client
    · exact clients_eq ▸ attended.connected drv other old
    · exact clients_eq ▸ is_client ▸ here
  · simpa only [clients_eq, nextClient_eq, gone_eq] using attended.present
  · simpa only [nextClient_eq, gone_eq] using attended.left
  · simpa only [clients_eq, gone_eq] using attended.queued
  · simpa only [clients_eq, gone_eq] using attended.applied

theorem Attended.thins (thins : Thins x.state d)
    {released : List Deferred} : Attended { x with state := { d with deferred := [] }, released } := by
  obtain ⟨sheds, clients_eq, nextClient_eq, gone_eq⟩ := thins
  refine ⟨fun drv other follows => ?_, sheds.traced attended.traced, sheds.bound attended.bound, ?_, ?_, ?_, ?_⟩
  · exact clients_eq ▸ attended.connected drv other (sheds.fewer drv other follows)
  · simpa only [clients_eq, nextClient_eq, gone_eq] using attended.present
  · simpa only [nextClient_eq, gone_eq] using attended.left
  · simpa only [clients_eq, gone_eq] using attended.queued
  · simpa only [clients_eq, gone_eq] using attended.applied

/-- The rest of a batch is kept, or another one begins. -/
theorem Attended.startApplying {job : Applying}
    (own : job.client ∈ x.state.clients ∨ job.client ∈ x.state.gone) :
    Attended (after (Dispatcher.startApplying job x)) := by
  obtain ⟨connected, traced, bound, present, left, queued, applied⟩ := attended
  unfold Dispatcher.startApplying
  split_ifs
  · exact ⟨connected, traced, bound, present, left, queued, applied⟩
  · refine ⟨connected, traced, bound, present, left, queued, fun other mem => ?_⟩
    rcases List.mem_append.mp mem with old | new
    · exact applied other old
    · rw [List.mem_singleton.mp new]
      exact own

/-- A chunk of a batch is applied, and the rest is kept. -/
theorem Attended.chunk (job : Applying) (here : job.client ∈ x.state.clients)
    (msgs : List (ClientMsg × Bool)) :
    Attended (after ((do
      withLock (onClientMsgs world cfg job.client msgs)
      Dispatcher.startApplying job) x)) := by
  have gains := @gains_onClientMsgs world cfg job.client msgs x.state
  have locked : Attended (after (withLock (onClientMsgs world cfg job.client msgs) x)) := by
    rw [after_withLock]
    exact attended.gains gains here
  have clients_eq : (after (withLock (onClientMsgs world cfg job.client msgs) x)).state.clients = x.state.clients := by
    rw [after_withLock]
    exact gains.clients_eq
  rw [bind_apply]
  cases ran : withLock (onClientMsgs world cfg job.client msgs) x with
  | error err next =>
    rw [ran] at locked
    exact locked
  | ok _ next =>
    rw [ran] at locked clients_eq
    exact locked.startApplying (.inl (clients_eq ▸ here))

theorem Attended.applyChunk (index : ℕ) :
    Attended (after (Dispatcher.applyChunk world cfg index x)) := by
  rw [Dispatcher.applyChunk, bind_get_apply]
  cases found : x.applying[index]? with
  | none => exact attended
  | some job =>
    have own := attended.applied job (List.mem_of_getElem? found)
    have erased : Attended { x with applying := x.applying.eraseIdx index } := by
      obtain ⟨connected, traced, bound, present, left, queued, applied⟩ := attended
      exact ⟨connected, traced, bound, present, left, queued, fun other mem =>
        applied other (List.mem_of_mem_eraseIdx mem)⟩
    simp only [bind_modify_apply, bind_get_apply]
    split_ifs with gone pooled
    · exact erased
    · exact erased.chunk { job with msgs := job.msgs.drop Dispatcher.chunk } (own.resolve_right gone) _
    · exact erased.chunk { job with msgs := job.msgs.drop Dispatcher.chunk } (own.resolve_right gone) _

end Steps

/-! ## A client leaves -/

/-- The orphans that are noted for what a client left. -/
def orphansOf (s : Core) (now : ℚ) (revokes : List (DrvId × WorkerId)) : List Orphan :=
  revokes.filterMap fun revoke =>
    (s.entry revoke.1).map fun ent => { drv := revoke.1, assignId := ent.assignId, dueMs := now + orphanGraceMs }

theorem addOrphans_append {revokes : List (DrvId × WorkerId)}
    (known : ∀ revoke ∈ revokes, revoke.1 < d.core.entries.length) :
    addOrphans world revokes d =
      .ok () { d with orphans := d.orphans ++ orphansOf d.core (world.nowMs d.log) revokes } := by
  induction revokes generalizing d with
  | nil => simp [addOrphans, orphansOf]
  | cons revoke revokes ih =>
    obtain ⟨drv, wid⟩ := revoke
    have drv_lt : drv < d.core.entries.length := known (drv, wid) List.mem_cons_self
    have rest : ∀ revoke ∈ revokes, revoke.1 < d.core.entries.length := fun revoke mem =>
      known revoke (List.mem_cons_of_mem _ mem)
    have slot_eq : Core.entryAt drv d.core = .ok (d.core.entry drv) d.core := by
      simp [Core.entryAt, Core.entry, drv_lt]
    rw [addOrphans, addOrphan, bind_apply, bind_of_ok (onCore_of_ok slot_eq)]
    cases live : d.core.entry drv with
    | none =>
      simp only [pure_apply]
      rw [ih rest]
      simp [orphansOf, live]
    | some ent =>
      simp only [modify_apply]
      refine (ih ?_).trans ?_
      · exact rest
      · simp [orphansOf, live]

/-- The section of a client that leaves. -/
theorem clientGone_left (bound : d.core.entries.length ≤ Core.maxEntries) (traced : d.core.Traced)
    (client : ClientId) :
    ∃ s' revokes, Core.clientGone client d.core = .ok revokes s' ∧ Core.Left client d.core s' revokes ∧
      clientGone world client d = .ok ()
        { d with
          core := s'
          gone := client :: d.gone
          clients := d.clients.filter (· ≠ client)
          orphans := d.orphans ++ orphansOf d.core (world.nowMs d.log) revokes } := by
  obtain ⟨s', revokes, ran, left⟩ := Core.clientGone_left bound traced client
  have kept : ∀ revoke ∈ revokes, ∃ ent, d.core.entry revoke.1 = some ent ∧
      s'.entry revoke.1 = some { ent with followers := ent.followers.filter (· ≠ client) } := by
    rintro ⟨drv, wid⟩ mem
    obtain ⟨ent, live, assigned, -⟩ := (left.revokes_iff drv wid).mp mem
    refine ⟨ent, live, left.kept drv ent live ?_⟩
    rintro ⟨idle, -⟩
    cases idle.symm.trans assigned
  have same_orphans : orphansOf s' (world.nowMs d.log) revokes = orphansOf d.core (world.nowMs d.log) revokes := by
    refine List.filterMap_congr fun revoke mem => ?_
    obtain ⟨ent, live, new_live⟩ := kept revoke mem
    rw [live, new_live]
    rfl
  refine ⟨s', revokes, ran, left, ?_⟩
  rw [clientGone, bind_modify_apply, bind_of_ok (onCore_of_ok
    (d := { d with gone := client :: d.gone, clients := d.clients.filter (· ≠ client) }) ran), addOrphans_append]
  · rw [same_orphans]
  · intro revoke mem
    obtain ⟨ent, -, new_live⟩ := kept revoke mem
    exact Core.lt_of_entry new_live

theorem Attended.clientGone (attended : Attended x) (here : client ∈ x.state.clients) :
    Attended (after (withLock (Dispatcher.clientGone world client) x)) := by
  obtain ⟨s', revokes, core_ran, left, ran⟩ := @clientGone_left world x.state attended.bound attended.traced client
  obtain ⟨fewer, noted, bound⟩ := Core.clientGone_sheds client x.state.core
  rw [core_ran] at fewer noted bound
  have stays : ∀ other, other ∈ x.state.clients ∨ other ∈ x.state.gone →
      other ∈ x.state.clients.filter (· ≠ client) ∨ other ∈ client :: x.state.gone := by
    rintro other (here | gone)
    · by_cases same : other = client
      · exact .inr (same ▸ List.mem_cons_self)
      · exact .inl (List.mem_filter.mpr ⟨here, by simpa using same⟩)
    · exact .inr (List.mem_cons_of_mem _ gone)
  rw [after_withLock, ran]
  refine ⟨?_, ?_, bound attended.bound, ?_, ?_, ?_, ?_⟩
  · rintro drv other ⟨ent, live, mem⟩
    refine List.mem_filter.mpr ⟨attended.connected drv other (fewer drv other ⟨ent, live, mem⟩), ?_⟩
    simpa using fun same : other = client => left.removed drv ent live (same ▸ mem)
  · rintro drv other ⟨ent, live, mem⟩
    have other_ne : other ≠ client := fun same => left.removed drv ent live (same ▸ mem)
    have kept := noted other other_ne
    simp only [after_ok] at kept ⊢
    rw [kept]
    exact attended.traced drv other (fewer drv other ⟨ent, live, mem⟩)
  · intro other mem
    obtain ⟨here, other_ne⟩ := List.mem_filter.mp mem
    obtain ⟨stayed, known⟩ := attended.present other here
    refine ⟨fun gone => ?_, known⟩
    rcases List.mem_cons.mp gone with same | gone
    · simp [same] at other_ne
    · exact stayed gone
  · intro other mem
    rcases List.mem_cons.mp mem with rfl | gone
    · exact (attended.present other here).2
    · exact attended.left other gone
  · exact fun job mem => stays job.client (attended.queued job mem)
  · exact fun job mem => stays job.client (attended.applied job mem)

theorem Attended.call (attended : Attended x) {call : Call} (allowed : call.allowed cfg x) :
    Attended (after (call.perform world cfg x)) := by
  have locked : ∀ {α : Type} {m : LockedM α}, Respects Thins m → Attended (after (withLock m x)) := by
    intro α m thins
    rw [after_withLock]
    exact attended.thins (thins x.state)
  cases call with
  | connectClient =>
    have attended' := attended
    obtain ⟨connected, traced, bound, present, left, queued, applied⟩ := attended'
    rw [Call.perform, after_bind_pure, after_withLock]
    refine ⟨fun drv other follows => ?_, traced, bound, fun other mem => ?_, fun other mem => ?_,
      fun job mem => ?_, fun job mem => ?_⟩
    · exact List.mem_cons_of_mem _ (connected drv other follows)
    · rcases List.mem_cons.mp mem with rfl | old
      · exact ⟨fun gone => lt_irrefl _ (left _ gone), Nat.lt_succ_self _⟩
      · exact ⟨(present other old).1, (present other old).2.trans (Nat.lt_succ_self _)⟩
    · exact (left other mem).trans (Nat.lt_succ_self _)
    · exact (queued job mem).imp (List.mem_cons_of_mem _) id
    · exact (applied job mem).imp (List.mem_cons_of_mem _) id
  | clientMsgs client msgs present =>
    have here : client ∈ x.state.clients := by
      simp only [Call.allowed, Bool.and_eq_true, decide_eq_true_eq] at allowed
      exact allowed.1
    rw [Call.perform, Dispatcher.clientMsgs]
    split_ifs
    · obtain ⟨connected, traced, bound, present, left, queued, applied⟩ := attended
      refine ⟨connected, traced, bound, present, left, fun job mem => ?_, applied⟩
      rcases List.mem_append.mp mem with old | new
      · exact queued job old
      · rw [List.mem_singleton.mp new]
        exact .inl here
    · exact attended.startApplying (.inl here)
  | takeJob present =>
    rw [Call.perform, Dispatcher.takeJob, bind_get_apply]
    cases queue_eq : x.lookupQueue with
    | nil => exact attended
    | cons job queue =>
      have own := attended.queued job (queue_eq ▸ List.mem_cons_self)
      have popped : Attended { x with lookupQueue := queue } := by
        obtain ⟨connected, traced, bound, present, left, queued, applied⟩ := attended
        exact ⟨connected, traced, bound, present, left, fun other mem =>
          queued other (queue_eq ▸ List.mem_cons_of_mem job mem), applied⟩
      exact popped.startApplying own
  | applyChunk index => exact attended.applyChunk index
  | clientGone client =>
    have here : client ∈ x.state.clients := by
      simp only [Call.allowed, Bool.and_eq_true, decide_eq_true_eq] at allowed
      exact allowed.1
    exact attended.clientGone here
  | workerMsgs sid msgs => exact locked (thins_workerMsgs sid msgs)
  | workerGone sid => exact locked (thins_workerGone sid)
  | revokeOrphans => exact locked thins_revokeOrphans
  | restarting => exact locked framed_thins.restarting
  | serving => exact locked (thins_modify (fun _ => rfl) (fun _ => rfl) (fun _ => rfl) fun _ => rfl)
  | watchMembership =>
    rw [Call.perform, after_bind_pure]
    refine locked fun d => ⟨Std.Refl.refl d.core, rfl, rfl, rfl⟩
  | unwatchMembership watcher =>
    exact locked (thins_modify (fun _ => rfl) (fun _ => rfl) (fun _ => rfl) fun _ => rfl)

theorem Attempted.attended {calls : List Call} (attempted : Attempted cfg x calls) : Attended x := by
  refine attempted.state_invariant (P := Attended) ?_ ?_
  · rintro _ ⟨config, rfl⟩
    have unfollowed : ∀ drv client, ¬ Core.FollowsAt { cfg := config } drv client := by
      rintro drv client ⟨ent, live, -⟩
      simp [Core.entry] at live
    exact ⟨fun drv client follows => absurd follows (unfollowed drv client),
      fun drv client follows => absurd follows (unfollowed drv client), by simp, by simp, by simp, by simp, by simp⟩
  · rintro x _ x' attended ⟨call, world, -, allowed, rfl⟩
    exact attended.call allowed

/-- In every run the followers of every live entry are connected clients that have not left, and a
client that leaves leaves exactly its own traces. -/
theorem client_leaves_own_traces {calls : List Call} (attempted : Attempted cfg x calls) :
    (∀ drv ent, x.state.core.entry drv = some ent →
      ∀ client ∈ ent.followers, client ∈ x.state.clients ∧ client ∉ x.state.gone) ∧
    ∀ world client, ∃ s' revokes, Core.clientGone client x.state.core = .ok revokes s' ∧
      Core.Left client x.state.core s' revokes ∧
      clientGone world client x.state = .ok ()
        { x.state with
          core := s'
          gone := client :: x.state.gone
          clients := x.state.clients.filter (· ≠ client)
          orphans := x.state.orphans ++ orphansOf x.state.core (world.nowMs x.state.log) revokes } := by
  have attended := attempted.attended
  refine ⟨fun drv ent live client mem => ?_, fun world client => ?_⟩
  · have here := attended.connected drv client ⟨ent, live, mem⟩
    exact ⟨here, (attended.present client here).1⟩
  · exact clientGone_left attended.bound attended.traced client

theorem Reached.attempted {calls : List Call} (reached : Reached cfg x calls) : Attempted cfg x calls := by
  refine reached.invariant (P := Attempted cfg) (fun _ => .start) ?_
  rintro x log _ x' attempted ⟨call, world, rfl, allowed, ran⟩
  exact .step attempted ⟨call, world, rfl, allowed, by rw [ran]; rfl⟩

/-- The one client of a build leaves: its derivation is reported. -/
theorem client_leaves_own_traces_placed : ∃ x, Attempted uncached x (onePlacement.map Prod.snd) ∧
    ∃ s' revokes, Core.clientGone 1 x.state.core = .ok revokes s' ∧ (0, 0) ∈ revokes := by
  obtain ⟨x, ent, reached, live, assigned, followers, -⟩ := onePlacement_reached
  refine ⟨x, reached.attempted, ?_⟩
  obtain ⟨s', revokes, ran, left, -⟩ := (client_leaves_own_traces reached.attempted).2 World.obliging 1
  refine ⟨s', revokes, ran, (left.revokes_iff 0 0).mpr ⟨ent, live, assigned, ?_⟩⟩
  simp [followers]

end Runs

end NixGrpcStore.Dispatcher
