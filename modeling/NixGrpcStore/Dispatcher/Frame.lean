import NixGrpcStore.Dispatcher.Stage

/-!
# What most sections leave alone

The functions under the mutex are built from a few operations of the core and from messages that are
handed out.  A relation between states that survives each of these survives whatever is built from
them, whether or not it throws; this is proved once, for any such relation.

Who is connected and which worker a session speaks for changes when a stream opens or closes and
when a worker says Hello.  All other functions leave it alone.  Some of them do not even touch the
core: they only talk.
-/

namespace NixGrpcStore.Dispatcher

open Sched Remote StateExcept

variable {world : World} {cfg : Config}

/-! ## Relations that survive -/

/-- Events that are handed out. -/
def Event.Outgoing : Event → Prop
  | .toClient _ _ => True
  | .toSession _ _ _ => True
  | .placed _ _ => True
  | _ => False

/-- Only what serves the streams and the watchers has changed. -/
structure Aside (d d' : State) : Prop where
  core_eq : d'.core = d.core
  clients_eq : d'.clients = d.clients
  orphans_eq : d'.orphans = d.orphans
  nextClient_eq : d'.nextClient = d.nextClient
  gone_eq : d'.gone = d.gone
  ids_eq : d'.ids = d.ids
  log_eq : d'.log = d.log

/-- An Expect is handed out. -/
def Event.Expects : Event → Prop
  | .toSession _ (.expect _ _) _ => True
  | _ => False

/-- A relation that survives what sections read and say, Expects apart. -/
structure Terse (R : State → State → Prop) : Prop where
  entryAt : ∀ drv, Respects R (onCore (Core.entryAt drv))
  workerAt : ∀ wid, Respects R (onCore (Core.workerAt wid))
  note : ∀ event, event.Outgoing → ¬ event.Expects → Respects R (note event)

/-- A relation that survives what sections read and say. -/
structure Spoken (R : State → State → Prop) : Prop where
  entryAt : ∀ drv, Respects R (onCore (Core.entryAt drv))
  workerAt : ∀ wid, Respects R (onCore (Core.workerAt wid))
  note : ∀ event, event.Outgoing → Respects R (note event)

/-- A relation that survives placing derivations and delivering the placements. -/
structure Delivering (R : State → State → Prop) : Prop extends Spoken R where
  placeabilityChanges : Respects R (onCore Core.placeabilityChanges)
  dispatch : ∀ order, Respects R (onCore (Core.dispatch order))
  markUnplaceable : ∀ drv flag, Respects R (onCore (Core.markUnplaceable drv flag))
  expectUndeliverable : ∀ wid, Respects R (expectUndeliverable wid)

/-- A relation that survives the operations that sections are built from. -/
structure Framed (R : State → State → Prop) : Prop extends Spoken R where
  placeabilityChanges : Respects R (onCore Core.placeabilityChanges)
  workerGone : ∀ wid, Respects R (onCore (Core.workerGone wid))
  dispatch : ∀ order, Respects R (onCore (Core.dispatch order))
  markUnplaceable : ∀ drv flag, Respects R (onCore (Core.markUnplaceable drv flag))
  aside : ∀ d d', Aside d d' → R d d'

section Rules

variable {R : State → State → Prop} [Std.Refl R] [IsTrans State R]

namespace Terse

section Replies

variable (terse : Terse R)
include terse

theorem sendAll (msg : SchedMsg) (clients : List ClientId) : Respects R (sendAll msg clients) := by
  induction clients with
  | nil => exact respects_pure ()
  | cons client clients ih =>
    refine respects_get.bind fun d => ?_
    split_ifs
    · exact (terse.note (.toClient client msg) trivial id).bind fun _ => ih
    · exact ih

theorem sendToFollowers (drv : DrvId) (msg : SchedMsg) : Respects R (sendToFollowers drv msg) := by
  refine (terse.entryAt drv).bind fun found => ?_
  cases found with
  | none => exact respects_pure ()
  | some ent => exact terse.sendAll msg ent.followers

theorem assignedMsg (drv : DrvId) : Respects R (assignedMsg drv) := by
  refine (terse.entryAt drv).bind fun found => ?_
  cases found with
  | none => exact respects_pure _
  | some ent =>
    cases assigned : ent.worker with
    | none => simpa only [assigned] using respects_pure _
    | some wid =>
      simp only [assigned]
      exact (terse.workerAt wid).bind fun _ => respects_pure _

theorem tellFlags (drvs : List DrvId) : Respects R (tellFlags drvs) := by
  induction drvs with
  | nil => exact respects_pure ()
  | cons drv drvs ih =>
    refine Respects.bind ?_ fun _ => ih
    refine (terse.entryAt drv).bind fun found => ?_
    cases found with
    | none => exact respects_pure ()
    | some ent => exact respects_get.bind fun _ => terse.sendToFollowers drv _

theorem revokeOn (wid : WorkerId) (drvPath : String) : Respects R (revokeOn world wid drvPath) := by
  refine respects_get.bind fun d => ?_
  cases d.workers.lookup wid with
  | none => exact respects_pure ()
  | some sid =>
    refine Respects.bind ?_ fun _ => respects_pure ()
    exact respects_get.bind fun _ =>
      (terse.note (.toSession sid (.revoke drvPath) _) trivial id).bind fun _ => respects_pure _

theorem supersedeAll (superseded : List Superseded) :
    Respects R (supersedeAll world superseded) := by
  induction superseded with
  | nil => exact respects_pure ()
  | cons sup superseded ih =>
    refine Respects.bind ?_ fun _ => ih
    refine (terse.entryAt sup.drv).bind fun found => ?_
    cases found with
    | none => exact respects_pure ()
    | some ent =>
      refine (terse.assignedMsg sup.drv).bind fun _ => (terse.sendToFollowers _ _).bind fun _ => ?_
      cases sup.loser with
      | none => exact respects_pure ()
      | some loser => exact terse.revokeOn loser ent.drvPath

theorem revokeOrphan (orphan : Orphan) : Respects R (revokeOrphan world orphan) := by
  refine (terse.entryAt orphan.drv).bind fun found => ?_
  cases found with
  | none => exact respects_pure ()
  | some ent =>
    cases assigned : ent.worker with
    | none => simpa only [assigned] using respects_pure ()
    | some wid =>
      simp only [assigned]
      split_ifs
      · exact terse.revokeOn wid ent.drvPath
      · exact respects_pure ()

theorem revokeDue (now : ℚ) (orphans : List Orphan) : Respects R (revokeDue world now orphans) := by
  induction orphans with
  | nil => exact respects_pure []
  | cons orphan orphans ih =>
    unfold Dispatcher.revokeDue
    split_ifs
    · exact ih.bind fun _ => respects_pure _
    · exact (terse.revokeOrphan orphan).bind fun _ => ih

theorem sendRestarting (sids : List SessionId) :
    Respects R (sendSessions world .restarting sids) := by
  induction sids with
  | nil => exact respects_pure ()
  | cons sid sids ih =>
    refine Respects.bind ?_ fun _ => ih
    exact respects_get.bind fun _ =>
      (terse.note (.toSession sid .restarting _) trivial id).bind fun _ => respects_pure _

theorem onCancel (client : ClientId) (drvPath : String)
    (cancels : Respects R (onCore (Core.cancel client drvPath)))
    (heard : Respects R (Dispatcher.note (.cancel client drvPath))) :
    Respects R (onCancel world client drvPath) := by
  refine heard.bind fun _ => cancels.bind fun revoke => ?_
  cases revoke with
  | none => exact respects_pure ()
  | some wid => exact terse.revokeOn wid drvPath

section Marks

variable (marks : ∀ drv flag, Respects R (onCore (Core.markUnplaceable drv flag)))
include marks

theorem tellUnplaceable
    (client : ClientId) (drv : DrvId) : Respects R (tellUnplaceable client drv) := by
  refine (terse.entryAt drv).bind fun found => ?_
  cases found with
  | none => exact respects_pure ()
  | some ent =>
    refine respects_get.bind fun d => ?_
    dsimp only
    split_ifs
    · exact (marks drv true).bind fun _ => terse.note (.toClient client _) trivial id
    · exact respects_pure ()

/-- After a Want was noted and the core has taken it in, what is left is built from the same
operations. -/
theorem keepWant (dispatches : Respects R (dispatchLocked world)) (client : ClientId) (want : Want)
    (wants : ∀ nowMs, Respects R (onCore (Core.want client (wantInfo cfg want) nowMs))) :
    Respects R (keepWant world cfg client want) := by
  refine respects_get.bind fun d => (wants _).bind fun res => ?_
  cases res.assigned with
  | some wid =>
    exact (terse.assignedMsg _).bind fun msg => terse.note (.toClient client msg) trivial id
  | none => exact dispatches.bind fun _ => terse.tellUnplaceable marks _ _

theorem onWant
    (dispatches : Respects R (dispatchLocked world)) (client : ClientId) (want : Want) (cached : Bool)
    (wants : ∀ nowMs, Respects R (onCore (Core.want client (wantInfo cfg want) nowMs)))
    (heard : ∀ answer, Respects R (Dispatcher.note (.want client want answer))) :
    Respects R (onWant world cfg client want cached) := by
  unfold Dispatcher.onWant
  split_ifs
  · exact respects_pure ()
  · refine respects_get.bind fun d => (heard _).bind fun _ => ?_
    cases answerTo cfg d want cached with
    | kept => exact terse.keepWant marks dispatches client want wants
    | _ => exact terse.note (.toClient client _) trivial id

end Marks

end Replies

end Terse

namespace Spoken

section Clients

variable (spoken : Spoken R)
include spoken

omit [Std.Refl R] [IsTrans State R] in
theorem terse : Terse R :=
  ⟨spoken.entryAt, spoken.workerAt, fun event outgoing _ => spoken.note event outgoing⟩

theorem sendSession (sid : SessionId) (cmd : SchedCmd) : Respects R (sendSession world sid cmd) :=
  respects_get.bind fun d =>
    (spoken.note (.toSession sid cmd (world.delivers d.log sid cmd)) trivial).bind fun _ =>
      respects_pure _

theorem sendAll (msg : SchedMsg) (clients : List ClientId) : Respects R (sendAll msg clients) :=
  spoken.terse.sendAll msg clients

theorem sendToFollowers (drv : DrvId) (msg : SchedMsg) : Respects R (sendToFollowers drv msg) :=
  spoken.terse.sendToFollowers drv msg

theorem assignedMsg (drv : DrvId) : Respects R (assignedMsg drv) :=
  spoken.terse.assignedMsg drv

theorem tellFlags (drvs : List DrvId) : Respects R (tellFlags drvs) :=
  spoken.terse.tellFlags drvs

theorem sendExpect (wid : WorkerId) (cmd : SchedCmd) : Respects R (sendExpect world wid cmd) := by
  refine respects_get.bind fun d => ?_
  cases d.workers.lookup wid with
  | none => exact respects_pure false
  | some sid => exact spoken.sendSession sid cmd

theorem revokeOn (wid : WorkerId) (drvPath : String) : Respects R (revokeOn world wid drvPath) :=
  spoken.terse.revokeOn wid drvPath

theorem supersedeAll (superseded : List Superseded) : Respects R (supersedeAll world superseded) :=
  spoken.terse.supersedeAll superseded

theorem revokeDue (now : ℚ) (orphans : List Orphan) : Respects R (revokeDue world now orphans) :=
  spoken.terse.revokeDue now orphans

theorem sendSessions (cmd : SchedCmd) (sids : List SessionId) :
    Respects R (sendSessions world cmd sids) := by
  induction sids with
  | nil => exact respects_pure ()
  | cons sid sids ih => exact (spoken.sendSession sid cmd).bind fun _ => ih

theorem onCancel (client : ClientId) (drvPath : String)
    (cancels : Respects R (onCore (Core.cancel client drvPath)))
    (heard : Respects R (Dispatcher.note (.cancel client drvPath))) :
    Respects R (onCancel world client drvPath) :=
  spoken.terse.onCancel client drvPath cancels heard

end Clients

end Spoken

namespace Delivering

section Deliveries

variable (delivering : Delivering R)
include delivering

theorem placeabilityChangedLocked : Respects R placeabilityChangedLocked :=
  delivering.placeabilityChanges.bind delivering.tellFlags

theorem deliver (asg : Assign) : Respects R (deliver world asg) := by
  refine (delivering.entryAt asg.drv).bind fun found => ?_
  cases found with
  | none => exact respects_pure ()
  | some ent =>
    refine (delivering.note (.placed asg ent.drvPath) trivial).bind fun _ =>
      (delivering.workerAt asg.worker).bind fun _ => (delivering.sendExpect _ _).bind fun delivered => ?_
    split_ifs
    · exact (delivering.assignedMsg _).bind fun _ => delivering.sendToFollowers _ _
    · exact delivering.expectUndeliverable _

theorem deliverAll (out : List Assign) : Respects R (deliverAll world out) := by
  induction out with
  | nil => exact respects_pure ()
  | cons asg out ih => exact (delivering.deliver asg).bind fun _ => ih

theorem dispatchLocked : Respects R (dispatchLocked world) :=
  respects_get.bind fun d => (delivering.dispatch (world.order d.log)).bind delivering.deliverAll

theorem onWant (client : ClientId) (want : Want) (cached : Bool)
    (wants : ∀ nowMs, Respects R (onCore (Core.want client (wantInfo cfg want) nowMs)))
    (heard : ∀ answer, Respects R (Dispatcher.note (.want client want answer))) :
    Respects R (onWant world cfg client want cached) :=
  delivering.terse.onWant delivering.markUnplaceable delivering.dispatchLocked client want cached wants heard

end Deliveries

end Delivering

namespace Framed

section Sections

variable (framed : Framed R)
include framed

omit [Std.Refl R] [IsTrans State R] in
theorem modify {change : State → State} (aside : ∀ d, Aside d (change d)) :
    Respects R (modify change : LockedM PUnit) :=
  respects_modify fun d => framed.aside d _ (aside d)

theorem placeabilityChangedLocked : Respects R placeabilityChangedLocked :=
  framed.placeabilityChanges.bind framed.tellFlags

omit [Std.Refl R] in
theorem membershipChangedLocked : Respects R membershipChangedLocked := by
  refine Respects.bind (framed.modify ?_) fun _ => framed.modify ?_
  · exact fun _ => ⟨rfl, rfl, rfl, rfl, rfl, rfl, rfl⟩
  · exact fun _ => ⟨rfl, rfl, rfl, rfl, rfl, rfl, rfl⟩

theorem expectUndeliverable (wid : WorkerId) : Respects R (expectUndeliverable wid) := by
  refine (framed.workerGone wid).bind fun _ => framed.membershipChangedLocked.bind fun _ =>
    Respects.bind (framed.modify ?_) fun _ => framed.placeabilityChangedLocked
  exact fun _ => ⟨rfl, rfl, rfl, rfl, rfl, rfl, rfl⟩

theorem delivering : Delivering R :=
  ⟨framed.toSpoken, framed.placeabilityChanges, framed.dispatch, framed.markUnplaceable, framed.expectUndeliverable⟩

theorem dispatchLocked : Respects R (dispatchLocked world) :=
  framed.delivering.dispatchLocked

theorem restarting : Respects R (restarting world) := by
  refine Respects.bind (framed.modify ?_) fun _ => Respects.bind (framed.modify ?_) fun _ =>
    respects_get.bind fun _ => (framed.sendAll _ _).bind fun _ => framed.sendSessions _ _
  · exact fun _ => ⟨rfl, rfl, rfl, rfl, rfl, rfl, rfl⟩
  · exact fun _ => ⟨rfl, rfl, rfl, rfl, rfl, rfl, rfl⟩

theorem onLoad (wid : WorkerId) (draining : Bool)
    (drains : Respects R (onCore (Core.setDraining wid draining))) : Respects R (onLoad wid draining) :=
  drains.bind fun _ => framed.membershipChangedLocked.bind fun _ => framed.placeabilityChangedLocked

theorem workerGoneLocked {sid : SessionId}
    (unnamed : ∀ d : State, R d { d with ids := Function.update d.ids sid none }) :
    Respects R (Dispatcher.workerGone world sid) := by
  refine respects_get.bind fun d => ?_
  cases d.ids sid with
  | none => exact respects_pure ()
  | some wid =>
    refine (framed.workerGone wid).bind fun _ => Respects.bind (framed.modify fun _ => ?_) fun _ =>
      framed.membershipChangedLocked.bind fun _ => framed.dispatchLocked.bind fun _ =>
        framed.placeabilityChangedLocked.bind fun _ => respects_modify unnamed
    exact ⟨rfl, rfl, rfl, rfl, rfl, rfl, rfl⟩

end Sections

end Framed

theorem respects_addOrphans (entryAt : ∀ drv, Respects R (onCore (Core.entryAt drv)))
    (noted : ∀ change : State → _, Respects R (modify fun d => { d with orphans := change d } : LockedM PUnit))
    (revokes : List (DrvId × WorkerId)) : Respects R (addOrphans world revokes) := by
  induction revokes with
  | nil => exact respects_pure ()
  | cons revoke revokes ih =>
    refine Respects.bind ((entryAt revoke.1).bind fun found => ?_) fun _ => ih
    cases found with
    | none => exact respects_pure ()
    | some ent => exact noted _

theorem respects_onClientMsgs {client : ClientId} {msgs : List (ClientMsg × Bool)}
    (wants : ∀ want cached, Respects R (onWant world cfg client want cached))
    (cancels : ∀ drvPath cached, (.cancel drvPath, cached) ∈ msgs → Respects R (onCancel world client drvPath)) :
    Respects R (onClientMsgs world cfg client msgs) := by
  induction msgs with
  | nil => exact respects_pure ()
  | cons msg msgs ih =>
    refine Respects.bind ?_ fun _ => ih fun path cached mem => cancels path cached (List.mem_cons_of_mem _ mem)
    rcases msg with ⟨want | drvPath | _, cached⟩
    · exact wants want cached
    · exact cancels drvPath cached List.mem_cons_self
    · exact respects_pure ()

omit [Std.Refl R] in
theorem respects_onDone {wid : WorkerId} {done : Done}
    (finished : ∀ outputs, Respects R (onCore (Core.done wid done.drvPath outputs)))
    (given_back : Respects R (onCore (Core.giveBack wid done.drvPath)))
    (changed : Respects R placeabilityChangedLocked) : Respects R (onDone wid done) := by
  unfold onDone
  cases done.outcome with
  | givenBack | noShow => exact given_back.bind fun _ => changed
  | built | failed | cancelled => exact finished _

/-- What a session says after its Hello concerns the worker it has the number of. -/
theorem respects_workerMsgLocked {sid : SessionId} {msg : WorkerMsg} (greeted : isHello msg = false)
    (done : ∀ wid done, Respects R (onDone wid done))
    (load : ∀ wid draining, Respects R (onLoad wid draining)) :
    Respects R (workerMsgLocked world cfg sid msg) := by
  cases msg with
  | hello hel => cases greeted
  | done done' | load draining | empty =>
    refine respects_get.bind fun d => ?_
    cases d.ids sid with
    | none => exact respects_throw _
    | some wid => first | exact done wid _ | exact load wid _ | exact respects_pure ()

end Rules

/-! ## Peers -/

/-- The session and the Hello of an event. -/
def Event.said : Event → Option (SessionId × Hello)
  | .hello sid hel => some (sid, hel)
  | _ => none

theorem Event.eq_hello {event : Event} {said : SessionId × Hello}
    (is_hello : event.said = some said) : event = .hello said.1 said.2 := by
  match event with
  | .hello _ _ =>
    cases is_hello
    rfl
  | .toClient _ _ | .toSession _ _ _ | .want _ _ _ | .cancel _ _ | .placed _ _ => cases is_hello

/-- The Hellos that registered a worker, newest first. -/
def State.hellos (d : State) : List (SessionId × Hello) := d.log.filterMap Event.said

theorem State.mem_hellos {d : State} {sid : SessionId} {hel : Hello} :
    (sid, hel) ∈ d.hellos ↔ .hello sid hel ∈ d.log := by
  refine ⟨fun mem => ?_, fun mem => List.mem_filterMap.mpr ⟨_, mem, rfl⟩⟩
  obtain ⟨event, mem, is_hello⟩ := List.mem_filterMap.mp mem
  exact Event.eq_hello is_hello ▸ mem

/-- The same clients are connected and the same sessions registered. -/
structure SamePeers (d d' : State) : Prop where
  clients_eq : d'.clients = d.clients
  nextClient_eq : d'.nextClient = d.nextClient
  gone_eq : d'.gone = d.gone
  ids_eq : d'.ids = d.ids
  hellos_eq : d'.hellos = d.hellos

instance : Std.Refl SamePeers where
  refl _ := ⟨rfl, rfl, rfl, rfl, rfl⟩

instance : IsTrans State SamePeers where
  trans _ _ _ first second :=
    ⟨second.clients_eq.trans first.clients_eq, second.nextClient_eq.trans first.nextClient_eq,
      second.gone_eq.trans first.gone_eq, second.ids_eq.trans first.ids_eq,
      second.hellos_eq.trans first.hellos_eq⟩

theorem samePeers_onCore {α : Type} (m : CoreM α) : Respects SamePeers (onCore m) := by
  intro d
  rw [after_onCore]
  exact ⟨rfl, rfl, rfl, rfl, rfl⟩

theorem samePeers_note (event : Event) (other : event.said = none) : Respects SamePeers (note event) :=
  respects_modify fun _ => ⟨rfl, rfl, rfl, rfl, List.filterMap_cons_none other⟩

theorem framed_samePeers : Framed SamePeers where
  entryAt _ := samePeers_onCore _
  workerAt _ := samePeers_onCore _
  placeabilityChanges := samePeers_onCore _
  workerGone _ := samePeers_onCore _
  dispatch _ := samePeers_onCore _
  markUnplaceable _ _ := samePeers_onCore _
  note event outgoing := by
    refine samePeers_note event ?_
    match event with
    | .toClient _ _ | .toSession _ _ _ | .placed _ _ => rfl
    | .hello _ _ => exact outgoing.elim
  aside _ _ aside :=
    ⟨aside.clients_eq, aside.nextClient_eq, aside.gone_eq, aside.ids_eq, by
      rw [State.hellos, aside.log_eq, State.hellos]⟩

theorem samePeers_revokeOrphans : Respects SamePeers (revokeOrphans world) :=
  respects_get.bind fun _ => (framed_samePeers.revokeDue _ _).bind fun _ =>
    respects_modify fun _ => ⟨rfl, rfl, rfl, rfl, rfl⟩

theorem samePeers_onClientMsgs (client : ClientId) (msgs : List (ClientMsg × Bool)) :
    Respects SamePeers (onClientMsgs world cfg client msgs) :=
  respects_onClientMsgs (fun want cached => framed_samePeers.delivering.onWant client want cached
    (fun _ => samePeers_onCore _) fun _ => samePeers_note _ rfl) fun drvPath _ _ =>
      framed_samePeers.toSpoken.onCancel client drvPath (samePeers_onCore _) (samePeers_note _ rfl)

theorem samePeers_onDone (wid : WorkerId) (done : Done) : Respects SamePeers (onDone wid done) :=
  respects_onDone (fun _ => samePeers_onCore _) (samePeers_onCore _) framed_samePeers.placeabilityChangedLocked

theorem samePeers_onLoad (wid : WorkerId) (draining : Bool) : Respects SamePeers (onLoad wid draining) :=
  framed_samePeers.onLoad wid draining (samePeers_onCore _)

/-! ## Streams that end -/

theorem workerGone_hellos {d d' : State} {sid : SessionId}
    (ran : workerGone world sid d = .ok () d') : d'.hellos = d.hellos := by
  rw [workerGone, bind_get_apply] at ran
  cases is_wid : d.ids sid with
  | none =>
    rw [is_wid] at ran
    cases ran
    rfl
  | some wid =>
    simp only [is_wid] at ran
    obtain ⟨_, d₁, left, ran⟩ := bind_eq_ok.mp ran
    rw [bind_modify_apply] at ran
    obtain ⟨_, d₂, published, ran⟩ := bind_eq_ok.mp ran
    obtain ⟨_, d₃, dispatched, ran⟩ := bind_eq_ok.mp ran
    obtain ⟨_, d₄, flagged, ran⟩ := bind_eq_ok.mp ran
    cases ran
    change d₄.hellos = _
    rw [(framed_samePeers.placeabilityChangedLocked.ok flagged).hellos_eq,
      (framed_samePeers.dispatchLocked.ok dispatched).hellos_eq,
      (framed_samePeers.membershipChangedLocked.ok published).hellos_eq]
    exact ((samePeers_onCore _).ok left).hellos_eq

theorem samePeers_addOrphans (revokes : List (DrvId × WorkerId)) :
    Respects SamePeers (addOrphans world revokes) :=
  respects_addOrphans (fun _ => samePeers_onCore _)
    (fun _ => respects_modify fun _ => ⟨rfl, rfl, rfl, rfl, rfl⟩) revokes

theorem clientGone_hellos {d d' : State} {client : ClientId} (ran : clientGone world client d = .ok () d') :
    d'.hellos = d.hellos := by
  rw [clientGone, bind_modify_apply] at ran
  exact (((samePeers_onCore _).bind samePeers_addOrphans).ok ran).hellos_eq

/-- The same clients are connected. -/
structure SameClients (d d' : State) : Prop where
  clients_eq : d'.clients = d.clients
  nextClient_eq : d'.nextClient = d.nextClient
  gone_eq : d'.gone = d.gone

theorem SamePeers.sameClients {d d' : State} (peers : SamePeers d d') : SameClients d d' :=
  ⟨peers.clients_eq, peers.nextClient_eq, peers.gone_eq⟩

/-! ## Sections that only talk -/

/-- Only events that concern no placement were added. -/
structure Talks (d d' : State) : Prop where
  core_eq : d'.core = d.core
  clients_eq : d'.clients = d.clients
  workers_eq : d'.workers = d.workers
  nextClient_eq : d'.nextClient = d.nextClient
  log_eq : ∃ said, d'.log = said ++ d.log ∧ ∀ event ∈ said, event.Quiet

instance : Std.Refl Talks where
  refl _ := ⟨rfl, rfl, rfl, rfl, [], rfl, nofun⟩

instance : IsTrans State Talks where
  trans _ _ _ first second := by
    obtain ⟨said, said_eq, quiet⟩ := first.log_eq
    obtain ⟨more, more_eq, more_quiet⟩ := second.log_eq
    refine ⟨second.core_eq.trans first.core_eq, second.clients_eq.trans first.clients_eq,
      second.workers_eq.trans first.workers_eq, second.nextClient_eq.trans first.nextClient_eq,
      more ++ said, by rw [more_eq, said_eq, List.append_assoc], fun event mem => ?_⟩
    exact (List.mem_append.mp mem).elim (more_quiet event) (quiet event)

theorem talks_note (event : Event) (quiet : event.Quiet) : Respects Talks (note event) :=
  respects_modify fun _ => ⟨rfl, rfl, rfl, rfl, [event], rfl, by simpa using quiet⟩

theorem talks_entryAt (drv : DrvId) : Respects Talks (onCore (Core.entryAt drv)) := by
  intro d
  unfold onCore onPart Core.entryAt
  rw [bind_get_apply]
  cases d.core.entries[drv]? with
  | none => exact ⟨rfl, rfl, rfl, rfl, [], rfl, nofun⟩
  | some found => exact ⟨rfl, rfl, rfl, rfl, [], rfl, nofun⟩

theorem talks_sendSession (sid : SessionId) (cmd : SchedCmd) : Respects Talks (sendSession world sid cmd) :=
  respects_get.bind fun d =>
    (talks_note (.toSession sid cmd (world.delivers d.log sid cmd)) trivial).bind fun _ =>
      respects_pure _

theorem talks_sendSessions (cmd : SchedCmd) (sids : List SessionId) :
    Respects Talks (sendSessions world cmd sids) := by
  induction sids with
  | nil => exact respects_pure ()
  | cons sid sids ih => exact (talks_sendSession sid cmd).bind fun _ => ih

theorem talks_sendAll_restarting (clients : List ClientId) :
    Respects Talks (sendAll .restarting clients) := by
  induction clients with
  | nil => exact respects_pure ()
  | cons client clients ih =>
    refine respects_get.bind fun d => ?_
    split_ifs
    · exact (talks_note (.toClient client .restarting) trivial).bind fun _ => ih
    · exact ih

theorem talks_revokeOn (wid : WorkerId) (drvPath : String) : Respects Talks (revokeOn world wid drvPath) := by
  refine respects_get.bind fun d => ?_
  cases d.workers.lookup wid with
  | none => exact respects_pure ()
  | some sid => exact (talks_sendSession _ _).bind fun _ => respects_pure ()

theorem talks_revokeOrphan (orphan : Orphan) : Respects Talks (revokeOrphan world orphan) := by
  refine (talks_entryAt _).bind fun found => ?_
  cases found with
  | none => exact respects_pure ()
  | some ent =>
    cases assigned : ent.worker with
    | none => simpa only [assigned] using respects_pure ()
    | some wid =>
      simp only [assigned]
      split_ifs
      · exact talks_revokeOn _ _
      · exact respects_pure ()

theorem talks_revokeDue (now : ℚ) (orphans : List Orphan) : Respects Talks (revokeDue world now orphans) := by
  induction orphans with
  | nil => exact respects_pure []
  | cons orphan orphans ih =>
    unfold revokeDue
    split_ifs
    · exact ih.bind fun _ => respects_pure _
    · exact (talks_revokeOrphan orphan).bind fun _ => ih

theorem talks_revokeOrphans : Respects Talks (revokeOrphans world) :=
  respects_get.bind fun _ => (talks_revokeDue _ _).bind fun _ =>
    respects_modify fun _ => ⟨rfl, rfl, rfl, rfl, [], rfl, nofun⟩

theorem talks_restarting : Respects Talks (restarting world) :=
  (respects_modify fun _ => ⟨rfl, rfl, rfl, rfl, [], rfl, nofun⟩).bind fun _ =>
    (respects_modify fun _ => ⟨rfl, rfl, rfl, rfl, [], rfl, nofun⟩).bind fun _ => respects_get.bind fun _ =>
      (talks_sendAll_restarting _).bind fun _ => talks_sendSessions _ _

end NixGrpcStore.Dispatcher
