import NixGrpcStore.Dispatcher.Model
import NixGrpcStore.Sched.Placement

/-!
# What the dispatcher can do, move by move

Every section that holds the mutex is a sequence of moves of a few kinds.  A stage is what matters
in the middle of a section: the core, who is connected, what was said so far, and the placements
that the followers have yet to be told.  Invariants of the dispatcher are proved for the moves; that
a section is made of moves is proved once.

Some moves take work off a worker or drop a client.  They are only there in a `lossy` system.
-/

namespace NixGrpcStore.Dispatcher

open Sched Remote StateExcept

/-- Events that place no derivation and tell no client whether it is placed. -/
def Event.Quiet : Event → Prop
  | .toClient _ (.assigned _) => False
  | .toClient _ (.unplaceable _ _) => False
  | .toClient _ (.placeable _) => False
  | .want _ _ _ => False
  | .hello _ _ => False
  | .placed _ _ => False
  | _ => True

/-- The Assigned message of an entry. -/
def assignedTo (wkr : Worker) (ent : Entry) : Assigned where
  drvPath := ent.drvPath
  workerAddr := wkr.addr
  assignId := ent.assignId
  workerSystem := wkr.systems.head?.getD ""

/-- A message that turns down the Want of a derivation. -/
def Refuses (drvPath : String) : SchedMsg → Prop
  | .assigned _ => False
  | .unplaceable path _ => path = drvPath
  | .placeable _ => False
  | _ => True

/-- A message that says what the flag of an entry says. -/
def SaysFlag (ent : Entry) (msg : SchedMsg) : Prop :=
  if ent.unplaceable then ∃ reason, msg = .unplaceable ent.drvPath reason
  else msg = .placeable ent.drvPath

/-- A session was sent an Expect, or reported the assignment in its Hello. -/
def Told (log : List Event) (sid : SessionId) (key : PathKey) (assignId : ℕ) : Prop :=
  (∃ path, .toSession sid (.expect path assignId) true ∈ log ∧ PathKey.ofPath path = key) ∨
    ∃ hel path, .hello sid hel ∈ log ∧ (path, assignId) ∈ hel.running ∧ PathKey.ofPath path = key

/-- What sending a message to the connected ones of some clients adds to the log. -/
def handed (connected : List ClientId) (msg : SchedMsg) (clients : List ClientId) : List Event :=
  ((clients.filter (· ∈ connected)).map (.toClient · msg)).reverse

/-- The state in the middle of a section, with the placements that are not told yet, the clients that
are still owed the news that nobody takes their derivation, and what the dispatch under way placed. -/
structure Stage where
  core : Core
  clients : List ClientId
  workers : AList (fun _ : WorkerId => SessionId)
  nextClient : ClientId
  log : List Event
  pending : Set Superseded
  owed : Set (ClientId × DrvId)
  placing : List Assign

/-- A state with placements and news that are not told yet. -/
def State.stage (d : State) (pending : Set Superseded) (owed : Set (ClientId × DrvId) := ∅)
    (placing : List Assign := []) : Stage where
  core := d.core
  clients := d.clients
  workers := d.workers
  nextClient := d.nextClient
  log := d.log
  pending
  owed
  placing

/-- What may become of an entry when followers or workers leave. -/
structure Shrinks (ent new : Entry) : Prop where
  path_eq : new.drvPath = ent.drvPath
  followers_sub : new.followers ⊆ ent.followers
  flag_eq : new.unplaceable = ent.unplaceable
  assigned : new.worker = none ∨ new.worker = ent.worker ∧ new.assignId = ent.assignId

/-- Nothing is assigned or followed that was not before; if the system is not lossy, what was
assigned stays so. -/
structure Sheds (lossy : Prop) (s s' : Core) : Prop where
  length_le : s.roster.length ≤ s'.roster.length
  entry : ∀ drv new, s'.entry drv = some new → ∃ ent, s.entry drv = some ent ∧ Shrinks ent new
  worker : ∀ (wid : WorkerId) (new : Worker), s'.roster[wid]? = some new → new.up = true →
    ∃ wkr : Worker, s.roster[wid]? = some wkr ∧ wkr.up = true ∧ new.addr = wkr.addr
  still : ¬ lossy → ∀ drv ent, s.entry drv = some ent → ent.worker ≠ none →
    ∃ new, s'.entry drv = some new ∧ new.drvPath = ent.drvPath ∧ new.worker = ent.worker ∧
      new.assignId = ent.assignId
  seated : ¬ lossy → ∀ (wid : WorkerId) (wkr : Worker), s.roster[wid]? = some wkr → wkr.up = true →
    ∃ new : Worker, s'.roster[wid]? = some new ∧ new.up = true ∧ new.addr = wkr.addr

/-- One move. -/
inductive Move (lossy : Prop) : Stage → Stage → Prop
  /-- A client opens its stream. -/
  | connect (v : Stage) :
      Move lossy v
        { v with nextClient := v.nextClient + 1, clients := v.nextClient :: v.clients }
  /-- Something happens that concerns no placement. -/
  | hear (v : Stage) (event : Event) (quiet : event.Quiet) :
      Move lossy v { v with log := event :: v.log }
  /-- A Want is turned down. -/
  | refuse (v : Stage) (client : ClientId) (want : Want) {answer : Answer} {msg : SchedMsg}
      (turned_down : answer ≠ .kept) (refusal : Refuses want.drvPath msg) :
      Move lossy v
        { v with log := .toClient client msg :: .want client want answer :: v.log }
  /-- The table has no place for the derivation of a Want. -/
  | overflow (v : Stage) (client : ClientId) {want : Want}
      (unknown : ∀ drv ent, v.core.entry drv = some ent →
        ent.pathKey ≠ PathKey.ofPath want.drvPath) :
      Move lossy v { v with log := .want client want .kept :: v.log }
  /-- A Want joins or creates an entry that waits. -/
  | keep (v : Stage) {cfg : Config} {client : ClientId} {want : Want} {nowMs : ℚ} {drv : DrvId}
      {s' : Core} (inv : s'.Inv) (wanted : Core.Wanted v.core s' client (wantInfo cfg want) nowMs drv)
      (known : client < v.nextClient)
      (waits : ∀ ent, v.core.entry drv = some ent → ent.worker = none) :
      Move lossy v
        { v with
          core := s'
          log := .want client want .kept :: v.log
          owed := insert (client, drv) v.owed }
  /-- A Want joins an entry that is assigned. -/
  | join (v : Stage) {cfg : Config} {client : ClientId} {want : Want} {nowMs : ℚ} {drv : DrvId}
      {s' : Core} {ent : Entry} {wid : WorkerId} {wkr : Worker} (inv : s'.Inv)
      (wanted : Core.Wanted v.core s' client (wantInfo cfg want) nowMs drv)
      (known : client < v.nextClient) (live : v.core.entry drv = some ent)
      (assigned : ent.worker = some wid) (listed : v.core.roster[wid]? = some wkr)
      (settled : v.pending = ∅) :
      Move lossy v
        { v with
          core := s'
          log := .toClient client (.assigned (assignedTo wkr ent)) :: .want client want .kept :: v.log }
  /-- Followers or workers leave, or builds end. -/
  | shed (v : Stage) {s' : Core} {clients : List ClientId}
      {workers : AList (fun _ : WorkerId => SessionId)} (inv : s'.Inv) (sheds : Sheds lossy v.core s')
      (fewer : clients ⊆ v.clients)
      (seats : ∀ (wid : WorkerId) (wkr : Worker), s'.roster[wid]? = some wkr → wkr.up = true →
        workers.lookup wid = v.workers.lookup wid) :
      Move lossy v { v with core := s', clients, workers }
  /-- The core places what it can. -/
  | place (v : Stage) {out : List Assign} {s' : Core} (inv : s'.Inv)
      (places : Core.Places v.core out s') (settled : v.pending = ∅) :
      Move lossy v
        { v with core := s', pending := {sup | ∃ asg ∈ out, sup = { drv := asg.drv }}, placing := out }
  /-- A placement is on record; in a lossy system it may be undone already. -/
  | announce (v : Stage) {asg : Assign} {ent : Entry} (fresh : asg ∈ v.placing)
      (live : v.core.entry asg.drv = some ent)
      (stands : ¬ lossy → ent.worker = some asg.worker ∧ ent.assignId = asg.assignId) :
      Move lossy v { v with log := .placed asg ent.drvPath :: v.log }
  /-- A dispatch ends. -/
  | rest (v : Stage) : Move lossy v { v with placing := [] }
  /-- The followers of an entry are told where it is; whoever lost it is told too. -/
  | tell (v : Stage) (sup : Superseded) (revokes : List Event) {ent : Entry} {wid : WorkerId}
      {wkr : Worker} {sid : SessionId} (live : v.core.entry sup.drv = some ent)
      (assigned : ent.worker = some wid) (listed : v.core.roster[wid]? = some wkr)
      (seat : v.workers.lookup wid = some sid) (told : Told v.log sid ent.pathKey ent.assignId)
      (quiet : ∀ event ∈ revokes, event.Quiet)
      (revoked : ∀ loser other, sup.loser = some loser → v.workers.lookup loser = some other →
        ∃ delivered, .toSession other (.revoke ent.drvPath) delivered ∈ revokes ∧
          (¬ lossy → delivered = true)) :
      Move lossy v
        { v with
          log := revokes ++ handed v.clients (.assigned (assignedTo wkr ent)) ent.followers ++ v.log
          pending := v.pending \ {sup} }
  /-- A placement was undone before it was told. -/
  | settle (v : Stage) {sup : Superseded}
      (idle : ∀ ent, v.core.entry sup.drv = some ent → ent.worker = none) :
      Move lossy v { v with pending := v.pending \ {sup} }
  /-- A worker opens its session. -/
  | greet (v : Stage) (sid : SessionId) {hel : Hello} {systems : List String} {wid : WorkerId}
      {superseded : List Superseded} {s' : Core} (inv : s'.Inv)
      (greeted : Core.Greeted v.core s' (helloInfo hel systems) wid superseded)
      (settled : v.pending = ∅) (rested : v.placing = []) :
      Move lossy v
        { v with
          core := s'
          workers := v.workers.insert wid sid
          log := .hello sid hel :: v.log
          pending := {sup | sup ∈ superseded} }
  /-- The flags of the queued entries are brought up to date and their followers told. -/
  | flags (v : Stage) {s' : Core} {said : List Event} (inv : s'.Inv)
      (roster_eq : s'.roster = v.core.roster)
      (entry_eq : ∀ drv, s'.entry drv = (v.core.entry drv).map (Core.withFlag v.core.placeable))
      (sound : ∀ event ∈ said, ∃ drv ent client msg, event = .toClient client msg ∧
        v.core.entry drv = some ent ∧ SaysFlag (Core.withFlag v.core.placeable ent) msg)
      (complete : ∀ drv ent client, v.core.entry drv = some ent →
        Core.Disagrees v.core.placeable ent → client ∈ ent.followers → client ∈ v.clients →
        ∃ msg, .toClient client msg ∈ said ∧ SaysFlag (Core.withFlag v.core.placeable ent) msg) :
      Move lossy v { v with core := s', log := said ++ v.log }
  /-- The flag of an entry is raised, which its only follower is told. -/
  | mark (v : Stage) {s' : Core} {client : ClientId} {drv : DrvId} {ent : Entry} {reason : String}
      (inv : s'.Inv) (live : v.core.entry drv = some ent) (roster_eq : s'.roster = v.core.roster)
      (entry_eq : s'.entry = Function.update v.core.entry drv (some { ent with unplaceable := true }))
      (old_news : ent.unplaceable = true ∨ ent.followers ⊆ [client]) :
      Move lossy v
        { v with
          core := s'
          log := .toClient client (.unplaceable ent.drvPath reason) :: v.log
          owed := v.owed \ {(client, drv)} }
  /-- A client is owed nothing: its derivation is placed, or can be. -/
  | acquit (v : Stage) {client : ClientId} {drv : DrvId}
      (fine : ∀ ent, v.core.entry drv = some ent → ent.worker = none → ent.unplaceable = false)
      (settled : v.pending = ∅) :
      Move lossy v { v with owed := v.owed \ {(client, drv)} }

/-- A sequence of moves. -/
abbrev Moves (lossy : Prop) : Stage → Stage → Prop := Relation.ReflTransGen (Move lossy)

theorem greeted_length_le {s s' : Core} {info : HelloInfo} {wid : WorkerId}
    {superseded : List Superseded} (greeted : Core.Greeted s s' info wid superseded) :
    s.roster.length ≤ s'.roster.length := by
  by_contra shorter
  have last_lt : s'.roster.length < s.roster.length := not_le.mp shorter
  by_cases same : s'.roster.length = wid
  · have self := greeted.roster_self
    rw [← same, List.getElem?_eq_none le_rfl] at self
    cases self
  · have other := greeted.roster_other _ same
    rw [List.getElem?_eq_none le_rfl, List.getElem?_eq_getElem last_lt] at other
    cases other

/-- Slots of workers are kept for ever. -/
theorem moves_length_le {lossy : Prop} {v v' : Stage} (moves : Moves lossy v v') :
    v.core.roster.length ≤ v'.core.roster.length := by
  induction moves with
  | refl => exact le_rfl
  | @tail v' v'' _ move ih =>
    refine ih.trans ?_
    cases move with
    | connect | hear | refuse | overflow | announce | rest | tell | settle | acquit => exact le_rfl
    | keep inv wanted => simp [Core.roster, wanted.workers_eq]
    | join inv wanted => simp [Core.roster, wanted.workers_eq]
    | shed inv sheds => exact sheds.length_le
    | place inv places => exact (congrArg List.length places.roster_eq).ge
    | greet sid inv greeted => exact greeted_length_le greeted
    | flags inv roster_eq => exact (congrArg List.length roster_eq).ge
    | mark inv live roster_eq => exact (congrArg List.length roster_eq).ge

/-- Numbers of clients are never used again. -/
theorem moves_nextClient {lossy : Prop} {v v' : Stage} (moves : Moves lossy v v') :
    v.nextClient ≤ v'.nextClient := by
  induction moves with
  | refl => exact le_rfl
  | tail _ move ih =>
    refine ih.trans ?_
    cases move with
    | connect => exact Nat.le_succ _
    | _ => exact le_rfl

/-- Clients that are connected were given their numbers. -/
theorem moves_clients {lossy : Prop} {v v' : Stage} (moves : Moves lossy v v')
    (known : ∀ client ∈ v.clients, client < v.nextClient) :
    ∀ client ∈ v'.clients, client < v'.nextClient := by
  induction moves with
  | refl => exact known
  | tail _ move ih =>
    cases move with
    | connect =>
      intro client mem
      rcases List.mem_cons.mp mem with rfl | mem
      · exact Nat.lt_succ_self _
      · exact (ih client mem).trans (Nat.lt_succ_self _)
    | shed inv sheds fewer => exact fun client mem => ih client (fewer mem)
    | _ => exact ih

/-- Every worker that is up has a session. -/
def Seated (s : Core) (workers : AList fun _ : WorkerId => SessionId) : Prop :=
  ∀ (wid : WorkerId) (wkr : Worker), s.roster[wid]? = some wkr → wkr.up = true →
    (workers.lookup wid).isSome

/-- No move takes the session of a worker that stays up. -/
theorem moves_seated {lossy : Prop} {v v' : Stage} (moves : Moves lossy v v')
    (seated : Seated v.core v.workers) : Seated v'.core v'.workers := by
  induction moves with
  | refl => exact seated
  | @tail v' v'' _ move ih =>
    cases move with
    | connect | hear | refuse | overflow | announce | rest | tell | settle | acquit => exact ih
    | keep inv wanted =>
      intro wid wkr listed
      rw [Core.roster, wanted.workers_eq] at listed
      exact ih wid wkr listed
    | join inv wanted =>
      intro wid wkr listed
      rw [Core.roster, wanted.workers_eq] at listed
      exact ih wid wkr listed
    | shed inv sheds fewer seats =>
      intro wid wkr listed up
      obtain ⟨old, old_listed, old_up, -⟩ := sheds.worker wid wkr listed up
      rw [seats wid wkr listed up]
      exact ih wid old old_listed old_up
    | place inv places =>
      intro wid wkr listed
      exact ih wid wkr (places.roster_eq ▸ listed)
    | @greet sid hel systems wid superseded s' inv greeted =>
      intro other wkr listed up
      by_cases same : other = wid
      · rw [same, AList.lookup_insert]
        rfl
      · rw [AList.lookup_insert_ne same]
        exact ih other wkr (by rw [← greeted.roster_other other same]; exact listed) up
    | flags inv roster_eq =>
      intro wid wkr listed
      exact ih wid wkr (roster_eq ▸ listed)
    | mark inv live roster_eq =>
      intro wid wkr listed
      exact ih wid wkr (roster_eq ▸ listed)

end NixGrpcStore.Dispatcher
