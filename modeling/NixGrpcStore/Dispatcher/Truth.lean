import NixGrpcStore.Dispatcher.Threads

/-!
# Followers are told the truth about placements

For every assigned entry the last Assigned that a connected follower was sent names the worker and
the assignment the entry has, and no Assigned is sent before the worker's session knows of the
assignment.  Both are invariants of the moves, up to the placements that are not told yet.
-/

namespace NixGrpcStore.Dispatcher

open Sched Remote StateExcept

/-- The placement of a derivation that an event tells a client. -/
def assignedIn (client : ClientId) (key : PathKey) : Event → Option Assigned
  | .toClient other (.assigned asg) =>
    if other = client ∧ PathKey.ofPath asg.drvPath = key then some asg else none
  | _ => none

/-- The last placement of a derivation that a client was told. -/
def lastAssigned (log : List Event) (client : ClientId) (key : PathKey) : Option Assigned :=
  log.findSome? (assignedIn client key)

/-- The session that an event makes the live one of an address. -/
def helloIn (addr : String) : Event → Option SessionId
  | .hello sid hel => if hel.addr = addr then some sid else none
  | _ => none

/-- The session that last said Hello for an address. -/
def lastHello (log : List Event) (addr : String) : Option SessionId := log.findSome? (helloIn addr)

/-- The last session of the named worker knew of a placement when a client was told of it. -/
def Backed (log : List Event) (asg : Assigned) : Prop :=
  ∃ sid, lastHello log asg.workerAddr = some sid ∧
    Told log sid (PathKey.ofPath asg.drvPath) asg.assignId

/-- Every placement in a log was backed when it was told. -/
def Truthful (log : List Event) : Prop :=
  ∀ newer client asg older, log = newer ++ .toClient client (.assigned asg) :: older → Backed older asg

/-- Events that neither place a derivation nor open a session. -/
def Event.Mute : Event → Prop
  | .toClient _ (.assigned _) => False
  | .hello _ _ => False
  | _ => True

theorem Event.Quiet.mute {event : Event} (quiet : event.Quiet) : event.Mute := by
  match event with
  | .toClient _ (.assigned _) => exact quiet
  | .toClient _ (.cached _) | .toClient _ (.unplaceable _ _) | .toClient _ .restarting
  | .toClient _ (.placeable _) | .toClient _ .empty => trivial
  | .hello _ _ => exact quiet
  | .placed _ _ => exact quiet.elim
  | .toSession _ _ _ | .want _ _ _ | .cancel _ _ => trivial

section Log

variable {log more : List Event} {client : ClientId} {key : PathKey} {addr : String} {event : Event}

theorem Event.Mute.assignedIn_eq (mute : event.Mute) : assignedIn client key event = none := by
  match event with
  | .toClient _ (.assigned _) => exact mute.elim
  | .toClient _ (.cached _) | .toClient _ (.unplaceable _ _) | .toClient _ .restarting
  | .toClient _ (.placeable _) | .toClient _ .empty => rfl
  | .toSession _ _ _ | .want _ _ _ | .cancel _ _ | .placed _ _ | .hello _ _ => rfl

theorem Event.Mute.helloIn_eq (mute : event.Mute) : helloIn addr event = none := by
  match event with
  | .hello _ _ => exact mute.elim
  | .toClient _ _ | .toSession _ _ _ | .want _ _ _ | .cancel _ _ | .placed _ _ => rfl

theorem lastAssigned_of_mute (mute : ∀ event ∈ more, event.Mute) :
    lastAssigned (more ++ log) client key = lastAssigned log client key := by
  rw [lastAssigned, List.findSome?_append, List.findSome?_eq_none_iff.mpr fun event mem =>
    (mute event mem).assignedIn_eq, Option.none_or, lastAssigned]

theorem lastHello_append (silent : ∀ event ∈ more, helloIn addr event = none) :
    lastHello (more ++ log) addr = lastHello log addr := by
  rw [lastHello, List.findSome?_append, List.findSome?_eq_none_iff.mpr silent, Option.none_or, lastHello]

/-- What is added to a truthful log is backed by what was there. -/
theorem Truthful.append (truthful : Truthful log) (silent : ∀ event ∈ more, ∀ addr, helloIn addr event = none)
    (backed : ∀ client asg, .toClient client (.assigned asg) ∈ more → Backed log asg) :
    Truthful (more ++ log) := by
  intro newer client asg older split
  rcases List.append_eq_append_iff.mp split with ⟨rest, rfl, log_eq⟩ | ⟨rest, more_eq, rest_eq⟩
  · exact truthful rest client asg older log_eq
  · cases rest with
    | nil => exact truthful [] client asg older (by simpa using rest_eq.symm)
    | cons event rest =>
      rw [List.cons_append] at rest_eq
      obtain ⟨rfl, rfl⟩ := List.cons.inj rest_eq
      obtain ⟨sid, hello_eq, told⟩ := backed client asg (by simp [more_eq])
      refine ⟨sid, (lastHello_append fun event mem => ?_).trans hello_eq, told.mono rest⟩
      exact silent event (by simp [more_eq, mem]) _

/-- Of events that tell one placement only, the last counts. -/
theorem lastAssigned_said {asg : Assigned}
    (each : ∀ event ∈ more, event.Mute ∨ ∃ other, event = .toClient other (.assigned asg)) :
    lastAssigned (more ++ log) client key =
      if .toClient client (.assigned asg) ∈ more ∧ PathKey.ofPath asg.drvPath = key then some asg
      else lastAssigned log client key := by
  rw [lastAssigned, List.findSome?_append]
  cases found : more.findSome? (assignedIn client key) with
  | none =>
    rw [if_neg, Option.none_or, lastAssigned]
    rintro ⟨mem, key_eq⟩
    have silent := List.findSome?_eq_none_iff.mp found _ mem
    simp [assignedIn, key_eq] at silent
  | some said =>
    obtain ⟨event, mem, said_eq⟩ := List.exists_of_findSome?_eq_some found
    rcases each event mem with mute | ⟨other, rfl⟩
    · rw [mute.assignedIn_eq] at said_eq
      cases said_eq
    · simp only [assignedIn, Option.ite_none_right_eq_some, Option.some.injEq] at said_eq
      obtain ⟨⟨rfl, key_eq⟩, rfl⟩ := said_eq
      rw [if_pos ⟨mem, key_eq⟩, Option.some_or]

end Log

/-! ## The invariant -/

/-- All placements of a derivation are told. -/
def Stage.Settled (v : Stage) (drv : DrvId) : Prop := ∀ sup ∈ v.pending, sup.drv ≠ drv

/-- Sessions know of the assignments of their workers, and followers were told. -/
structure Truth (v : Stage) : Prop where
  inv : v.core.Inv
  seated : Seated v.core v.workers
  session : ∀ (wid : WorkerId) (wkr : Worker) (sid : SessionId), v.core.roster[wid]? = some wkr →
    wkr.up = true → v.workers.lookup wid = some sid → lastHello v.log wkr.addr = some sid
  clients : ∀ client ∈ v.clients, client < v.nextClient
  followers : ∀ drv ent, v.core.entry drv = some ent → ∀ client ∈ ent.followers, client < v.nextClient
  told : ∀ drv ent wid sid, v.core.entry drv = some ent → ent.worker = some wid → v.Settled drv →
    v.workers.lookup wid = some sid → Told v.log sid ent.pathKey ent.assignId
  heard : ∀ (drv : DrvId) (ent : Entry) (wid : WorkerId) (wkr : Worker), v.core.entry drv = some ent →
    ent.worker = some wid → v.core.roster[wid]? = some wkr → v.Settled drv →
    ∀ client ∈ ent.followers, client ∈ v.clients → ∃ asg,
      lastAssigned v.log client ent.pathKey = some asg ∧ asg.workerAddr = wkr.addr ∧
        asg.assignId = ent.assignId
  truthful : Truthful v.log

/-- Nothing is assigned that was not before. -/
structure Loses (s s' : Core) : Prop where
  entry : ∀ drv new wid, s'.entry drv = some new → new.worker = some wid →
    ∃ ent, s.entry drv = some ent ∧ ent.worker = some wid ∧ new.assignId = ent.assignId ∧
      new.pathKey = ent.pathKey ∧ new.followers ⊆ ent.followers
  worker : ∀ (wid : WorkerId) (new : Worker), s'.roster[wid]? = some new → new.up = true →
    ∃ wkr : Worker, s.roster[wid]? = some wkr ∧ wkr.up = true ∧ new.addr = wkr.addr

section Moves

variable {lossy : Prop} {v v' : Stage} {drv : DrvId} {ent : Entry} {wid : WorkerId} {wkr : Worker}
  {s s' : Core}

/-- What is assigned is on a worker that is up. -/
theorem assigned_up (inv : s.Inv) (live : s.entry drv = some ent)
    (assigned : ent.worker = some wid) : ∃ wkr : Worker, s.roster[wid]? = some wkr ∧ wkr.up = true := by
  have get_eq := List.getElem?_eq_getElem (inv.runs.worker_lt drv (Set.notMem_empty drv) ent wid live assigned)
  refine ⟨_, roster_get get_eq, ?_⟩
  by_contra down
  have running := (inv.runs.running_iff wid _ get_eq drv).mpr ⟨Set.notMem_empty drv, ent, live, assigned⟩
  rw [inv.runs.down_idle _ (List.mem_of_getElem? get_eq) (by simpa using down)] at running
  cases running

/-- A move that takes assignments away and says nothing of placements. -/
theorem Truth.loses (truth : Truth v) (more : List Event) (inv : v'.core.Inv)
    (loses : Loses v.core v'.core) (mute : ∀ event ∈ more, event.Mute) (log_eq : v'.log = more ++ v.log)
    (pending_eq : v'.pending = v.pending) (fewer : v'.clients ⊆ v.clients)
    (next_eq : v'.nextClient = v.nextClient)
    (seats : ∀ (wid : WorkerId) (wkr : Worker), v'.core.roster[wid]? = some wkr → wkr.up = true →
      v'.workers.lookup wid = v.workers.lookup wid)
    (followers : ∀ drv ent, v'.core.entry drv = some ent → ∀ client ∈ ent.followers,
      client < v.nextClient) : Truth v' where
  inv := inv
  seated wid new listed up := by
    obtain ⟨wkr, old_listed, old_up, -⟩ := loses.worker wid new listed up
    rw [seats wid new listed up]
    exact truth.seated wid wkr old_listed old_up
  session wid new sid listed up seat := by
    obtain ⟨wkr, old_listed, old_up, addr_eq⟩ := loses.worker wid new listed up
    rw [seats wid new listed up] at seat
    rw [log_eq, lastHello_append fun event mem => (mute event mem).helloIn_eq, addr_eq]
    exact truth.session wid wkr sid old_listed old_up seat
  clients client mem := next_eq ▸ truth.clients client (fewer mem)
  followers drv ent live client mem := next_eq ▸ followers drv ent live client mem
  told drv new wid sid live assigned settled seat := by
    obtain ⟨ent, old_live, old_assigned, id_eq, key_eq, -⟩ := loses.entry drv new wid live assigned
    obtain ⟨wkr, listed, up⟩ := assigned_up inv live assigned
    rw [seats wid wkr listed up] at seat
    rw [log_eq, id_eq, key_eq]
    exact (truth.told drv ent wid sid old_live old_assigned (by rwa [Stage.Settled, ← pending_eq])
      seat).mono more
  heard drv new wid listed_new live assigned listed settled client follows connected := by
    obtain ⟨ent, old_live, old_assigned, id_eq, key_eq, sub⟩ := loses.entry drv new wid live assigned
    obtain ⟨wkr, listed', up⟩ := assigned_up inv live assigned
    obtain rfl : wkr = listed_new := Option.some.inj (listed'.symm.trans listed)
    obtain ⟨old, old_listed, -, addr_eq⟩ := loses.worker wid wkr listed up
    rw [log_eq, lastAssigned_of_mute mute, id_eq, key_eq, addr_eq]
    exact truth.heard drv ent wid old old_live old_assigned old_listed
      (by rwa [Stage.Settled, ← pending_eq]) client (sub follows) (fewer connected)
  truthful := by
    rw [log_eq]
    refine truth.truthful.append (fun event mem _ => (mute event mem).helloIn_eq) fun client asg mem => ?_
    exact (mute _ mem).elim

/-- Workers with one address are one worker. -/
theorem wid_unique (inv : s.Inv) {other : WorkerId} {otherWkr : Worker}
    (listed : s.roster[wid]? = some wkr) (other_listed : s.roster[other]? = some otherWkr)
    (addr_eq : otherWkr.addr = wkr.addr) : other = wid := by
  obtain ⟨full, get_eq, rfl⟩ := get_of_roster_get listed
  obtain ⟨otherFull, other_get, rfl⟩ := get_of_roster_get other_listed
  have found := (inv.addrs full.addr wid).mpr ⟨full, get_eq, rfl⟩
  rw [(inv.addrs full.addr other).mpr ⟨otherFull, other_get, addr_eq⟩] at found
  exact Option.some.inj found

/-- What a session knows of, a client may be told. -/
theorem Truth.backed (truth : Truth v) {sid : SessionId} (live : v.core.entry drv = some ent)
    (assigned : ent.worker = some wid) (listed : v.core.roster[wid]? = some wkr)
    (seat : v.workers.lookup wid = some sid) (told : Told v.log sid ent.pathKey ent.assignId) :
    Backed v.log (assignedTo wkr ent) := by
  obtain ⟨found, found_listed, up⟩ := assigned_up truth.inv live assigned
  obtain rfl : found = wkr := Option.some.inj (found_listed.symm.trans listed)
  exact ⟨sid, truth.session wid found sid listed up seat, told⟩

theorem Truth.connect (truth : Truth v) :
    Truth { v with nextClient := v.nextClient + 1, clients := v.nextClient :: v.clients } where
  inv := truth.inv
  seated := truth.seated
  session := truth.session
  clients client mem := by
    rcases List.mem_cons.mp mem with rfl | mem
    · exact Nat.lt_succ_self _
    · exact (truth.clients client mem).trans (Nat.lt_succ_self _)
  followers drv ent live client mem := (truth.followers drv ent live client mem).trans (Nat.lt_succ_self _)
  told := truth.told
  heard drv ent wid wkr live assigned listed settled client follows connected := by
    rcases List.mem_cons.mp connected with rfl | connected
    · exact absurd (truth.followers drv ent live _ follows) (lt_irrefl _)
    · exact truth.heard drv ent wid wkr live assigned listed settled client follows connected
  truthful := truth.truthful

/-- A placement that was undone leaves nothing to tell. -/
theorem Truth.settle (truth : Truth v) {sup : Superseded}
    (idle : ∀ ent, v.core.entry sup.drv = some ent → ent.worker = none) :
    Truth { v with pending := v.pending \ {sup} } where
  inv := truth.inv
  seated := truth.seated
  session := truth.session
  clients := truth.clients
  followers := truth.followers
  told drv ent wid sid live assigned settled := by
    refine truth.told drv ent wid sid live assigned fun other mem => ?_
    by_cases same : other = sup
    · rintro rfl
      simp [idle ent (same ▸ live)] at assigned
    · exact settled other ⟨mem, same⟩
  heard drv ent wid wkr live assigned listed settled := by
    refine truth.heard drv ent wid wkr live assigned listed fun other mem => ?_
    by_cases same : other = sup
    · rintro rfl
      simp [idle ent (same ▸ live)] at assigned
    · exact settled other ⟨mem, same⟩
  truthful := truth.truthful

/-- What the core places is left to be told. -/
theorem Truth.place (truth : Truth v) {out : List Assign} (inv : s'.Inv)
    (places : Core.Places v.core out s') (all_settled : v.pending = ∅) :
    Truth
      { v with core := s', pending := {sup | ∃ asg ∈ out, sup = { drv := asg.drv }}, placing := out } := by
  have others : ∀ drv, (∀ sup ∈ {sup : Superseded | ∃ asg ∈ out, sup = { drv := asg.drv }}, sup.drv ≠ drv) →
      s'.entry drv = v.core.entry drv :=
    fun drv settled => places.other drv fun asg mem => settled { drv := asg.drv } ⟨asg, mem, rfl⟩
  have none_pending : ∀ drv, v.Settled drv := fun drv sup mem => by simp [all_settled] at mem
  refine ⟨inv, ?_, ?_, truth.clients, ?_, ?_, ?_, truth.truthful⟩
  · exact fun wid wkr listed => truth.seated wid wkr (places.roster_eq ▸ listed)
  · exact fun wid wkr sid listed => truth.session wid wkr sid (places.roster_eq ▸ listed)
  · intro drv ent live client follows
    by_cases placed : ∃ asg ∈ out, asg.drv = drv
    · obtain ⟨asg, mem, rfl⟩ := placed
      obtain ⟨old, -, old_live, -, -, -, -, new_eq⟩ := places.placed asg mem
      cases new_eq.symm.trans live
      exact truth.followers asg.drv old old_live client follows
    · have same := places.other drv fun asg mem is_drv => placed ⟨asg, mem, is_drv⟩
      exact truth.followers drv ent (same ▸ live) client follows
  · exact fun drv ent wid sid live assigned settled =>
      truth.told drv ent wid sid (others drv settled ▸ live) assigned (none_pending drv)
  · exact fun drv ent wid wkr live assigned listed settled =>
      truth.heard drv ent wid wkr (others drv settled ▸ live) assigned (places.roster_eq ▸ listed)
        (none_pending drv)

/-- An assigned entry is told to those of its followers who do not know. -/
theorem Truth.say (truth : Truth v) (said : List Event) {new : Entry} {sid : SessionId}
    {pending : Set Superseded} (inv : s'.Inv) (live : v.core.entry drv = some ent)
    (assigned : ent.worker = some wid) (listed : v.core.roster[wid]? = some wkr)
    (seat : v.workers.lookup wid = some sid) (told : Told v.log sid ent.pathKey ent.assignId)
    (roster_eq : s'.roster = v.core.roster) (entry_eq : s'.entry = Function.update v.core.entry drv (some new))
    (same : new.worker = ent.worker ∧ new.assignId = ent.assignId ∧ new.pathKey = ent.pathKey)
    (known : ∀ client ∈ new.followers, client < v.nextClient)
    (each : ∀ event ∈ said, event.Mute ∨ ∃ client, event = .toClient client (.assigned (assignedTo wkr ent)))
    (all : ∀ client ∈ new.followers, client ∈ v.clients →
      .toClient client (.assigned (assignedTo wkr ent)) ∈ said ∨ v.Settled drv ∧ client ∈ ent.followers)
    (fewer : ∀ other ≠ drv, (∀ sup ∈ pending, sup.drv ≠ other) → v.Settled other) :
    Truth { v with core := s', log := said ++ v.log, pending } := by
  have silent : ∀ event ∈ said, ∀ addr, helloIn addr event = none := by
    intro event mem addr
    rcases each event mem with mute | ⟨client, rfl⟩
    · exact mute.helloIn_eq
    · rfl
  have last : ∀ client key, lastAssigned (said ++ v.log) client key = _ :=
    fun client key => lastAssigned_said each
  have entry_cases : ∀ other found, s'.entry other = some found →
      other = drv ∧ found = new ∨ other ≠ drv ∧ v.core.entry other = some found := by
    intro other found found_live
    rw [entry_eq] at found_live
    by_cases is_drv : other = drv
    · rw [is_drv, Function.update_self] at found_live
      exact .inl ⟨is_drv, (Option.some.inj found_live).symm⟩
    · rw [Function.update_of_ne is_drv] at found_live
      exact .inr ⟨is_drv, found_live⟩
  refine ⟨inv, ?_, ?_, truth.clients, ?_, ?_, ?_, ?_⟩
  · exact fun wid wkr listed => truth.seated wid wkr (roster_eq ▸ listed)
  · intro other otherWkr otherSid other_listed up other_seat
    rw [lastHello_append fun event mem => silent event mem _]
    exact truth.session other otherWkr otherSid (roster_eq ▸ other_listed) up other_seat
  · intro other found found_live client follows
    rcases entry_cases other found found_live with ⟨rfl, rfl⟩ | ⟨-, old_live⟩
    · exact known client follows
    · exact truth.followers other found old_live client follows
  · intro other found otherWid otherSid found_live found_assigned settled other_seat
    rcases entry_cases other found found_live with ⟨rfl, rfl⟩ | ⟨other_ne, old_live⟩
    · cases assigned.symm.trans (same.1 ▸ found_assigned)
      cases seat.symm.trans other_seat
      rw [same.2.1, same.2.2]
      exact told.mono said
    · exact (truth.told other found otherWid otherSid old_live found_assigned
        (fewer other other_ne settled) other_seat).mono said
  · intro other found otherWid otherWkr found_live found_assigned other_listed settled client follows connected
    rw [roster_eq] at other_listed
    rcases entry_cases other found found_live with ⟨rfl, rfl⟩ | ⟨other_ne, old_live⟩
    · cases assigned.symm.trans (same.1 ▸ found_assigned)
      cases listed.symm.trans other_listed
      rw [last, same.2.1, same.2.2]
      split_ifs with is_said
      · exact ⟨_, rfl, rfl, rfl⟩
      · rcases all client follows connected with mem | ⟨old_settled, old_follows⟩
        · exact absurd ⟨mem, rfl⟩ is_said
        · exact truth.heard other ent wid wkr live assigned listed old_settled client old_follows connected
    · rw [last, if_neg]
      · exact truth.heard other found otherWid otherWkr old_live found_assigned other_listed
          (fewer other other_ne settled) client follows connected
      · rintro ⟨-, key_eq⟩
        exact other_ne (drv_unique truth.inv live old_live key_eq.symm)
  · refine truth.truthful.append silent fun client asg mem => ?_
    rcases each _ mem with mute | ⟨other, is_said⟩
    · exact mute.elim
    · cases is_said
      exact truth.backed live assigned listed seat told

/-- After its worker left, an entry is elsewhere, or waits for someone. -/
theorem leave_cases (inv : s.Inv) (left : (s.entry drv).bind (Core.leave wid) = some ent) :
    ent.worker ≠ some wid ∧ (ent.worker = none → ent.followers ≠ []) ∧
      (ent.worker ≠ none → s.entry drv = some ent) := by
  obtain ⟨old, old_live, left⟩ := Option.bind_eq_some_iff.mp left
  unfold Core.leave at left
  split_ifs at left with assigned followed
  · cases left
    exact ⟨nofun, fun _ => followed, fun busy => absurd rfl busy⟩
  · obtain rfl := Option.some.inj left
    exact ⟨assigned, inv.queues.followed drv (Set.notMem_empty drv) old old_live, fun _ => old_live⟩

variable {superseded : List Superseded}

/-- What is assigned after a Hello was so before, is left to be told, or is only known from it. -/
theorem greeted_cases {info : HelloInfo} {other : WorkerId}
    (inv : s.Inv) (greeted : Core.Greeted s s' info wid superseded) (live : s'.entry drv = some ent)
    (assigned : ent.worker = some other) :
    (∃ sup ∈ superseded, sup.drv = drv) ∨ s.entry drv = some ent ∧ other ≠ wid ∨
      other = wid ∧ ent.followers = [] ∧
        ∃ path, (path, ent.assignId) ∈ info.running ∧ PathKey.ofPath path = ent.pathKey := by
  cases left : (s.entry drv).bind (Core.leave wid) with
  | none =>
    obtain ⟨path, assignId, report_eq, rfl⟩ := greeted.created drv ent left live
    obtain ⟨found, mem, key_eq⟩ := Core.mem_of_reported report_eq
    exact .inr (.inr ⟨(Option.some.inj assigned).symm, rfl, found, mem, key_eq⟩)
  | some mid =>
    obtain ⟨not_wid, followed, old⟩ := leave_cases inv left
    have adopted := greeted.known drv mid left
    cases adopted.symm.trans live
    cases report_eq : Core.reported info.running mid.pathKey with
    | none =>
      rw [Core.adoptEntry, report_eq] at assigned live
      refine .inr (.inl ⟨?_, fun is_wid => not_wid (is_wid ▸ assigned)⟩)
      rw [Core.adoptEntry, report_eq]
      exact old (by simp [assigned])
    | some assignId =>
      have is_lost : ∃ sup, Core.lostTo wid drv mid = some sup ∧ sup.drv = drv := by
        unfold Core.lostTo
        cases owner : mid.worker with
        | none => exact ⟨_, if_neg (followed owner), rfl⟩
        | some loser =>
          have loser_ne : loser ≠ wid := fun is_wid => not_wid (is_wid ▸ owner)
          exact ⟨_, if_neg loser_ne, rfl⟩
      obtain ⟨sup, lost, rfl⟩ := is_lost
      exact .inl ⟨sup, (greeted.superseded_iff sup).mpr ⟨mid, left, by simp [report_eq], lost⟩, rfl⟩

theorem greeted_followers {info : HelloInfo} (greeted : Core.Greeted s s' info wid superseded)
    (live : s'.entry drv = some ent) {client : ClientId} (follows : client ∈ ent.followers) :
    ∃ old, s.entry drv = some old ∧ old.pathKey = ent.pathKey ∧ old.unplaceable = ent.unplaceable ∧
      client ∈ old.followers := by
  cases left : (s.entry drv).bind (Core.leave wid) with
  | none =>
    obtain ⟨path, assignId, -, rfl⟩ := greeted.created drv ent left live
    cases follows
  | some mid =>
    cases (greeted.known drv mid left).symm.trans live
    obtain ⟨old, old_live, shrunk⟩ := Option.bind_eq_some_iff.mp left
    have shrinks := leave_shrinks shrunk
    have adopted : (Core.adoptEntry wid info.running mid).followers = mid.followers ∧
        (Core.adoptEntry wid info.running mid).pathKey = mid.pathKey ∧
        (Core.adoptEntry wid info.running mid).unplaceable = mid.unplaceable := by
      unfold Core.adoptEntry
      cases Core.reported info.running mid.pathKey with
      | none => exact ⟨rfl, rfl, rfl⟩
      | some assignId => exact ⟨rfl, rfl, rfl⟩
    rw [adopted.1] at follows
    refine ⟨old, old_live, ?_, ?_, shrinks.followers_sub follows⟩
    · rw [adopted.2.1, Entry.pathKey, Entry.pathKey, shrinks.path_eq]
    · rw [adopted.2.2, shrinks.flag_eq]

/-- A Hello leaves the entries to be told that its worker took over. -/
theorem Truth.greet (truth : Truth v) (sid : SessionId) {hel : Hello} {systems : List String}
    (inv : s'.Inv) (greeted : Core.Greeted v.core s' (helloInfo hel systems) wid superseded)
    (all_settled : v.pending = ∅) (rested : v.placing = []) :
    Truth
      { v with
        core := s'
        workers := v.workers.insert wid sid
        log := .hello sid hel :: v.log
        pending := {sup | sup ∈ superseded} } := by
  have none_pending : ∀ drv, v.Settled drv := fun drv sup mem => by simp [all_settled] at mem
  have last_other : ∀ client key, lastAssigned (.hello sid hel :: v.log) client key =
      lastAssigned v.log client key := fun client key => rfl
  have greets : Move True v _ := .greet v sid inv greeted all_settled rested
  refine ⟨inv, moves_seated (.single greets) truth.seated, ?_, truth.clients, ?_, ?_, ?_, ?_⟩
  · intro other wkr otherSid listed up seat
    by_cases is_wid : other = wid
    · rw [is_wid, AList.lookup_insert] at seat
      rw [is_wid] at listed
      cases greeted.roster_self.symm.trans listed
      cases seat
      simp [lastHello, helloIn, helloInfo, HelloInfo.worker]
    · rw [AList.lookup_insert_ne is_wid] at seat
      have addr_ne : hel.addr ≠ wkr.addr := fun addr_eq =>
        is_wid (wid_unique inv greeted.roster_self listed addr_eq.symm)
      have old_listed := (greeted.roster_other other is_wid) ▸ listed
      refine Eq.trans ?_ (truth.session other wkr otherSid old_listed up seat)
      exact lastHello_append (show ∀ event ∈ [.hello sid hel], helloIn wkr.addr event = none by
        simp [helloIn, addr_ne])
  · intro drv ent live client follows
    obtain ⟨old, old_live, -, -, old_follows⟩ := greeted_followers greeted live follows
    exact truth.followers drv old old_live client old_follows
  · intro drv ent other otherSid live assigned settled seat
    rcases greeted_cases truth.inv greeted live assigned with
      ⟨sup, mem, is_drv⟩ | ⟨old_live, other_ne⟩ | ⟨rfl, -, path, mem, key_eq⟩
    · exact absurd is_drv (settled sup mem)
    · rw [AList.lookup_insert_ne other_ne] at seat
      exact (truth.told drv ent other otherSid old_live assigned (none_pending drv) seat).mono [.hello sid hel]
    · rw [AList.lookup_insert] at seat
      cases seat
      exact .inr ⟨hel, path, List.mem_cons_self, mem, key_eq⟩
  · intro drv ent other wkr live assigned listed settled client follows connected
    rcases greeted_cases truth.inv greeted live assigned with
      ⟨sup, mem, is_drv⟩ | ⟨old_live, other_ne⟩ | ⟨rfl, unfollowed, -⟩
    · exact absurd is_drv (settled sup mem)
    · rw [last_other]
      exact truth.heard drv ent other wkr old_live assigned ((greeted.roster_other other other_ne) ▸ listed)
        (none_pending drv) client follows connected
    · rw [unfollowed] at follows
      cases follows
  · intro newer client asg older split
    cases newer with
    | nil => cases split
    | cons event newer => exact truth.truthful newer client asg older (List.cons.inj split).2

theorem Refuses.mute {path : String} {msg : SchedMsg} (refusal : Refuses path msg) (client : ClientId) :
    (Event.toClient client msg).Mute := by
  cases msg with
  | assigned => exact refusal
  | _ => trivial

theorem SaysFlag.mute {msg : SchedMsg} (told : SaysFlag ent msg) (client : ClientId) :
    (Event.toClient client msg).Mute := by
  unfold SaysFlag at told
  split_ifs at told
  · obtain ⟨reason, rfl⟩ := told
    trivial
  · rw [told]
    trivial

theorem loses_of_entry_eq {change : DrvId → Entry → Entry}
    (roster_eq : s'.roster = s.roster) (entry_eq : ∀ drv, s'.entry drv = (s.entry drv).map (change drv))
    (same : ∀ drv ent, (change drv ent).worker = ent.worker ∧
      (change drv ent).assignId = ent.assignId ∧ (change drv ent).drvPath = ent.drvPath ∧
      (change drv ent).followers = ent.followers) : Loses s s' where
  entry drv new wid live assigned := by
    rw [entry_eq] at live
    obtain ⟨ent, old_live, rfl⟩ := Option.map_eq_some_iff.mp live
    obtain ⟨worker_eq, id_eq, path_eq, followers_eq⟩ := same drv ent
    exact ⟨ent, old_live, worker_eq ▸ assigned, id_eq, congrArg PathKey.ofPath path_eq,
      followers_eq ▸ List.Subset.refl _⟩
  worker wid wkr listed up := ⟨wkr, roster_eq ▸ listed, up, rfl⟩

theorem Sheds.loses (sheds : Sheds lossy s s') : Loses s s' where
  entry drv new wid live assigned := by
    obtain ⟨ent, old_live, shrinks⟩ := sheds.entry drv new live
    obtain ⟨worker_eq, id_eq⟩ := shrinks.assigned.resolve_left (by simp [assigned])
    exact ⟨ent, old_live, worker_eq ▸ assigned, id_eq, congrArg PathKey.ofPath shrinks.path_eq,
      shrinks.followers_sub⟩
  worker := sheds.worker

section Wants

variable {s s' : Core} {cfg : Config} {client : ClientId} {want : Want} {nowMs : ℚ}

section Wanting

variable (wanted : Core.Wanted s s' client (wantInfo cfg want) nowMs drv)
include wanted

/-- Followers of entries after a Want. -/
theorem wanted_followers {other : DrvId} {new : Entry} (live : s'.entry other = some new)
    {follower : ClientId} (follows : follower ∈ new.followers) :
    follower = client ∧ other = drv ∨ ∃ ent, s.entry other = some ent ∧ follower ∈ ent.followers := by
  rw [wanted.entry_eq] at live
  by_cases is_drv : other = drv
  · rw [is_drv, Function.update_self] at live
    cases live
    rcases (Core.mem_wantEntry_followers client _ _ _).mp follows with rfl | old
    · exact .inl ⟨rfl, is_drv⟩
    · exact .inr (is_drv ▸ old)
  · rw [Function.update_of_ne is_drv] at live
    exact .inr ⟨new, live, follows⟩

theorem wanted_roster :
    s'.roster = s.roster := by
  rw [Core.roster, wanted.workers_eq, Core.roster]

/-- A Want that waits assigns nothing. -/
theorem wanted_loses (waits : ∀ ent, s.entry drv = some ent → ent.worker = none) : Loses s s' where
  entry other new wid live assigned := by
    rw [wanted.entry_eq] at live
    by_cases is_drv : other = drv
    · rw [is_drv, Function.update_self] at live
      cases live
      rw [Core.wantEntry_worker] at assigned
      obtain ⟨ent, old_live, old_assigned⟩ := Option.bind_eq_some_iff.mp assigned
      simp [waits ent old_live] at old_assigned
    · rw [Function.update_of_ne is_drv] at live
      exact ⟨new, live, assigned, rfl, rfl, List.Subset.refl _⟩
  worker wid wkr listed up := ⟨wkr, wanted_roster wanted ▸ listed, up, rfl⟩

end Wanting

end Wants

/-- A Want that joins an assigned entry is told at once. -/
theorem Truth.join (truth : Truth v) {cfg : Config} {client : ClientId} {want : Want} {nowMs : ℚ}
    (inv : s'.Inv) (wanted : Core.Wanted v.core s' client (wantInfo cfg want) nowMs drv)
    (known : client < v.nextClient) (live : v.core.entry drv = some ent)
    (assigned : ent.worker = some wid) (listed : v.core.roster[wid]? = some wkr)
    (settled : v.pending = ∅) :
    Truth
      { v with
        core := s'
        log := .toClient client (.assigned (assignedTo wkr ent)) :: .want client want .kept :: v.log } := by
  have none_pending : ∀ drv, v.Settled drv := fun drv sup mem => by simp [settled] at mem
  obtain ⟨found, found_listed, up⟩ := assigned_up truth.inv live assigned
  obtain rfl : found = wkr := Option.some.inj (found_listed.symm.trans listed)
  obtain ⟨sid, seat⟩ := Option.isSome_iff_exists.mp (truth.seated wid found listed up)
  have entry_eq := wanted.entry_eq
  rw [live] at entry_eq
  have new_live : s'.entry drv = some (Core.wantEntry client (wantInfo cfg want) nowMs (some ent)) := by
    rw [entry_eq, Function.update_self]
  refine truth.say [_, _] inv live assigned listed seat
    (truth.told drv ent wid sid live assigned (none_pending drv) seat) (wanted_roster wanted) entry_eq
    ⟨by simp, Core.wantEntry_assignId .., ?_⟩ (fun follower follows => ?_) (fun event mem => ?_)
    (fun follower follows connected => ?_) fun other _ _ => none_pending other
  · simp [Entry.pathKey]
  · rcases wanted_followers wanted new_live follows with ⟨rfl, -⟩ | ⟨old, old_live, old_follows⟩
    · exact known
    · exact truth.followers drv old old_live follower old_follows
  · rcases List.mem_cons.mp mem with rfl | mem
    · exact .inr ⟨client, rfl⟩
    · rw [List.mem_singleton.mp mem]
      exact .inl trivial
  · rcases wanted_followers wanted new_live follows with ⟨rfl, -⟩ | ⟨old, old_live, old_follows⟩
    · exact .inl List.mem_cons_self
    · cases live.symm.trans old_live
      exact .inr ⟨none_pending drv, old_follows⟩

/-- Every move keeps to the truth. -/
theorem Move.truth (move : Move lossy v v') (truth : Truth v) : Truth v' := by
  have same : Loses v.core v.core :=
    ⟨fun drv ent wid live assigned => ⟨ent, live, assigned, rfl, rfl, List.Subset.refl _⟩,
      fun wid wkr listed up => ⟨wkr, listed, up, rfl⟩⟩
  cases move with
  | connect => exact truth.connect
  | hear event quiet =>
    exact truth.loses [event] truth.inv same (by simpa using quiet.mute) rfl rfl
      (List.Subset.refl _) rfl (fun _ _ _ _ => rfl) truth.followers
  | @refuse client want answer msg turned_down refusal =>
    refine truth.loses [.toClient client msg, .want client want answer] truth.inv same ?_ rfl rfl
      (List.Subset.refl _) rfl (fun _ _ _ _ => rfl) truth.followers
    simpa using ⟨refusal.mute client, trivial⟩
  | @overflow client want unknown =>
    exact truth.loses [.want client want .kept] truth.inv same (by simp [Event.Mute]) rfl rfl
      (List.Subset.refl _) rfl (fun _ _ _ _ => rfl) truth.followers
  | @keep cfg client want nowMs drv s' inv wanted known waits =>
    refine truth.loses [.want client want .kept] inv (wanted_loses wanted waits) (by simp [Event.Mute])
      rfl rfl (List.Subset.refl _) rfl (fun _ _ _ _ => rfl) fun other new live follower follows => ?_
    rcases wanted_followers wanted live follows with ⟨rfl, -⟩ | ⟨old, old_live, old_follows⟩
    · exact known
    · exact truth.followers other old old_live follower old_follows
  | join inv wanted known live assigned listed settled =>
    exact truth.join inv wanted known live assigned listed settled
  | shed inv sheds fewer seats =>
    refine truth.loses [] inv sheds.loses (by simp) rfl rfl fewer rfl seats fun drv new live client follows => ?_
    obtain ⟨ent, old_live, shrinks⟩ := sheds.entry drv new live
    exact truth.followers drv ent old_live client (shrinks.followers_sub follows)
  | place inv places settled => exact truth.place inv places settled
  | @announce asg ent fresh live stands =>
    exact truth.loses [.placed asg ent.drvPath] truth.inv same (by simp [Event.Mute]) rfl rfl
      (List.Subset.refl _) rfl (fun _ _ _ _ => rfl) truth.followers
  | @tell sup revokes ent wid wkr sid live assigned listed seat told quiet revoked =>
    refine truth.say (revokes ++ handed v.clients (.assigned (assignedTo wkr ent)) ent.followers)
      truth.inv live assigned listed seat told rfl (Function.update_eq_self_iff.mpr live.symm).symm
      ⟨rfl, rfl, rfl⟩ (truth.followers sup.drv ent live) (fun event mem => ?_)
      (fun client follows connected => ?_) fun other other_ne settled pending mem => ?_
    · rcases List.mem_append.mp mem with mem | mem
      · exact .inl (quiet event mem).mute
      · obtain ⟨client, -, -, rfl⟩ := mem_handed.mp mem
        exact .inr ⟨client, rfl⟩
    · exact .inl (List.mem_append_right revokes (mem_handed.mpr ⟨client, follows, connected, rfl⟩))
    · by_cases is_sup : pending = sup
      · exact is_sup ▸ other_ne.symm
      · exact settled pending ⟨mem, is_sup⟩
  | settle idle => exact truth.settle idle
  | rest | acquit =>
    exact truth.loses [] truth.inv same (by simp) rfl rfl (List.Subset.refl _) rfl (fun _ _ _ _ => rfl)
      truth.followers
  | greet sid inv greeted settled rested => exact truth.greet sid inv greeted settled rested
  | @flags s' said inv roster_eq entry_eq sound complete =>
    refine truth.loses said inv (loses_of_entry_eq roster_eq entry_eq fun _ ent => by simp)
      (fun event mem => ?_) rfl rfl (List.Subset.refl _) rfl (fun _ _ _ _ => rfl)
      fun drv new live client follows => ?_
    · obtain ⟨drv, ent, client, msg, rfl, -, told⟩ := sound event mem
      exact told.mute client
    · rw [entry_eq] at live
      obtain ⟨ent, old_live, rfl⟩ := Option.map_eq_some_iff.mp live
      exact truth.followers drv ent old_live client (by simpa using follows)
  | @mark s' client drv ent reason inv live roster_eq entry_eq old_news =>
    have entry_map : ∀ other, s'.entry other = (v.core.entry other).map fun found =>
        if other = drv then { found with unplaceable := true } else found := by
      intro other
      rw [entry_eq]
      by_cases is_drv : other = drv
      · simp [is_drv, live]
      · simp [is_drv]
    refine truth.loses [.toClient client (.unplaceable ent.drvPath reason)] inv
      (loses_of_entry_eq roster_eq entry_map fun other found => ?_) (by simp [Event.Mute]) rfl rfl
      (List.Subset.refl _) rfl (fun _ _ _ _ => rfl) fun other new other_live follower follows => ?_
    · split_ifs <;> exact ⟨rfl, rfl, rfl, rfl⟩
    · rw [entry_map] at other_live
      obtain ⟨old, old_live, rfl⟩ := Option.map_eq_some_iff.mp other_live
      refine truth.followers other old old_live follower ?_
      split_ifs at follows <;> exact follows

theorem moves_truth (moves : Moves lossy v v') (truth : Truth v) : Truth v' := by
  induction moves with
  | refl => exact truth
  | tail _ move ih => exact move.truth ih

end Moves

/-! ## Runs -/

theorem truth_start (config : Sched.Config) :
    Truth (State.stage { core := { cfg := config } } ∅) where
  inv := Core.inv_empty config
  seated _ _ listed := by simp [State.stage, Core.roster] at listed
  session _ _ _ listed := by simp [State.stage, Core.roster] at listed
  clients := nofun
  followers _ _ live := by simp [State.stage, Core.entry] at live
  told _ _ _ _ live := by simp [State.stage, Core.entry] at live
  heard _ _ _ _ live := by simp [State.stage, Core.entry] at live
  truthful newer client asg older split := by simp [State.stage] at split

/-- Every state of every run keeps to the truth. -/
theorem Reached.truth {cfg : Config} {x : Dispatcher} {calls : List Call} (reached : Reached cfg x calls) :
    Truth (x.state.stage ∅) := by
  obtain ⟨config, serves⟩ := reached.serves
  exact moves_truth serves.does.moves (truth_start config)

/-- In every run, the last Assigned of each connected follower names the worker and the assignment
its entry has; and whenever a client is sent an Assigned, the live session of that worker has been
sent the Expect, or has reported the assignment in its Hello. -/
theorem placements_told {cfg : Config} {x : Dispatcher} {calls : List Call} (reached : Reached cfg x calls) :
    (∀ drv ent wid, x.state.core.entry drv = some ent → ent.worker = some wid →
      ∃ wkr sid, x.state.core.workers[wid]? = some wkr ∧ x.state.workers.lookup wid = some sid ∧
        lastHello x.state.log wkr.addr = some sid ∧ Told x.state.log sid ent.pathKey ent.assignId ∧
        ∀ client ∈ ent.followers, client ∈ x.state.clients → ∃ asg,
          lastAssigned x.state.log client ent.pathKey = some asg ∧ asg.workerAddr = wkr.addr ∧
            asg.assignId = ent.assignId) ∧
      ∀ newer client asg older,
        x.state.log = newer ++ .toClient client (.assigned asg) :: older → Backed older asg := by
  have truth := reached.truth
  refine ⟨fun drv ent wid live assigned => ?_, truth.truthful⟩
  have settled : (x.state.stage ∅).Settled drv := nofun
  obtain ⟨wkr, listed, up⟩ := assigned_up truth.inv live assigned
  obtain ⟨full, get_eq, rfl⟩ := get_of_roster_get listed
  obtain ⟨sid, seat⟩ := Option.isSome_iff_exists.mp (truth.seated wid _ listed up)
  have heard := truth.heard drv ent wid _ live assigned listed settled
  have session := truth.session wid _ sid listed up seat
  exact ⟨full, sid, get_eq, seat, session, truth.told drv ent wid sid live assigned settled seat, heard⟩

theorem placements_told_onePlacement :
    ∃ x ent wkr asg, Reached uncached x (onePlacement.map Prod.snd) ∧ x.state.core.entry 0 = some ent ∧
      ent.worker = some 0 ∧ x.state.core.workers[0]? = some wkr ∧
      lastAssigned x.state.log 1 ent.pathKey = some asg ∧ asg.workerAddr = wkr.addr := by
  obtain ⟨x, ent, reached, live, assigned, followers_eq, clients_eq⟩ := onePlacement_reached
  obtain ⟨wkr, sid, get_eq, -, -, -, heard⟩ := (placements_told reached).1 0 ent 0 live assigned
  obtain ⟨asg, last, addr_eq, -⟩ := heard 1 (by simp [followers_eq]) (by simp [clients_eq])
  exact ⟨x, ent, wkr, asg, reached, live, assigned, get_eq, last, addr_eq⟩

end NixGrpcStore.Dispatcher
