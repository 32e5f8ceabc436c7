import NixGrpcStore.Dispatcher.Truth

/-!
# Soft state is rebuilt in any order

A restarted scheduler learns from the Hellos of its workers who builds what.  Clients may want the
same derivations before, so that they are placed a second time, and cancel them again.  As long as no
work is lost meanwhile, every reported derivation ends up with its reporter, and whoever was given a
copy is told to stop.
-/

namespace NixGrpcStore.Dispatcher

open List (mem_append mem_cons)
open Sched Remote StateExcept

/-- Two Hellos come from different workers and report different derivations. -/
def Apart (event other : Event) : Prop :=
  ∀ sid hel otherSid otherHel, event = .hello sid hel → other = .hello otherSid otherHel →
    hel.addr ≠ otherHel.addr ∧
      ∀ key, (Core.reported hel.running key).isSome → Core.reported otherHel.running key = none

/-- Every worker says Hello once, and no derivation is reported by two of them. -/
def OneHello (log : List Event) : Prop := log.Pairwise Apart

theorem oneHello_iff {log : List Event} : OneHello log ↔
    (log.filterMap Event.said).Pairwise fun said other => said.2.addr ≠ other.2.addr ∧
      ∀ key, (Core.reported said.2.running key).isSome → Core.reported other.2.running key = none := by
  rw [List.pairwise_filterMap, OneHello]
  refine ⟨fun apart => apart.imp fun {event other} both said is_hello otherSaid other_hello => ?_,
    fun apart => apart.imp fun {event other} both sid hel otherSid otherHel is_hello other_hello => ?_⟩
  · exact both _ _ _ _ (Event.eq_hello is_hello) (Event.eq_hello other_hello)
  · subst is_hello other_hello
    exact both _ rfl _ rfl

/-- Events that neither open a session nor place a derivation. -/
def Event.Plain : Event → Prop
  | .hello _ _ => False
  | .placed _ _ => False
  | _ => True

theorem Event.Quiet.plain {event : Event} (quiet : event.Quiet) : event.Plain := by
  match event with
  | .hello _ _ => exact quiet
  | .placed _ _ => exact quiet
  | .toClient _ _ | .toSession _ _ _ | .want _ _ _ | .cancel _ _ => trivial

/-- What was reported and what was placed is accounted for. -/
structure Rebuilt (v : Stage) : Prop where
  reported : ∀ sid hel key assignId, .hello sid hel ∈ v.log →
    Core.reported hel.running key = some assignId →
    ∃ (drv : DrvId) (ent : Entry) (wid : WorkerId) (wkr : Worker), v.core.entry drv = some ent ∧
      ent.pathKey = key ∧ ent.worker = some wid ∧ ent.assignId = assignId ∧
      v.core.roster[wid]? = some wkr ∧ wkr.addr = hel.addr
  placed : ∀ asg path, .placed asg path ∈ v.log →
    ∃ (drv : DrvId) (ent : Entry) (wkr : Worker), v.core.entry drv = some ent ∧
      ent.pathKey = PathKey.ofPath path ∧ ent.worker ≠ none ∧
      v.core.roster[asg.worker]? = some wkr ∧ wkr.up = true ∧
      (∀ sid hel, .hello sid hel ∈ v.log → (Core.reported hel.running (PathKey.ofPath path)).isSome →
        wkr.addr ≠ hel.addr) ∧
      (ent.worker = some asg.worker ∨ { drv, loser := some asg.worker } ∈ v.pending ∨
        ∃ sid revoked, v.workers.lookup asg.worker = some sid ∧
          .toSession sid (.revoke revoked) true ∈ v.log ∧ PathKey.ofPath revoked = PathKey.ofPath path)
  placing : ∀ asg ∈ v.placing, ∃ ent, v.core.entry asg.drv = some ent ∧ ent.worker ≠ none ∧
    ∀ sid hel, .hello sid hel ∈ v.log → Core.reported hel.running ent.pathKey = none

/-- What is assigned stays so, and who is up stays up. -/
structure Holds (s s' : Core) : Prop where
  entry : ∀ drv ent, s.entry drv = some ent → ent.worker ≠ none →
    ∃ new, s'.entry drv = some new ∧ new.drvPath = ent.drvPath ∧ new.worker = ent.worker ∧
      new.assignId = ent.assignId
  worker : ∀ (wid : WorkerId) (wkr : Worker), s.roster[wid]? = some wkr → wkr.up = true →
    ∃ new : Worker, s'.roster[wid]? = some new ∧ new.up = true ∧ new.addr = wkr.addr

section Moves

variable {v v' : Stage} {drv : DrvId} {ent : Entry} {wid : WorkerId} {wkr : Worker}

theorem holds_refl (s : Core) : Holds s s :=
  ⟨fun _ ent live _ => ⟨ent, live, rfl, rfl, rfl⟩, fun _ wkr listed up => ⟨wkr, listed, up, rfl⟩⟩

/-- A move that holds on to what is assigned. -/
theorem Rebuilt.holds (rebuilt : Rebuilt v) (inv : v.core.Inv) (more : List Event)
    (holds : Holds v.core v'.core) (plain : ∀ event ∈ more, event.Plain)
    (log_eq : v'.log = more ++ v.log)
    (pending : ∀ drv ent wid, v.core.entry drv = some ent → ent.worker ≠ none →
      { drv, loser := some wid } ∈ v.pending → { drv, loser := some wid } ∈ v'.pending)
    (seats : ∀ (wid : WorkerId) (wkr : Worker), v.core.roster[wid]? = some wkr → wkr.up = true →
      v'.workers.lookup wid = v.workers.lookup wid)
    (placing : ∀ asg ∈ v'.placing, ∃ ent, v.core.entry asg.drv = some ent ∧ ent.worker ≠ none ∧
      ∀ sid hel, .hello sid hel ∈ v.log → Core.reported hel.running ent.pathKey = none) :
    Rebuilt v' := by
  have old_event : ∀ event ∈ v'.log, ¬ event.Plain → event ∈ v.log := by
    intro event mem special
    rw [log_eq] at mem
    exact (mem_append.mp mem).resolve_left fun fresh => special (plain event fresh)
  refine ⟨fun sid hel key assignId mem report_eq => ?_, fun asg path mem => ?_, fun asg mem => ?_⟩
  · obtain ⟨drv, ent, wid, wkr, live, key_eq, assigned, id_eq, listed, addr_eq⟩ :=
      rebuilt.reported sid hel key assignId (old_event _ mem id) report_eq
    obtain ⟨new, new_live, path_eq, worker_eq, new_id⟩ := holds.entry drv ent live (by simp [assigned])
    obtain ⟨found, found_listed, up⟩ := assigned_up inv live assigned
    obtain rfl := Option.some.inj (found_listed.symm.trans listed)
    obtain ⟨newWkr, new_listed, -, new_addr⟩ := holds.worker wid found listed up
    exact ⟨drv, new, wid, newWkr, new_live, (congrArg PathKey.ofPath path_eq).trans key_eq,
      worker_eq.trans assigned, new_id.trans id_eq, new_listed, new_addr.trans addr_eq⟩
  · obtain ⟨drv, ent, wkr, live, key_eq, busy, listed, up, foreign, fate⟩ :=
      rebuilt.placed asg path (old_event _ mem id)
    obtain ⟨new, new_live, path_eq, worker_eq, -⟩ := holds.entry drv ent live busy
    obtain ⟨newWkr, new_listed, new_up, new_addr⟩ := holds.worker asg.worker wkr listed up
    refine ⟨drv, new, newWkr, new_live, (congrArg PathKey.ofPath path_eq).trans key_eq,
      worker_eq ▸ busy, new_listed, new_up, fun sid hel said => ?_, ?_⟩
    · rw [new_addr]
      exact foreign sid hel (old_event _ said id)
    rcases fate with stays | waits | ⟨sid, revoked, seat, sent, same_key⟩
    · exact .inl (worker_eq.trans stays)
    · exact .inr (.inl (pending drv ent asg.worker live busy waits))
    · refine .inr (.inr ⟨sid, revoked, (seats asg.worker wkr listed up).trans seat, ?_, same_key⟩)
      rw [log_eq]
      exact List.mem_append_right more sent
  · obtain ⟨ent, live, busy, unreported⟩ := placing asg mem
    obtain ⟨new, new_live, path_eq, worker_eq, -⟩ := holds.entry asg.drv ent live busy
    refine ⟨new, new_live, worker_eq ▸ busy, fun sid hel said => ?_⟩
    rw [Entry.pathKey, path_eq]
    exact unreported sid hel (old_event _ said id)

variable {s s' : Core}

theorem holds_of_entry_eq {change : DrvId → Entry → Entry}
    (roster_eq : s'.roster = s.roster) (entry_eq : ∀ drv, s'.entry drv = (s.entry drv).map (change drv))
    (same : ∀ drv ent, (change drv ent).drvPath = ent.drvPath ∧
      (change drv ent).worker = ent.worker ∧ (change drv ent).assignId = ent.assignId) : Holds s s' where
  entry drv ent live _ := ⟨change drv ent, by rw [entry_eq, live, Option.map_some], same drv ent⟩
  worker wid wkr listed up := ⟨wkr, roster_eq ▸ listed, up, rfl⟩

/-- A Want takes nothing away. -/
theorem wanted_holds {cfg : Config} {client : ClientId} {want : Want} {nowMs : ℚ}
    (wanted : Core.Wanted s s' client (wantInfo cfg want) nowMs drv) : Holds s s' where
  entry other ent live _ := by
    rw [wanted.entry_eq]
    by_cases is_drv : other = drv
    · rw [is_drv, Function.update_self, ← is_drv, live]
      exact ⟨_, rfl, by simp⟩
    · rw [Function.update_of_ne is_drv]
      exact ⟨ent, live, rfl, rfl, rfl⟩
  worker wid wkr listed up := ⟨wkr, wanted_roster wanted ▸ listed, up, rfl⟩

/-- Only what waits is placed. -/
theorem places_holds {out : List Assign} (places : Core.Places s out s') : Holds s s' where
  entry drv ent live busy := by
    refine ⟨ent, ?_, rfl, rfl, rfl⟩
    rw [places.other drv, live]
    rintro asg mem rfl
    obtain ⟨old, -, old_live, idle, -⟩ := places.placed asg mem
    cases old_live.symm.trans live
    exact busy idle
  worker wid wkr listed up := ⟨wkr, places.roster_eq ▸ listed, up, rfl⟩

theorem Sheds.holds (sheds : Sheds False s s') : Holds s s' where
  entry := sheds.still id
  worker := sheds.seated id

theorem Rebuilt.announce (rebuilt : Rebuilt v) (inv : v.core.Inv) {asg : Assign} (fresh : asg ∈ v.placing)
    (live : v.core.entry asg.drv = some ent) (assigned : ent.worker = some asg.worker) :
    Rebuilt { v with log := .placed asg ent.drvPath :: v.log } where
  reported sid hel key assignId mem := by
    exact rebuilt.reported sid hel key assignId ((mem_cons.mp mem).resolve_left (by simp))
  placed other path mem := by
    rcases mem_cons.mp mem with is_new | mem
    · cases is_new
      obtain ⟨wkr, listed, up⟩ := assigned_up inv live assigned
      refine ⟨asg.drv, ent, wkr, live, rfl, by simp [assigned], listed, up, fun sid hel said => ?_,
        .inl assigned⟩
      obtain ⟨found, found_live, -, unreported⟩ := rebuilt.placing asg fresh
      cases found_live.symm.trans live
      intro is_reported
      have silent := unreported sid hel ((mem_cons.mp said).resolve_left (by simp))
      rw [Entry.pathKey] at silent
      rw [silent] at is_reported
      cases is_reported
    · obtain ⟨drv, found, wkr, found_live, key_eq, busy, listed, up, foreign, fate⟩ :=
        rebuilt.placed other path mem
      refine ⟨drv, found, wkr, found_live, key_eq, busy, listed, up, fun sid hel said => ?_,
        fate.imp id (.imp id ?_)⟩
      · exact foreign sid hel ((mem_cons.mp said).resolve_left (by simp))
      · rintro ⟨sid, revoked, seat, sent, same_key⟩
        exact ⟨sid, revoked, seat, List.mem_cons_of_mem _ sent, same_key⟩
  placing other mem := by
    obtain ⟨found, found_live, busy, unreported⟩ := rebuilt.placing other mem
    exact ⟨found, found_live, busy, fun sid hel said =>
      unreported sid hel ((mem_cons.mp said).resolve_left (by simp))⟩

/-- What is placed was not reported: what is reported is assigned. -/
theorem Rebuilt.place (rebuilt : Rebuilt v) (truth : Truth v) {out : List Assign}
    (places : Core.Places v.core out s') (settled : v.pending = ∅) :
    Rebuilt
      { v with core := s', pending := {sup | ∃ asg ∈ out, sup = { drv := asg.drv }}, placing := out } := by
  have held : Rebuilt
      { v with core := s', pending := {sup | ∃ asg ∈ out, sup = { drv := asg.drv }} } := by
    refine rebuilt.holds truth.inv [] (places_holds places) (by simp) rfl (fun _ _ _ _ _ mem => ?_)
      (fun _ _ _ _ => rfl) rebuilt.placing
    rw [settled] at mem
    exact mem.elim
  refine ⟨held.reported, held.placed, fun asg mem => ?_⟩
  obtain ⟨ent, -, live, idle, -, -, -, new_live⟩ := places.placed asg mem
  refine ⟨_, new_live, by simp, fun sid hel said => ?_⟩
  by_contra is_reported
  obtain ⟨assignId, report_eq⟩ := Option.ne_none_iff_exists'.mp is_reported
  obtain ⟨drv, found, wid, -, found_live, key_eq, assigned, -⟩ :=
    rebuilt.reported sid hel _ assignId said report_eq
  obtain rfl : drv = asg.drv := drv_unique truth.inv live found_live key_eq
  cases found_live.symm.trans live
  rw [idle] at assigned
  cases assigned

/-- Whoever lost a derivation is told to stop. -/
theorem Rebuilt.tell (rebuilt : Rebuilt v) (truth : Truth v) {sup : Superseded} {revokes : List Event}
    (live : v.core.entry sup.drv = some ent) (quiet : ∀ event ∈ revokes, event.Quiet)
    (revoked : ∀ loser other, sup.loser = some loser → v.workers.lookup loser = some other →
      .toSession other (.revoke ent.drvPath) true ∈ revokes) :
    Rebuilt
      { v with
        log := revokes ++ handed v.clients (.assigned (assignedTo wkr ent)) ent.followers ++ v.log
        pending := v.pending \ {sup} } := by
  have plain : ∀ event ∈ revokes ++ handed v.clients (.assigned (assignedTo wkr ent)) ent.followers,
      event.Plain := by
    intro event mem
    rcases mem_append.mp mem with mem | mem
    · exact (quiet event mem).plain
    · obtain ⟨client, -, -, rfl⟩ := mem_handed.mp mem
      trivial
  have old_event : ∀ event ∈ revokes ++ handed v.clients (.assigned (assignedTo wkr ent)) ent.followers ++
      v.log, ¬ event.Plain → event ∈ v.log := fun event mem special =>
    (mem_append.mp mem).resolve_left fun fresh => special (plain event fresh)
  refine ⟨fun sid hel key assignId mem => ?_, fun asg path mem => ?_, fun asg mem => ?_⟩
  · exact rebuilt.reported sid hel key assignId (old_event _ mem id)
  · obtain ⟨drv, found, wkr, found_live, key_eq, busy, listed, up, foreign, fate⟩ :=
      rebuilt.placed asg path (old_event _ mem id)
    refine ⟨drv, found, wkr, found_live, key_eq, busy, listed, up,
      fun sid hel said => foreign sid hel (old_event _ said id), ?_⟩
    rcases fate with stays | waits | ⟨sid, other, seat, sent, same_key⟩
    · exact .inl stays
    · by_cases is_sup : { drv, loser := some asg.worker } = sup
      · subst is_sup
        cases live.symm.trans found_live
        obtain ⟨sid, seat⟩ := Option.isSome_iff_exists.mp (truth.seated asg.worker wkr listed up)
        refine .inr (.inr ⟨sid, ent.drvPath, seat, ?_, key_eq⟩)
        exact List.mem_append_left _ (List.mem_append_left _ (revoked asg.worker sid rfl seat))
      · exact .inr (.inl ⟨waits, is_sup⟩)
    · exact .inr (.inr ⟨sid, other, seat, List.mem_append_right _ sent, same_key⟩)
  · obtain ⟨found, found_live, busy, unreported⟩ := rebuilt.placing asg mem
    exact ⟨found, found_live, busy, fun sid hel said => unreported sid hel (old_event _ said id)⟩

/-- The session of a worker that is up said Hello. -/
theorem Truth.greeted_by (truth : Truth v) (listed : v.core.roster[wid]? = some wkr)
    (up : wkr.up = true) : ∃ sid hel, .hello sid hel ∈ v.log ∧ hel.addr = wkr.addr := by
  obtain ⟨sid, seat⟩ := Option.isSome_iff_exists.mp (truth.seated wid wkr listed up)
  have last := truth.session wid wkr sid listed up seat
  obtain ⟨event, mem, hello_eq⟩ := List.exists_of_findSome?_eq_some last
  match event, hello_eq with
  | .hello other hel, hello_eq =>
    simp only [helloIn, Option.ite_none_right_eq_some] at hello_eq
    exact ⟨other, hel, mem, hello_eq.1⟩

variable {superseded : List Superseded}

/-- What is known after the Hello of a worker that held nothing. -/
theorem greeted_entry {info : HelloInfo} (greeted : Core.Greeted s s' info wid superseded)
    (live : s.entry drv = some ent) (elsewhere : ent.worker ≠ some wid) :
    s'.entry drv = some (Core.adoptEntry wid info.running ent) ∧
      ∀ loser, ent.worker = some loser → (Core.reported info.running ent.pathKey).isSome →
        { drv, loser := some loser } ∈ superseded := by
  have left : (s.entry drv).bind (Core.leave wid) = some ent := by
    rw [live, Option.bind_some, leave_of_ne elsewhere]
  refine ⟨greeted.known drv ent left, fun loser assigned is_reported => ?_⟩
  refine (greeted.superseded_iff _).mpr ⟨ent, left, is_reported, ?_⟩
  have loser_ne : loser ≠ wid := fun same => elsewhere (same ▸ assigned)
  rw [Core.lostTo, assigned]
  exact if_neg loser_ne

theorem adoptEntry_pathKey (running : List (String × ℕ)) (ent : Entry) :
    (Core.adoptEntry wid running ent).pathKey = ent.pathKey := by
  unfold Core.adoptEntry
  cases Core.reported running ent.pathKey with
  | none => rfl
  | some assignId => rfl

/-- What a Hello reports belongs to its worker afterwards. -/
theorem greeted_reported {info : HelloInfo} {key : PathKey}
    {assignId : ℕ} (inv' : s'.Inv) (greeted : Core.Greeted s s' info wid superseded)
    (report_eq : Core.reported info.running key = some assignId) :
    ∃ drv ent, s'.entry drv = some ent ∧ ent.pathKey = key ∧ ent.worker = some wid ∧
      ent.assignId = assignId := by
  obtain ⟨path, -, rfl⟩ := Core.mem_of_reported report_eq
  obtain ⟨drv, found⟩ := Option.isSome_iff_exists.mp (greeted.complete path (by simp [report_eq]))
  obtain ⟨ent, live, key_eq⟩ := (inv'.findDrv_iff path drv).mp found
  refine ⟨drv, ent, live, key_eq, ?_⟩
  cases left : (s.entry drv).bind (Core.leave wid) with
  | none =>
    obtain ⟨other, otherId, other_eq, rfl⟩ := greeted.created drv ent left live
    refine ⟨rfl, Option.some.inj (other_eq.symm.trans ?_)⟩
    rw [← report_eq]
    exact congrArg _ key_eq
  | some mid =>
    cases (greeted.known drv mid left).symm.trans live
    rw [adoptEntry_pathKey] at key_eq
    rw [Core.adoptEntry, key_eq, report_eq]
    exact ⟨rfl, rfl⟩

/-- A worker that says Hello for the first time takes over what it reports. -/
theorem Rebuilt.greet (rebuilt : Rebuilt v) (truth : Truth v) {sid : SessionId} {hel : Hello}
    {systems : List String} (inv : s'.Inv)
    (greeted : Core.Greeted v.core s' (helloInfo hel systems) wid superseded)
    (settled : v.pending = ∅) (rested : v.placing = []) (apart : OneHello (.hello sid hel :: v.log)) :
    Rebuilt
      { v with
        core := s'
        workers := v.workers.insert wid sid
        log := .hello sid hel :: v.log
        pending := {sup | sup ∈ superseded} } := by
  have apart_old : ∀ otherSid otherHel, .hello otherSid otherHel ∈ v.log → hel.addr ≠ otherHel.addr ∧
      ∀ key, (Core.reported hel.running key).isSome → Core.reported otherHel.running key = none :=
    fun otherSid otherHel mem =>
      (List.pairwise_cons.mp apart).1 _ mem sid hel otherSid otherHel rfl rfl
  -- the slot of the worker is not in use, since its address is new
  have fresh : ∀ (other : WorkerId) (wkr : Worker), v.core.roster[other]? = some wkr → wkr.up = true →
      other ≠ wid := by
    rintro other wkr listed up rfl
    obtain ⟨otherSid, otherHel, mem, addr_eq⟩ := truth.greeted_by listed up
    refine (apart_old otherSid otherHel mem).1 ?_
    obtain ⟨full, get_eq, rfl⟩ := get_of_roster_get listed
    rcases greeted.slot with ⟨slot, slot_eq, slot_addr⟩ | ⟨is_new, -⟩
    · cases get_eq.symm.trans slot_eq
      exact slot_addr.symm.trans addr_eq.symm
    · rw [is_new, List.getElem?_eq_none le_rfl] at get_eq
      cases get_eq
  have elsewhere : ∀ drv ent, v.core.entry drv = some ent → ent.worker ≠ some wid := by
    intro drv ent live assigned
    obtain ⟨wkr, listed, up⟩ := assigned_up truth.inv live assigned
    exact fresh wid wkr listed up rfl
  refine ⟨fun otherSid otherHel key assignId mem report_eq => ?_, fun asg path mem => ?_, ?_⟩
  · rcases mem_cons.mp mem with is_new | mem
    · cases is_new
      obtain ⟨drv, ent, live, key_eq, assigned, id_eq⟩ := greeted_reported inv greeted report_eq
      exact ⟨drv, ent, wid, _, live, key_eq, assigned, id_eq, greeted.roster_self, rfl⟩
    · obtain ⟨drv, ent, other, wkr, live, key_eq, assigned, id_eq, listed, addr_eq⟩ :=
        rebuilt.reported otherSid otherHel key assignId mem report_eq
      obtain ⟨found, found_listed, up⟩ := assigned_up truth.inv live assigned
      obtain rfl := Option.some.inj (found_listed.symm.trans listed)
      have unreported : Core.reported hel.running ent.pathKey = none := by
        by_contra is_reported
        have silent := (apart_old otherSid otherHel mem).2 key
          (key_eq ▸ Option.isSome_iff_ne_none.mpr is_reported)
        rw [report_eq] at silent
        cases silent
      have new_live := (greeted_entry greeted live (elsewhere drv ent live)).1
      rw [Core.adoptEntry, show (helloInfo hel systems).running = hel.running from rfl, unreported] at new_live
      refine ⟨drv, ent, other, found, new_live, key_eq, assigned, id_eq, ?_, addr_eq⟩
      exact (greeted.roster_other other (fresh other found listed up)).trans listed
  · obtain ⟨drv, ent, wkr, live, key_eq, busy, listed, up, foreign, fate⟩ :=
      rebuilt.placed asg path ((mem_cons.mp mem).resolve_left (by simp))
    have other_ne := fresh asg.worker wkr listed up
    have new_listed := (greeted.roster_other asg.worker other_ne).trans listed
    obtain ⟨new_live, lost⟩ := greeted_entry greeted live (elsewhere drv ent live)
    refine ⟨drv, _, wkr, new_live, (adoptEntry_pathKey _ _).trans key_eq, ?_, new_listed, up,
      fun otherSid otherHel said is_reported => ?_, ?_⟩
    · unfold Core.adoptEntry
      cases Core.reported (helloInfo hel systems).running ent.pathKey with
      | none => exact busy
      | some assignId => simp
    · rcases mem_cons.mp said with is_new | said
      · cases is_new
        exact fun addr_eq => other_ne (wid_unique inv greeted.roster_self new_listed addr_eq)
      · exact foreign otherSid otherHel said is_reported
    · rcases fate with stays | waits | ⟨otherSid, revoked, seat, sent, same_key⟩
      · cases report_eq : Core.reported (helloInfo hel systems).running ent.pathKey with
        | none =>
          rw [Core.adoptEntry, report_eq]
          exact .inl stays
        | some assignId => exact .inr (.inl (lost asg.worker stays (by simp [report_eq])))
      · rw [settled] at waits
        exact waits.elim
      · exact .inr (.inr ⟨otherSid, revoked, (AList.lookup_insert_ne other_ne).trans seat,
          List.mem_cons_of_mem _ sent, same_key⟩)
  · intro asg mem
    rw [rested] at mem
    cases mem

/-- Every move that loses nothing leaves all accounted for. -/
theorem Move.rebuilt (move : Move False v v') (truth : Truth v) (apart : OneHello v'.log)
    (rebuilt : Rebuilt v) : Rebuilt v' := by
  cases move with
  | connect | acquit =>
    exact rebuilt.holds truth.inv [] (holds_refl _) (by simp) rfl (fun _ _ _ _ _ => id)
      (fun _ _ _ _ => rfl) rebuilt.placing
  | hear event quiet =>
    exact rebuilt.holds truth.inv [event] (holds_refl _) (by simpa using quiet.plain) rfl
      (fun _ _ _ _ _ => id) (fun _ _ _ _ => rfl) rebuilt.placing
  | refuse client want =>
    exact rebuilt.holds truth.inv [_, _] (holds_refl _) (by simp [Event.Plain]) rfl
      (fun _ _ _ _ _ => id) (fun _ _ _ _ => rfl) rebuilt.placing
  | overflow =>
    exact rebuilt.holds truth.inv [_] (holds_refl _) (by simp [Event.Plain]) rfl
      (fun _ _ _ _ _ => id) (fun _ _ _ _ => rfl) rebuilt.placing
  | keep inv wanted =>
    exact rebuilt.holds truth.inv [_] (wanted_holds wanted) (by simp [Event.Plain]) rfl
      (fun _ _ _ _ _ => id) (fun _ _ _ _ => rfl) rebuilt.placing
  | join inv wanted =>
    exact rebuilt.holds truth.inv [_, _] (wanted_holds wanted) (by simp [Event.Plain]) rfl
      (fun _ _ _ _ _ => id) (fun _ _ _ _ => rfl) rebuilt.placing
  | shed inv sheds fewer seats =>
    refine rebuilt.holds truth.inv [] sheds.holds (by simp) rfl (fun _ _ _ _ _ => id)
      (fun wid wkr listed up => ?_) rebuilt.placing
    obtain ⟨new, new_listed, new_up, -⟩ := sheds.holds.worker wid wkr listed up
    exact seats wid new new_listed new_up
  | place inv places settled => exact rebuilt.place truth places settled
  | announce fresh live stands => exact rebuilt.announce truth.inv fresh live (stands id).1
  | rest =>
    exact rebuilt.holds truth.inv [] (holds_refl _) (by simp) rfl (fun _ _ _ _ _ => id) (fun _ _ _ _ => rfl) (by simp)
  | tell sup revokes live assigned listed seat told quiet revoked =>
    refine rebuilt.tell truth live quiet fun loser other is_loser other_seat => ?_
    obtain ⟨delivered, sent, accepted⟩ := revoked loser other is_loser other_seat
    rwa [accepted id] at sent
  | @settle sup idle =>
    refine rebuilt.holds truth.inv [] (holds_refl _) (by simp) rfl (fun drv ent wid live busy mem => ?_)
      (fun _ _ _ _ => rfl) rebuilt.placing
    refine ⟨mem, fun is_sup => busy (idle ent ?_)⟩
    rw [← Set.mem_singleton_iff.mp is_sup]
    exact live
  | greet sid inv greeted settled rested => exact rebuilt.greet truth inv greeted settled rested apart
  | @flags s' said inv roster_eq entry_eq sound complete =>
    refine rebuilt.holds truth.inv said (holds_of_entry_eq roster_eq entry_eq fun _ ent => by simp)
      (fun event mem => ?_) rfl (fun _ _ _ _ _ => id) (fun _ _ _ _ => rfl) rebuilt.placing
    obtain ⟨drv, ent, client, msg, rfl, -⟩ := sound event mem
    trivial
  | @mark s' client drv ent reason inv live roster_eq entry_eq old_news =>
    refine rebuilt.holds truth.inv [_] ⟨fun other found found_live busy => ?_, fun wid wkr listed up =>
      ⟨wkr, roster_eq ▸ listed, up, rfl⟩⟩ (by simp [Event.Plain]) rfl (fun _ _ _ _ _ => id)
        (fun _ _ _ _ => rfl) rebuilt.placing
    change ∃ new, s'.entry other = some new ∧ _
    rw [entry_eq]
    by_cases is_drv : other = drv
    · subst is_drv
      cases live.symm.trans found_live
      exact ⟨_, Function.update_self .., rfl, rfl, rfl⟩
    · exact ⟨found, (Function.update_of_ne is_drv ..).trans found_live, rfl, rfl, rfl⟩

theorem Move.log_eq {lossy : Prop} (move : Move lossy v v') : ∃ more, v'.log = more ++ v.log := by
  cases move with
  | connect | shed | place | rest | settle | acquit => exact ⟨[], rfl⟩
  | hear event => exact ⟨[event], rfl⟩
  | refuse | join => exact ⟨[_, _], rfl⟩
  | overflow | keep | announce | greet | mark => exact ⟨[_], rfl⟩
  | tell => exact ⟨_, rfl⟩
  | flags => exact ⟨_, rfl⟩

theorem moves_rebuilt (moves : Moves False v v') (truth : Truth v) (rebuilt : Rebuilt v)
    (apart : OneHello v'.log) : Rebuilt v' := by
  induction moves with
  | refl => exact rebuilt
  | tail before move ih =>
    obtain ⟨more, log_eq⟩ := move.log_eq
    have earlier : OneHello _ := (List.pairwise_append.mp (log_eq ▸ apart)).2.1
    exact move.rebuilt (moves_truth before truth) apart (ih earlier)

end Moves

/-! ## Runs -/

/-- A call in which no work is lost: all sends succeed, no build ends and no session closes. -/
def GentleStep (cfg : Config) (x : Dispatcher) (calls : List Call) (x' : Dispatcher) : Prop :=
  ∃ call world, calls = [call] ∧ call.allowed cfg x ∧ Gentle world call ∧
    call.perform world cfg x = .ok () x'

/-- The states of a restarted scheduler before work is lost, with the calls that were made. -/
abbrev Restarted (cfg : Config) : Dispatcher → List Call → Prop :=
  Run.Reached (fun x => ∃ config : Sched.Config, x = { state := { core := { cfg := config } } })
    (GentleStep cfg)

theorem Restarted.serves {cfg : Config} {x : Dispatcher} {calls : List Call}
    (restarted : Restarted cfg x calls) :
    ∃ config, Serves False { state := { core := { cfg := config } } } x := by
  refine restarted.state_invariant
    (P := fun x => ∃ config, Serves False { state := { core := { cfg := config } } } x) ?_ ?_
  · rintro _ ⟨config, rfl⟩
    exact ⟨config, serves_start config⟩
  · rintro x _ x' ⟨config, serves⟩ ⟨call, world, -, allowed, gentle, ran⟩
    have seated := (moves_truth serves.does.moves (truth_start config)).seated
    exact ⟨config, serves.trans (call.serves serves.does.inv serves.does.flags serves.bound serves.known
      allowed (.inr ⟨gentle, seated⟩) ran)⟩

theorem rebuilt_start (config : Sched.Config) : Rebuilt (State.stage { core := { cfg := config } } ∅) :=
  ⟨nofun, nofun, nofun⟩

/-- Whatever the order of the Hellos, Wants and Cancels after a restart: each reported derivation is
assigned to its reporter as reported and runs on no other worker, every worker it was placed on
meanwhile was sent a Revoke, and the last Assigned of each follower names the reporter. -/
theorem soft_state_rebuilt {cfg : Config} {x : Dispatcher} {calls : List Call}
    (restarted : Restarted cfg x calls) (apart : OneHello x.state.log) {sid : SessionId} {hel : Hello}
    {path : String} {assignId : ℕ} (said : .hello sid hel ∈ x.state.log)
    (report_eq : Core.reported hel.running (PathKey.ofPath path) = some assignId) :
    ∃ (drv : DrvId) (ent : Entry) (wid : WorkerId) (wkr : Worker),
      x.state.core.findDrv path = some drv ∧ x.state.core.entry drv = some ent ∧
      ent.worker = some wid ∧ ent.assignId = assignId ∧
      x.state.core.workers[wid]? = some wkr ∧ wkr.addr = hel.addr ∧
      (∀ (other : WorkerId) (otherWkr : Worker), x.state.core.workers[other]? = some otherWkr →
        (drv ∈ otherWkr.running ↔ other = wid)) ∧
      (∀ asg placedPath, .placed asg placedPath ∈ x.state.log →
        PathKey.ofPath placedPath = PathKey.ofPath path →
        ∃ other revoked, x.state.workers.lookup asg.worker = some other ∧
          .toSession other (.revoke revoked) true ∈ x.state.log ∧
          PathKey.ofPath revoked = PathKey.ofPath path) ∧
      ∀ client ∈ ent.followers, client ∈ x.state.clients →
        ∃ asg, lastAssigned x.state.log client (PathKey.ofPath path) = some asg ∧
          asg.workerAddr = hel.addr := by
  obtain ⟨config, serves⟩ := restarted.serves
  have truth := moves_truth serves.does.moves (truth_start config)
  have rebuilt := moves_rebuilt serves.does.moves (truth_start config) (rebuilt_start config) apart
  have inv : x.state.core.Inv := truth.inv
  obtain ⟨drv, ent, wid, listed, live, key_eq, assigned, id_eq, is_listed, addr_eq⟩ :=
    rebuilt.reported sid hel _ assignId said report_eq
  obtain ⟨wkr, get_eq, rfl⟩ := get_of_roster_get is_listed
  refine ⟨drv, ent, wid, wkr, (inv.findDrv_iff path drv).mpr ⟨ent, live, key_eq⟩, live, assigned, id_eq,
    get_eq, addr_eq, fun other otherWkr other_get => ?_, fun asg placedPath placed same_key => ?_,
    fun client follows connected => ?_⟩
  · rw [inv.runs.running_iff other otherWkr other_get drv]
    constructor
    · rintro ⟨-, found, found_live, found_assigned⟩
      cases live.symm.trans found_live
      exact Option.some.inj (found_assigned.symm.trans assigned)
    · rintro rfl
      exact ⟨Set.notMem_empty drv, ent, live, assigned⟩
  · obtain ⟨other, found, otherWkr, found_live, found_key, -, other_listed, -, foreign, fate⟩ :=
      rebuilt.placed asg placedPath placed
    obtain rfl : other = drv := drv_unique inv live found_live (found_key.trans (same_key.trans key_eq.symm))
    cases found_live.symm.trans live
    rcases fate with stays | waits | ⟨otherSid, revoked, seat, sent, revoked_key⟩
    · -- the reporter would have been given its own build
      cases stays.symm.trans assigned
      cases other_listed.symm.trans is_listed
      exact absurd addr_eq (foreign sid hel said (by rw [same_key, report_eq]; rfl))
    · exact waits.elim
    · exact ⟨otherSid, revoked, seat, sent, revoked_key.trans same_key⟩
  · obtain ⟨asg, last, last_addr, -⟩ :=
      truth.heard drv ent wid _ live assigned is_listed nofun client follows connected
    exact ⟨asg, key_eq ▸ last, last_addr.trans addr_eq⟩

/-- A derivation is placed on one worker before another says that it builds it. -/
def lateReport : List (World × Call) :=
  [(.obliging, .workerMsgs 0 [.hello { addr := "w0", systems := ["x86_64-linux"], maxJobs := 1 }]),
    (.obliging, .connectClient),
    (.obliging, .clientMsgs 1 [.want { drvPath := "a.drv" }] fun _ => none),
    (.obliging, .applyChunk 0),
    (.obliging, .workerMsgs 1 [.hello
      { addr := "w1", systems := ["x86_64-linux"], maxJobs := 1, running := [("a.drv", 7)] }])]

theorem lateReport_gentle : ∀ step ∈ lateReport, Gentle step.1 step.2 := by
  intro step mem
  have world_eq : step.1 = .obliging := by
    revert step
    simp [lateReport]
  refine ⟨?_, ?_, ?_, ?_⟩
  · simp [world_eq, World.AcceptsExpects, World.obliging]
  · simp [world_eq, World.AcceptsRevokes, World.obliging]
  · simp only [lateReport, mem_cons, List.not_mem_nil, or_false] at mem
    rcases mem with rfl | rfl | rfl | rfl | rfl <;> nofun
  · rintro sid msgs done is_call is_done
    simp only [lateReport, mem_cons, List.not_mem_nil, or_false] at mem
    rcases mem with rfl | rfl | rfl | rfl | rfl <;> cases is_call <;> simp at is_done

/-- In `lateReport` the first worker is told to stop, and the client is sent to the second. -/
theorem soft_state_rebuilt_lateReport :
    ∃ x hel drv ent wid asg, Restarted uncached x (lateReport.map Prod.snd) ∧
      .hello 1 hel ∈ x.state.log ∧ x.state.core.findDrv "a.drv" = some drv ∧
      x.state.core.entry drv = some ent ∧ ent.worker = some wid ∧ ent.assignId = 7 ∧
      lastAssigned x.state.log 1 (PathKey.ofPath "a.drv") = some asg ∧ asg.workerAddr = "w1" := by
  have ends : (runAll uncached lateReport {}).bind (fun x =>
      (x.state.core.entry 0).bind fun ent =>
        if x.state.log.filterMap Event.said =
              [(1, { addr := "w1", systems := ["x86_64-linux"], maxJobs := 1, running := [("a.drv", 7)] }),
                (0, { addr := "w0", systems := ["x86_64-linux"], maxJobs := 1 })] ∧
            ent.followers = [1] ∧ x.state.core.findDrv "a.drv" = some 0 ∧ x.state.clients = [1] then
          some ()
        else none) = some () := by
    decide +kernel
  obtain ⟨x, ran, ends⟩ := Option.bind_eq_some_iff.mp ends
  obtain ⟨ent, live, ends⟩ := Option.bind_eq_some_iff.mp ends
  have restarted : Restarted uncached x (lateReport.map Prod.snd) :=
    reached_of_runAll (.start ⟨{}, rfl⟩) (fun world call _ _ mem allowed performed =>
      ⟨call, world, rfl, allowed, lateReport_gentle _ mem, performed⟩) ran
  split_ifs at ends with shape
  obtain ⟨hellos_eq, followers_eq, found, clients_eq⟩ := shape
  have apart : OneHello x.state.log := by
    rw [oneHello_iff, hellos_eq]
    simp [Core.reported]
  obtain ⟨event, mem, is_hello⟩ := List.mem_filterMap.mp (hellos_eq ▸ List.mem_cons_self)
  have said := Event.eq_hello is_hello ▸ mem
  obtain ⟨drv, found_ent, wid, wkr, found_drv, found_live, assigned, id_eq, -, -, -, -, heard⟩ :=
    @soft_state_rebuilt _ _ _ restarted apart _ _ "a.drv" 7 said (by simp [Core.reported])
  cases found.symm.trans found_drv
  cases live.symm.trans found_live
  obtain ⟨asg, last, last_addr⟩ := heard 1 (by simp [followers_eq]) (by simp [clients_eq])
  exact ⟨x, _, 0, ent, wid, asg, restarted, said, found, live, assigned, id_eq, last, last_addr⟩

end NixGrpcStore.Dispatcher
