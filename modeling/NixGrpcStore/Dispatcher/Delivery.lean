import NixGrpcStore.Dispatcher.Stage

/-!
# Delivering placements

How a dispatch is announced, run once: where the core's invariant holds it ends without an
exception, and what it does is a sequence of moves.  Between sections the flags of the queued
entries tell the truth; inside a section this holds up to the entry the section is busy with.
-/

namespace NixGrpcStore.Dispatcher

open Sched Remote StateExcept

variable {s s' : Core} {d : State}

theorem onCore_of_ok {α : Type} {m : CoreM α} {a : α}
    (ok : m d.core = .ok a s) : onCore m d = .ok a { d with core := s } :=
  onPart_of_ok ok

variable {ent : Entry} {drv : DrvId}

theorem onCore_entryAt (live : d.core.entry drv = some ent) :
    onCore (Core.entryAt drv) d = .ok (some ent) d :=
  onCore_of_ok (Core.entryAt_of_entry live)

variable {wid : WorkerId} {wkr : Worker}

theorem onCore_workerAt
    (get_eq : d.core.workers[wid]? = some wkr) : onCore (Core.workerAt wid) d = .ok wkr d :=
  onCore_of_ok (Core.workerAt_of_get get_eq)

/-- The flags of queued entries tell the truth, up to some entries. -/
def FlagsOff (s : Core) (off : Set DrvId) : Prop :=
  ∀ drv ∉ off, ∀ ent, s.entry drv = some ent → ent.worker = none →
    ent.unplaceable = !s.placeable ent

/-! ## Messages -/

section Messages

variable {d : State} {drv : DrvId} {ent : Entry} {wid : WorkerId} {wkr : Worker}

theorem sendAll_eq (msg : SchedMsg) (clients : List ClientId) (d : State) :
    sendAll msg clients d = .ok () { d with log := handed d.clients msg clients ++ d.log } := by
  induction clients generalizing d with
  | nil => rfl
  | cons client clients ih =>
    rw [sendAll, bind_get_apply]
    by_cases connected : client ∈ d.clients
    · rw [if_pos connected, sendClient, note, bind_modify_apply, ih]
      simp [handed, connected]
    · rw [if_neg connected, ih]
      simp [handed, connected]

theorem sendToFollowers_eq (live : d.core.entry drv = some ent) (msg : SchedMsg) :
    sendToFollowers drv msg d =
      .ok () { d with log := handed d.clients msg ent.followers ++ d.log } := by
  rw [sendToFollowers, bind_of_ok (onCore_entryAt live)]
  exact sendAll_eq msg ent.followers d

theorem assignedMsg_eq (live : d.core.entry drv = some ent) (assigned : ent.worker = some wid)
    (get_eq : d.core.workers[wid]? = some wkr) :
    assignedMsg drv d = .ok (.assigned (assignedTo wkr ent)) d := by
  rw [assignedMsg, bind_of_ok (onCore_entryAt live)]
  simp only [assigned]
  rw [bind_of_ok (onCore_workerAt get_eq)]
  rfl

theorem mem_handed {connected clients : List ClientId} {msg : SchedMsg} {event : Event} :
    event ∈ handed connected msg clients ↔
      ∃ client ∈ clients, client ∈ connected ∧ event = .toClient client msg := by
  simp only [handed, List.mem_reverse, List.mem_map, List.mem_filter, decide_eq_true_eq]
  constructor
  · rintro ⟨client, ⟨mem, is_connected⟩, rfl⟩
    exact ⟨client, mem, is_connected, rfl⟩
  · rintro ⟨client, mem, is_connected, rfl⟩
    exact ⟨client, ⟨mem, is_connected⟩, rfl⟩

theorem saysFlag (s : Core) (ent : Entry) :
    SaysFlag ent (if ent.unplaceable then unplaceableMsg s ent else .placeable ent.drvPath) := by
  unfold SaysFlag
  split
  · exact ⟨_, rfl⟩
  · rfl

theorem tellFlag_eq (live : d.core.entry drv = some ent) :
    ∃ msg, SaysFlag ent msg ∧ tellFlag drv d =
      .ok () { d with log := handed d.clients msg ent.followers ++ d.log } := by
  refine ⟨_, saysFlag d.core ent, ?_⟩
  rw [tellFlag, bind_of_ok (onCore_entryAt live)]
  exact sendToFollowers_eq live _

/-- The connected followers of each entry hear what its flag says. -/
theorem tellFlags_eq {drvs : List DrvId} (live : ∀ drv ∈ drvs, (d.core.entry drv).isSome) :
    ∃ said, tellFlags drvs d = .ok () { d with log := said ++ d.log } ∧
      (∀ event ∈ said, ∃ drv ∈ drvs, ∃ ent client msg, event = .toClient client msg ∧
        d.core.entry drv = some ent ∧ SaysFlag ent msg) ∧
      ∀ drv ∈ drvs, ∀ ent client, d.core.entry drv = some ent → client ∈ ent.followers →
        client ∈ d.clients → ∃ msg, .toClient client msg ∈ said ∧ SaysFlag ent msg := by
  induction drvs generalizing d with
  | nil => exact ⟨[], rfl, by simp, by simp⟩
  | cons drv drvs ih =>
    obtain ⟨ent, ent_live⟩ := Option.isSome_iff_exists.mp (live drv List.mem_cons_self)
    obtain ⟨msg, flag_said, told⟩ := tellFlag_eq ent_live
    obtain ⟨said, rest, sound, complete⟩ :=
      @ih { d with log := handed d.clients msg ent.followers ++ d.log }
        fun other mem => live other (List.mem_cons_of_mem drv mem)
    refine ⟨said ++ handed d.clients msg ent.followers, ?_, fun event mem => ?_,
      fun other mem otherEnt client other_live follows connected => ?_⟩
    · rw [tellFlags, bind_of_ok told, rest, List.append_assoc]
    · rcases List.mem_append.mp mem with mem | mem
      · obtain ⟨other, other_mem, rest⟩ := sound event mem
        exact ⟨other, List.mem_cons_of_mem drv other_mem, rest⟩
      · obtain ⟨client, -, -, rfl⟩ := mem_handed.mp mem
        exact ⟨drv, List.mem_cons_self, ent, client, msg, rfl, ent_live, flag_said⟩
    · rcases List.mem_cons.mp mem with rfl | mem
      · cases ent_live.symm.trans other_live
        exact ⟨msg, List.mem_append_right _ (mem_handed.mpr ⟨client, follows, connected, rfl⟩), flag_said⟩
      · obtain ⟨msg', mem', flag_said'⟩ := complete other mem otherEnt client other_live follows connected
        exact ⟨msg', List.mem_append_left _ mem', flag_said'⟩

end Messages

/-! ## Flags -/

theorem flagsOff_withFlag (inv : s.Inv) (roster_eq : s'.roster = s.roster)
    (entry_eq : ∀ drv, s'.entry drv = (s.entry drv).map (Core.withFlag s.placeable)) :
    FlagsOff s' ∅ := by
  intro drv _ new live waits
  rw [entry_eq] at live
  obtain ⟨ent, ent_live, rfl⟩ := Option.map_eq_some_iff.mp live
  rw [Core.withFlag_worker] at waits
  have followed := inv.queues.followed drv (Set.notMem_empty drv) ent ent_live waits
  rw [Core.placeable_of_roster roster_eq]
  have flagged : Core.withFlag s.placeable ent = { ent with unplaceable := !s.placeable ent } :=
    if_pos ⟨waits, followed⟩
  rw [flagged]
  rfl

/-- All flags are brought up to date, and whoever follows a flipped entry is told. -/
theorem placeabilityChangedLocked_eq (inv : d.core.Inv) :
    ∃ s' log, placeabilityChangedLocked d = .ok () { d with core := s', log } ∧ s'.Inv ∧
      s'.roster = d.core.roster ∧
      (∀ drv, s'.entry drv = (d.core.entry drv).map (Core.withFlag d.core.placeable)) ∧
      FlagsOff s' ∅ ∧
      ∀ lossy pending owed placing,
        Move lossy (d.stage pending owed placing) { d.stage pending owed placing with core := s', log } := by
  obtain ⟨changed, s', ran, s'_inv, s'_eq, s'_entry, -, changed_iff⟩ := inv.placeabilityChanges
  have roster_eq : s'.roster = d.core.roster := by
    rw [s'_eq]
    rfl
  obtain ⟨said, told, sound, complete⟩ := @tellFlags_eq { d with core := s' } changed
    fun drv mem => by
      obtain ⟨ent, live, -⟩ := (changed_iff drv).mp mem
      simp [s'_entry, live]
  refine ⟨s', said ++ d.log, ?_, s'_inv, roster_eq, s'_entry,
    flagsOff_withFlag inv roster_eq s'_entry, fun lossy pending owed placing => ?_⟩
  · rw [placeabilityChangedLocked, bind_of_ok (onCore_of_ok ran), told]
  · refine Move.flags (d.stage pending owed placing) s'_inv roster_eq s'_entry (fun event mem => ?_)
      fun drv ent client live disagrees follows connected => ?_
    · obtain ⟨drv, -, new, client, msg, rfl, new_live, flag_said⟩ := sound event mem
      rw [s'_entry] at new_live
      obtain ⟨ent, live, rfl⟩ := Option.map_eq_some_iff.mp new_live
      exact ⟨drv, ent, client, msg, rfl, live, flag_said⟩
    · refine complete drv ((changed_iff drv).mpr ⟨ent, live, disagrees⟩) _ client
        (by rw [s'_entry]; exact congrArg _ live) ?_ connected
      rwa [Core.withFlag_followers]

theorem liveCount_le_of_flags {placeable : Entry → Bool}
    (entry_eq : ∀ drv, s'.entry drv = (s.entry drv).map (Core.withFlag placeable)) :
    s'.liveCount ≤ s.liveCount := by
  refine Core.liveCount_le fun drv live => ?_
  rw [entry_eq] at live
  simpa using live

/-! ## Losing a worker -/

/-- Live entries with one path are one entry. -/
theorem drv_unique (inv : s.Inv) {other : DrvId} {otherEnt : Entry}
    (live : s.entry drv = some ent) (other_live : s.entry other = some otherEnt)
    (key_eq : otherEnt.pathKey = ent.pathKey) : other = drv := by
  have found := (inv.findDrv_iff ent.drvPath drv).mpr ⟨ent, live, rfl⟩
  rw [(inv.findDrv_iff ent.drvPath other).mpr ⟨otherEnt, other_live, key_eq⟩] at found
  exact Option.some.inj found

theorem shrinks_refl (ent : Entry) : Shrinks ent ent where
  path_eq := rfl
  followers_sub := List.Subset.refl _
  flag_eq := rfl
  assigned := .inr ⟨rfl, rfl⟩

theorem leave_shrinks {new : Entry} (left : Core.leave wid ent = some new) : Shrinks ent new := by
  unfold Core.leave at left
  split_ifs at left
  · cases left
    exact ⟨rfl, List.Subset.refl _, rfl, .inl rfl⟩
  · cases left
    exact shrinks_refl ent

theorem entry_bind_shrinks {change : Entry → Option Entry}
    (entry_eq : ∀ drv, s'.entry drv = (s.entry drv).bind change)
    (shrinks : ∀ ent new, change ent = some new → Shrinks ent new) (drv : DrvId) (new : Entry)
    (live : s'.entry drv = some new) : ∃ ent, s.entry drv = some ent ∧ Shrinks ent new := by
  rw [entry_eq] at live
  obtain ⟨ent, ent_live, changed⟩ := Option.bind_eq_some_iff.mp live
  exact ⟨ent, ent_live, shrinks ent new changed⟩

theorem roster_get
    (get_eq : s.workers[wid]? = some wkr) : s.roster[wid]? = some { wkr with running := [] } := by
  simp [Core.roster, get_eq]

theorem get_of_roster_get (listed : s.roster[wid]? = some wkr) :
    ∃ full, s.workers[wid]? = some full ∧ { full with running := [] } = wkr := by
  rw [Core.roster, List.getElem?_map, Option.map_eq_some_iff] at listed
  exact listed

theorem roster_set_eq (workers_eq : s'.workers = s.workers.set wid wkr) :
    s'.roster = s.roster.set wid { wkr with running := [] } := by
  rw [Core.roster, workers_eq, List.map_set]
  rfl

/-- A worker that is lost takes only its own assignments with it. -/
theorem sheds_of_leave {lossy : Prop} (loss : lossy)
    (entry_eq : ∀ drv, s'.entry drv = (s.entry drv).bind (Core.leave wid))
    (workers_eq : s'.workers = s.workers.set wid { wkr with up := false, running := [] }) :
    Sheds lossy s s' where
  length_le := by simp [Core.roster, workers_eq]
  entry := entry_bind_shrinks entry_eq fun _ _ => leave_shrinks
  worker other new listed up := by
    rw [roster_set_eq workers_eq] at listed
    rcases Core.getElem?_set_eq_some listed with ⟨-, rfl⟩ | ⟨-, listed⟩
    · cases up
    · exact ⟨new, listed, up, rfl⟩
  still lossless := absurd loss lossless
  seated lossless := absurd loss lossless

/-- A placement that is on its way to its worker, or was undone when that worker was lost. -/
def OnItsWay (d : State) (asg : Assign) : Prop :=
  ∃ ent, d.core.entry asg.drv = some ent ∧ ent.followers ≠ [] ∧
    (ent.worker = none ∧ d.workers.lookup asg.worker = none ∨
      ent.worker = some asg.worker ∧ ent.assignId = asg.assignId)

/-- What a section leaves of the state when a worker was lost. -/
structure Lost (d d' : State) (wid : WorkerId) : Prop where
  workers_eq : d'.workers = d.workers.erase wid
  entry_eq : ∃ can, ∀ drv,
    d'.core.entry drv = ((d.core.entry drv).bind (Core.leave wid)).map (Core.withFlag can)
  length_eq : d'.core.workers.length = d.core.workers.length
  flags : FlagsOff d'.core ∅

theorem expectUndeliverable_eq {lossy : Prop} (loss : lossy)
    (inv : d.core.Inv) (wid_lt : wid < d.core.workers.length) (pending : Set Superseded)
    (owed : Set (ClientId × DrvId)) (placing : List Assign) :
    ∃ d', expectUndeliverable wid d = .ok () d' ∧ d'.core.Inv ∧
      Moves lossy (d.stage pending owed placing) (d'.stage pending owed placing) ∧ Lost d d' wid := by
  obtain ⟨mid, ran, mid_inv, mid_entry, mid_workers, -⟩ := inv.workerGone (List.getElem?_eq_getElem wid_lt)
  obtain ⟨s', log, flagged, s'_inv, roster_eq, s'_entry, flags, move⟩ :=
    @placeabilityChangedLocked_eq
      { d with
        core := mid
        published := membersOf mid.workers
        deferred := (d.watchers.map .wake).reverse ++ d.deferred
        workers := d.workers.erase wid } mid_inv
  have lost := bind_of_ok (onCore_of_ok ran) fun _ => do
    membershipChangedLocked
    modify fun d => { d with workers := d.workers.erase wid }
    placeabilityChangedLocked
  refine ⟨_, lost.trans flagged, s'_inv, ?_, rfl, ⟨mid.placeable, fun drv => ?_⟩, ?_, flags⟩
  · have seats : ∀ (other : WorkerId) (wkr : Worker), mid.roster[other]? = some wkr → wkr.up = true →
        (d.workers.erase wid).lookup other = d.workers.lookup other := by
      intro other wkr listed up
      rw [roster_set_eq mid_workers] at listed
      rcases Core.getElem?_set_eq_some listed with ⟨-, rfl⟩ | ⟨other_ne, -⟩
      · cases up
      · exact AList.lookup_erase_ne other_ne
    exact .head (Move.shed (d.stage pending owed placing) mid_inv (sheds_of_leave loss mid_entry mid_workers)
      (List.Subset.refl d.clients) seats) (.single (move lossy pending owed placing))
  · rw [s'_entry, mid_entry]
  · have lengths := congrArg List.length roster_eq
    simpa [Core.roster, mid_workers] using lengths

/-! ## Delivering placements -/

/-- All Expects are accepted. -/
def World.AcceptsExpects (world : World) : Prop :=
  ∀ log sid path assignId, world.delivers log sid (.expect path assignId) = true

/-- The lost worker's placement is undone. -/
theorem Lost.idle {d' : State} {asg : Assign} (lost : Lost d d' asg.worker)
    (on_its_way : OnItsWay d asg) (ent : Entry) (live : d'.core.entry asg.drv = some ent) :
    ent.worker = none := by
  obtain ⟨can, entry_eq⟩ := lost.entry_eq
  obtain ⟨old, old_live, followed, waits⟩ := on_its_way
  rw [entry_eq, old_live, Option.bind_some] at live
  rcases waits with ⟨waits, -⟩ | ⟨assigned, -⟩
  · obtain rfl : Core.withFlag can old = ent := by simpa [Core.leave, waits] using live
    rw [Core.withFlag_worker, waits]
  · obtain rfl : Core.withFlag can { old with worker := none } = ent := by
      simpa [Core.leave, assigned, followed] using live
    rw [Core.withFlag_worker]

variable {lossy : Prop} {world : World} {d : State}

theorem expectUndeliverable_settles {asg : Assign} (loss : lossy) (inv : d.core.Inv)
    (on_its_way : OnItsWay d asg) (wid_lt : asg.worker < d.core.workers.length)
    (pending : Set Superseded) (owed : Set (ClientId × DrvId)) (placing : List Assign) :
    ∃ d', expectUndeliverable asg.worker d = .ok () d' ∧ d'.core.Inv ∧
      Moves lossy (d.stage pending owed placing) (d'.stage (pending \ {{ drv := asg.drv }}) owed placing) ∧
      Lost d d' asg.worker := by
  obtain ⟨d', ran, d'_inv, moves, lost⟩ := expectUndeliverable_eq loss inv wid_lt pending owed placing
  exact ⟨d', ran, d'_inv, moves.tail (Move.settle (d'.stage pending owed placing) (lost.idle on_its_way)), lost⟩

theorem sendSession_eq (sid : SessionId) (cmd : SchedCmd) :
    sendSession world sid cmd d = .ok (world.delivers d.log sid cmd)
      { d with log := .toSession sid cmd (world.delivers d.log sid cmd) :: d.log } := rfl

/-- The Expect of a placement and what depends on its fate. -/
theorem deliver_of_live {asg : Assign}
    (live : d.core.entry asg.drv = some ent) (get_eq : d.core.workers[asg.worker]? = some wkr) :
    deliver world asg d =
      (do
        let delivered ← sendExpect world asg.worker (.expect ent.drvPath asg.assignId)
        if delivered then do
          let msg ← assignedMsg asg.drv
          sendToFollowers asg.drv msg
        else
          expectUndeliverable asg.worker : LockedM Unit)
        { d with log := .placed asg ent.drvPath :: d.log } := by
  rw [deliver, bind_of_ok (onCore_entryAt live)]
  exact bind_of_ok (onCore_workerAt (d := { d with log := .placed asg ent.drvPath :: d.log }) get_eq) _

/-- An accepted Expect is followed by Assigned; else the worker is lost. -/
theorem deliver_eq {asg : Assign} (inv : d.core.Inv) (on_its_way : OnItsWay d asg)
    (wid_lt : asg.worker < d.core.workers.length)
    (calm : lossy ∨ world.AcceptsExpects ∧ (d.workers.lookup asg.worker).isSome)
    (pending : Set Superseded) (owed : Set (ClientId × DrvId)) {placing : List Assign}
    (fresh : asg ∈ placing) :
    ∃ d', deliver world asg d = .ok () d' ∧ d'.core.Inv ∧
      Moves lossy (d.stage pending owed placing) (d'.stage (pending \ {{ drv := asg.drv }}) owed placing) ∧
      (d' = { d with log := d'.log } ∨ lossy ∧ Lost d d' asg.worker) := by
  obtain ⟨ent, live, followed, waits⟩ := on_its_way
  obtain ⟨wkr, get_eq⟩ : ∃ wkr, d.core.workers[asg.worker]? = some wkr := ⟨_, List.getElem?_eq_getElem wid_lt⟩
  have placed : Move lossy (d.stage pending owed placing)
      ({ d with log := .placed asg ent.drvPath :: d.log }.stage pending owed placing) := by
    refine Move.announce (d.stage pending owed placing) fresh live fun lossless =>
      waits.resolve_left fun undone => ?_
    have seated := (calm.resolve_left lossless).2
    rw [undone.2] at seated
    cases seated
  rw [deliver_of_live live get_eq]
  cases seat : d.workers.lookup asg.worker with
  | none =>
    have loss : lossy := calm.resolve_right (by simp [seat])
    obtain ⟨d', ran, d'_inv, moves, lost⟩ := @expectUndeliverable_settles lossy
      { d with log := .placed asg ent.drvPath :: d.log } asg loss inv ⟨ent, live, followed, waits⟩
      wid_lt pending owed placing
    refine ⟨d', ?_, d'_inv, .head placed moves, .inr ⟨loss, lost.1, lost.2, lost.3, lost.4⟩⟩
    rw [sendExpect, bind_apply, bind_get_apply]
    simp only [seat]
    exact ran
  | some sid =>
    rw [sendExpect, bind_apply, bind_get_apply]
    simp only [seat, sendSession_eq]
    set log := .toSession sid (.expect ent.drvPath asg.assignId)
      (world.delivers (.placed asg ent.drvPath :: d.log) sid (.expect ent.drvPath asg.assignId)) ::
        .placed asg ent.drvPath :: d.log with log_eq
    have expected : Moves lossy (d.stage pending owed placing) ({ d with log }.stage pending owed placing) :=
      .head placed (.single (Move.hear _ (.toSession sid _ _) trivial))
    obtain ⟨assigned, id_eq⟩ := waits.resolve_left (by simp [seat])
    split
    · rename_i delivered
      rw [bind_of_ok (assignedMsg_eq (d := { d with log }) live assigned get_eq),
        sendToFollowers_eq (d := { d with log }) live]
      refine ⟨_, rfl, inv, expected.tail ?_, .inl rfl⟩
      have told : Told log sid ent.pathKey ent.assignId := by
        refine .inl ⟨ent.drvPath, ?_, rfl⟩
        rw [log_eq, delivered, id_eq]
        exact List.mem_cons_self
      exact Move.tell ({ d with log }.stage pending owed placing) { drv := asg.drv } [] live assigned
        (roster_get get_eq) seat told (by simp) (by simp)
    · rename_i refused
      have loss : lossy := calm.resolve_right fun accepts => refused (accepts.1 ..)
      obtain ⟨d', ran, d'_inv, moves, lost⟩ := @expectUndeliverable_settles lossy { d with log } asg
        loss inv ⟨ent, live, followed, waits⟩ wid_lt pending owed placing
      exact ⟨d', ran, d'_inv, expected.trans moves, .inr ⟨loss, lost.1, lost.2, lost.3, lost.4⟩⟩

/-- What delivering placements may do to the rest of the state. -/
structure Rests (lossy : Prop) (d d' : State) : Prop where
  onItsWay : ∀ asg, OnItsWay d asg → OnItsWay d' asg
  flags : ∀ off, FlagsOff d.core off → FlagsOff d'.core off
  waiting : FlagsOff d'.core ∅ ∨ ∀ drv new, d'.core.entry drv = some new → new.worker = none →
    d.core.entry drv = some new
  live : ∀ drv ent, d.core.entry drv = some ent → ent.followers ≠ [] →
    ∃ new, d'.core.entry drv = some new ∧ new.followers = ent.followers
  length_eq : d'.core.workers.length = d.core.workers.length
  same : ¬ lossy → d' = { d with log := d'.log }

theorem Rests.trans {d' d'' : State} (first : Rests lossy d d') (second : Rests lossy d' d'') :
    Rests lossy d d'' where
  onItsWay asg on_its_way := second.onItsWay asg (first.onItsWay asg on_its_way)
  flags off flags := second.flags off (first.flags off flags)
  waiting := by
    rcases second.waiting with flags | waiting
    · exact .inl flags
    · exact first.waiting.imp (second.flags ∅) fun old drv new live waits =>
        old drv new (waiting drv new live waits) waits
  live drv ent live followed := by
    obtain ⟨mid, mid_live, mid_eq⟩ := first.live drv ent live followed
    obtain ⟨new, new_live, new_eq⟩ := second.live drv mid mid_live (mid_eq ▸ followed)
    exact ⟨new, new_live, new_eq.trans mid_eq⟩
  length_eq := second.length_eq.trans first.length_eq
  same lossless := by
    rw [second.same lossless, first.same lossless]

theorem rests_of_log {d' : State} (same : d' = { d with log := d'.log }) : Rests lossy d d' := by
  rw [same]
  exact ⟨fun _ => id, fun _ => id, .inr fun _ _ live _ => live, fun _ ent live _ => ⟨ent, live, rfl⟩, rfl,
    fun _ => rfl⟩

theorem FlagsOff.mono {off off' : Set DrvId} (flags : FlagsOff s off) (le : off ⊆ off') :
    FlagsOff s off' :=
  fun drv not_mem => flags drv fun mem => not_mem (le mem)

theorem leave_of_ne (other : ent.worker ≠ some wid) : Core.leave wid ent = some ent :=
  if_neg other

theorem Lost.onItsWay {d' : State} (lost : Lost d d' wid) {asg : Assign}
    (on_its_way : OnItsWay d asg) : OnItsWay d' asg := by
  obtain ⟨can, entry_eq⟩ := lost.entry_eq
  obtain ⟨ent, live, followed, waits⟩ := on_its_way
  have lookup_none : d.workers.lookup asg.worker = none → d'.workers.lookup asg.worker = none := by
    intro unseated
    rw [lost.workers_eq]
    by_cases same : asg.worker = wid
    · rw [same, AList.lookup_erase]
    · rwa [AList.lookup_erase_ne same]
  by_cases assigned : ent.worker = some wid
  · -- the assignment is undone, and its worker no longer has a session
    refine ⟨Core.withFlag can { ent with worker := none }, ?_, by simpa using followed, .inl ⟨by simp, ?_⟩⟩
    · rw [entry_eq, live]
      simp [Core.leave, assigned, followed]
    · rcases waits with ⟨waits, -⟩ | ⟨waits, -⟩
      · simp [waits] at assigned
      · cases waits.symm.trans assigned
        rw [lost.workers_eq, AList.lookup_erase]
  · refine ⟨Core.withFlag can ent, ?_, by simpa using followed, ?_⟩
    · rw [entry_eq, live, Option.bind_some, leave_of_ne assigned, Option.map_some]
    · rw [Core.withFlag_worker, Core.withFlag_assignId]
      exact waits.imp (fun idle => ⟨idle.1, lookup_none idle.2⟩) id

theorem Lost.rests {d' : State} (lost : Lost d d' wid) (loss : lossy) : Rests lossy d d' where
  onItsWay asg := lost.onItsWay
  flags off _ := lost.flags.mono (Set.empty_subset off)
  waiting := .inl lost.flags
  live drv ent live followed := by
    obtain ⟨can, entry_eq⟩ := lost.entry_eq
    rw [entry_eq, live, Option.bind_some, Core.leave, if_neg followed]
    split_ifs
    · exact ⟨_, rfl, by simp⟩
    · exact ⟨_, rfl, by simp⟩
  length_eq := lost.length_eq
  same lossless := absurd loss lossless

variable {out : List Assign}

/-- A list of placements is delivered one by one. -/
theorem deliverAll_eq (inv : d.core.Inv) (on_its_way : ∀ asg ∈ out, OnItsWay d asg)
    (wid_lt : ∀ asg ∈ out, asg.worker < d.core.workers.length)
    (calm : lossy ∨ world.AcceptsExpects ∧ ∀ asg ∈ out, (d.workers.lookup asg.worker).isSome)
    {pending : Set Superseded} (few : ∀ sup ∈ pending, ∃ asg ∈ out, sup = { drv := asg.drv })
    (owed : Set (ClientId × DrvId)) {placing : List Assign} (fresh : out ⊆ placing) :
    ∃ d', deliverAll world out d = .ok () d' ∧ d'.core.Inv ∧
      Moves lossy (d.stage pending owed placing) (d'.stage ∅ owed placing) ∧ Rests lossy d d' := by
  induction out generalizing d pending with
  | nil =>
    obtain rfl : pending = ∅ := Set.eq_empty_of_forall_notMem fun sup mem => by
      simpa using few sup mem
    exact ⟨d, rfl, inv, .refl, rests_of_log rfl⟩
  | cons asg out ih =>
    obtain ⟨mid, ran, mid_inv, moves, outcome⟩ := deliver_eq inv
      (on_its_way asg List.mem_cons_self) (wid_lt asg List.mem_cons_self)
      (calm.imp id fun accepts => ⟨accepts.1, accepts.2 asg List.mem_cons_self⟩) pending owed
      (fresh List.mem_cons_self)
    have rests : Rests lossy d mid := outcome.elim rests_of_log fun lost => lost.2.rests lost.1
    have fewer : ∀ sup ∈ pending \ {{ drv := asg.drv }}, ∃ asg ∈ out, sup = { drv := asg.drv } := by
      rintro sup ⟨mem, other⟩
      obtain ⟨found, found_mem, rfl⟩ := few sup mem
      rcases List.mem_cons.mp found_mem with rfl | found_mem
      · exact absurd rfl other
      · exact ⟨found, found_mem, rfl⟩
    obtain ⟨d', rest, d'_inv, rest_moves, rest_rests⟩ := ih mid_inv
      (fun other mem => rests.onItsWay other (on_its_way other (List.mem_cons_of_mem asg mem)))
      (fun other mem => rests.length_eq ▸ wid_lt other (List.mem_cons_of_mem asg mem))
      (by
        by_cases loss : lossy
        · exact .inl loss
        · obtain ⟨accepts, seated⟩ := calm.resolve_left loss
          refine .inr ⟨accepts, fun other mem => ?_⟩
          rw [rests.same loss]
          exact seated other (List.mem_cons_of_mem asg mem))
      fewer fun other mem => fresh (List.mem_cons_of_mem asg mem)
    refine ⟨d', ?_, d'_inv, moves.trans rest_moves, rests.trans rest_rests⟩
    rw [deliverAll, bind_of_ok ran, rest]

/-- What is unassigned after a dispatch was so before. -/
theorem places_waiting (places : Core.Places s out s') (live : s'.entry drv = some ent)
    (waits : ent.worker = none) : s.entry drv = some ent := by
  rw [places.other drv] at live
  · exact live
  · rintro asg mem rfl
    obtain ⟨old, wkr, -, -, -, -, -, new_eq⟩ := places.placed asg mem
    rw [live] at new_eq
    rw [Option.some.inj new_eq] at waits
    cases waits

theorem places_flags (places : Core.Places s out s')
    {off : Set DrvId} (flags : FlagsOff s off) : FlagsOff s' off := by
  intro drv not_mem ent live waits
  rw [Core.placeable_of_roster places.roster_eq]
  exact flags drv not_mem ent (places_waiting places live waits) waits

theorem places_live (places : Core.Places s out s') (live : s.entry drv = some ent) :
    ∃ new, s'.entry drv = some new ∧ new.followers = ent.followers := by
  by_cases placed : ∃ asg ∈ out, asg.drv = drv
  · obtain ⟨asg, mem, rfl⟩ := placed
    obtain ⟨old, wkr, old_live, -, -, -, -, new_eq⟩ := places.placed asg mem
    cases old_live.symm.trans live
    exact ⟨_, new_eq, rfl⟩
  · exact ⟨ent, by rw [places.other drv fun asg mem same => placed ⟨asg, mem, same⟩, live], rfl⟩

/-- What a dispatch leaves alone. -/
structure Dispatched (lossy : Prop) (d d' : State) : Prop where
  flags : ∀ off, FlagsOff d.core off → FlagsOff d'.core off
  waiting : FlagsOff d'.core ∅ ∨ ∀ drv new, d'.core.entry drv = some new → new.worker = none →
    d.core.entry drv = some new
  live : ∀ drv ent, d.core.entry drv = some ent → ent.followers ≠ [] →
    ∃ new, d'.core.entry drv = some new
  same : ¬ lossy → d' = { d with core := d'.core, log := d'.log } ∧ d'.core.roster = d.core.roster

/-- A dispatch never throws. -/
theorem dispatchLocked_eq (inv : d.core.Inv)
    (calm : lossy ∨ world.AcceptsExpects ∧ Seated d.core d.workers) (owed : Set (ClientId × DrvId)) :
    ∃ d', dispatchLocked world d = .ok () d' ∧ d'.core.Inv ∧
      Moves lossy (d.stage ∅ owed) (d'.stage ∅ owed) ∧ Dispatched lossy d d' := by
  obtain ⟨out, s', ran, s'_inv, places⟩ := inv.dispatch_places (world.order d.log)
  have listed : ∀ asg ∈ out, ∃ wkr : Worker, d.core.roster[asg.worker]? = some wkr ∧ wkr.up = true := by
    intro asg mem
    obtain ⟨ent, wkr, -, -, -, listed, up, -⟩ := places.placed asg mem
    exact ⟨wkr, listed, up⟩
  have on_its_way : ∀ asg ∈ out, OnItsWay { d with core := s' } asg := by
    intro asg mem
    obtain ⟨ent, wkr, live, waits, -, -, -, new_eq⟩ := places.placed asg mem
    exact ⟨_, new_eq, inv.queues.followed asg.drv (Set.notMem_empty _) ent live waits, .inr ⟨rfl, rfl⟩⟩
  have wid_lt : ∀ asg ∈ out, asg.worker < s'.workers.length := by
    intro asg mem
    obtain ⟨wkr, is_listed, -⟩ := listed asg mem
    rw [← places.roster_eq] at is_listed
    simpa [Core.roster] using (List.getElem?_eq_some_iff.mp is_listed).1
  obtain ⟨d', delivered, d'_inv, moves, rests⟩ := @deliverAll_eq lossy world { d with core := s' } out
    s'_inv on_its_way wid_lt
    (calm.imp id fun accepts => ⟨accepts.1, fun asg mem => by
      obtain ⟨wkr, is_listed, up⟩ := listed asg mem
      exact accepts.2 asg.worker wkr is_listed up⟩)
    {sup | ∃ asg ∈ out, sup = { drv := asg.drv }} (fun sup mem => mem) owed out
    (List.Subset.refl out)
  refine ⟨d', ?_, d'_inv, .head (Move.place (d.stage ∅ owed) s'_inv places rfl)
    (moves.tail (Move.rest (d'.stage ∅ owed out))), ?_⟩
  · rw [dispatchLocked, bind_get_apply, bind_of_ok (onCore_of_ok ran), delivered]
  · refine ⟨fun off flags => rests.flags off (places_flags places flags), ?_,
      fun drv ent live followed => ?_, fun lossless => ?_⟩
    · exact rests.waiting.imp id fun old drv new live waits =>
        places_waiting places (old drv new live waits) waits
    · obtain ⟨mid, mid_live, mid_eq⟩ := places_live places live
      obtain ⟨new, new_live, -⟩ := rests.live drv mid mid_live (mid_eq ▸ followed)
      exact ⟨new, new_live⟩
    · rw [rests.same lossless]
      exact ⟨rfl, places.roster_eq⟩

end NixGrpcStore.Dispatcher
