import NixGrpcStore.Dispatcher.ClientSections
import NixGrpcStore.Dispatcher.Frame

/-!
# Sections of workers are made of moves

Each function that serves a session under the mutex is run once here.  A Hello may break the
protocol or find the table of derivations full; everything else ends without an exception.
-/

namespace NixGrpcStore.Dispatcher

open Function (update update_of_ne)
open Tally (lt_length)
open Sched Remote StateExcept

variable {lossy : Prop} {world : World} {cfg : Config} {d d' : State} {sid : SessionId}
  {drv : DrvId} {ent : Entry} {wid : WorkerId} {wkr : Worker}

/-! ## Builds that end -/

theorem finish_cases {key : PathKey} {new : Entry} (finished : Core.finish wid key ent = some new) :
    new = ent := by
  unfold Core.finish at finished
  split_ifs at finished
  exact (Option.some.inj finished).symm

theorem returned_shrinks {key : PathKey} {new : Entry}
    (returned : Core.returned wid key ent = some new) : Shrinks ent new := by
  unfold Core.returned at returned
  split_ifs at returned
  · cases returned
    exact ⟨rfl, List.Subset.refl _, rfl, .inl rfl⟩
  · cases returned
    exact shrinks_refl ent

/-- An operation that only ends assignments, in a system that may lose them. -/
theorem sheds_of_keeps {s s' : Core} (loss : lossy) (roster_eq : s'.roster = s.roster)
    (shrinks : ∀ drv new, s'.entry drv = some new → ∃ ent, s.entry drv = some ent ∧ Shrinks ent new) :
    Sheds lossy s s' where
  length_le := (congrArg List.length roster_eq).ge
  entry := shrinks
  worker _ new listed up := ⟨new, roster_eq ▸ listed, up, rfl⟩
  still lossless := absurd loss lossless
  seated lossless := absurd loss lossless

/-- What a worker reports about a build leaves sessions and workers alone. -/
theorem onDone_eq (loss : lossy) (inv : d.core.Inv) (flags : FlagsOff d.core ∅)
    (wid_lt : wid < d.core.workers.length) (done : Done) :
    ∃ d', onDone wid done d = .ok () d' ∧ Does lossy d d' ∧
      d' = { d with core := d'.core, log := d'.log } ∧ d'.core.roster = d.core.roster ∧
      d'.core.liveCount ≤ d.core.liveCount := by
  have get_eq := List.getElem?_eq_getElem wid_lt
  have ended : ∀ outputs, ∃ d', onCore (Core.done wid done.drvPath outputs) d = .ok () d' ∧
      Does lossy d d' ∧ d' = { d with core := d'.core, log := d'.log } ∧
      d'.core.roster = d.core.roster ∧ d'.core.liveCount ≤ d.core.liveCount := by
    intro outputs
    obtain ⟨s', ran, s'_inv, entry_eq, keeps⟩ := inv.done get_eq done.drvPath outputs
    have old : ∀ drv new, s'.entry drv = some new → d.core.entry drv = some new := by
      intro drv new live
      rw [entry_eq] at live
      obtain ⟨ent, ent_live, finished⟩ := Option.bind_eq_some_iff.mp live
      rw [ent_live, finish_cases finished]
    refine ⟨_, onCore_of_ok ran, ⟨s'_inv, ?_, .single ?_⟩, rfl, keeps.roster,
      Core.liveCount_le_of_bind entry_eq⟩
    · exact flags.of_entries keeps.roster fun drv new live waits =>
        ⟨new, old drv new live, waits, rfl, rfl, rfl⟩
    · exact Move.shed (d.stage ∅) s'_inv
        (sheds_of_keeps loss keeps.roster fun drv new live => ⟨new, old drv new live, shrinks_refl new⟩)
        (List.Subset.refl d.clients) fun _ _ _ _ => rfl
  have given_back : ∃ d', (do onCore (Core.giveBack wid done.drvPath); placeabilityChangedLocked) d =
      .ok () d' ∧ Does lossy d d' ∧ d' = { d with core := d'.core, log := d'.log } ∧
      d'.core.roster = d.core.roster ∧ d'.core.liveCount ≤ d.core.liveCount := by
    obtain ⟨mid, ran, mid_inv, entry_eq, keeps⟩ := inv.giveBack get_eq done.drvPath
    obtain ⟨s', log, flagged, s'_inv, roster_eq, flagged_entry, flags', move⟩ :=
      @placeabilityChangedLocked_eq { d with core := mid } mid_inv
    refine ⟨_, (bind_of_ok (onCore_of_ok ran) _).trans flagged, ⟨s'_inv, flags', ?_⟩, rfl,
      roster_eq.trans keeps.roster,
      (liveCount_le_of_flags flagged_entry).trans (Core.liveCount_le_of_bind entry_eq)⟩
    refine .head (Move.shed (d.stage ∅) mid_inv (sheds_of_keeps loss keeps.roster
      (entry_bind_shrinks entry_eq fun _ _ => returned_shrinks)) (List.Subset.refl d.clients)
      fun _ _ _ _ => rfl) (.single (move lossy ∅ ∅ []))
  unfold onDone
  cases done.outcome with
  | built => exact ended done.outputs
  | failed => exact ended []
  | cancelled => exact ended []
  | noShow => exact given_back
  | givenBack => exact given_back

/-- A worker that starts or stops to drain keeps its session and its builds. -/
theorem onLoad_eq (inv : d.core.Inv) (get_eq : d.core.workers[wid]? = some wkr) (draining : Bool) :
    ∃ d', onLoad wid draining d = .ok () d' ∧ Does lossy d d' ∧ d'.ids = d.ids ∧ d'.workers = d.workers ∧
      d'.core.roster = d.core.roster.set wid { wkr with draining, running := [] } ∧
      d'.core.liveCount ≤ d.core.liveCount := by
  obtain ⟨mid, ran, mid_inv, entry_eq, workers_eq, -⟩ := inv.setDraining get_eq draining
  obtain ⟨s', log, flagged, s'_inv, roster_eq, flagged_entry, flags, move⟩ := @placeabilityChangedLocked_eq
    { d with
      core := mid
      published := membersOf mid.workers
      deferred := (d.watchers.map .wake).reverse ++ d.deferred } mid_inv
  have mid_roster := roster_set_eq workers_eq
  have wid_lt := lt_length get_eq
  have sheds : Sheds lossy d.core mid := by
    refine ⟨by simp [mid_roster], fun drv new live => ⟨new, entry_eq ▸ live, shrinks_refl new⟩,
      fun other new listed up => ?_,
      fun _ drv ent live _ => ⟨ent, entry_eq ▸ live, rfl, rfl, rfl⟩, fun _ other old listed up => ?_⟩
    · rw [mid_roster] at listed
      rcases Core.getElem?_set_eq_some listed with ⟨rfl, rfl⟩ | ⟨-, listed⟩
      · exact ⟨_, roster_get get_eq, up, rfl⟩
      · exact ⟨new, listed, up, rfl⟩
    · by_cases same : other = wid
      · subst same
        obtain rfl : { wkr with running := [] } = old := by
          simpa [roster_get get_eq] using listed
        refine ⟨{ wkr with draining, running := [] }, ?_, up, rfl⟩
        rw [mid_roster, List.getElem?_set_self (by simpa [Core.roster] using wid_lt)]
      · exact ⟨old, by rw [mid_roster, List.getElem?_set_ne (Ne.symm same), listed], up, rfl⟩
  have drained := bind_of_ok (onCore_of_ok ran) fun _ => do
    membershipChangedLocked
    placeabilityChangedLocked
  refine ⟨_, drained.trans flagged, ⟨s'_inv, flags, ?_⟩, rfl, rfl, roster_eq.trans mid_roster,
    (liveCount_le_of_flags flagged_entry).trans (Core.liveCount_le fun drv live => entry_eq ▸ live)⟩
  exact .head (Move.shed (d.stage ∅) mid_inv sheds (List.Subset.refl d.clients) fun _ _ _ _ => rfl)
    (.single (move lossy ∅ ∅ []))

/-- A session that closes takes its worker down, and no other if all Expects are accepted. -/
theorem workerGone_eq (loss : lossy) (inv : d.core.Inv) (is_wid : d.ids sid = some wid)
    (get_eq : d.core.workers[wid]? = some wkr) :
    ∃ d', workerGone world sid d = .ok () d' ∧ Does lossy d d' ∧
      (world.AcceptsExpects → Seated d.core d.workers → d'.ids = update d.ids sid none ∧
        d'.workers = d.workers.erase wid ∧
        d'.core.roster = d.core.roster.set wid { wkr with up := false, running := [] }) := by
  obtain ⟨left, ran, left_inv, left_entry, left_workers, -⟩ := inv.workerGone get_eq
  have left_roster := roster_set_eq left_workers
  have seats : ∀ (other : WorkerId) (wkr : Worker), left.roster[other]? = some wkr → wkr.up = true →
      (d.workers.erase wid).lookup other = d.workers.lookup other ∧ d.core.roster[other]? = some wkr := by
    intro other wkr listed up
    rw [left_roster] at listed
    rcases Core.getElem?_set_eq_some listed with ⟨-, rfl⟩ | ⟨other_ne, listed⟩
    · cases up
    · exact ⟨AList.lookup_erase_ne other_ne, listed⟩
  let erased : State :=
    { d with
      core := left
      workers := d.workers.erase wid
      published := membersOf left.workers
      deferred := (d.watchers.map .wake).reverse ++ d.deferred }
  obtain ⟨mid, dispatched, mid_inv, moves, -⟩ := @dispatchLocked_eq lossy world erased left_inv (.inl loss) ∅
  obtain ⟨s', log, flagged, s'_inv, roster_eq, -, flags, move⟩ := placeabilityChangedLocked_eq mid_inv
  have closed : workerGone world sid d =
      .ok () { mid with core := s', log, ids := update mid.ids sid none } := by
    rw [workerGone, bind_get_apply]
    simp only [is_wid]
    rw [bind_of_ok (onCore_of_ok ran)]
    exact (bind_of_ok dispatched _).trans (bind_of_ok flagged _)
  refine ⟨_, closed, ⟨s'_inv, flags, ?_⟩, fun accepts seated => ?_⟩
  · exact .head (Move.shed (d.stage ∅) left_inv (sheds_of_leave loss left_entry left_workers)
      (List.Subset.refl d.clients) fun other wkr listed up => (seats other wkr listed up).1)
      (moves.tail (move lossy ∅ ∅ []))
  · obtain ⟨mid', dispatched', -, -, rests⟩ := @dispatchLocked_eq False world erased left_inv
      (.inr ⟨accepts, fun other wkr listed up => by
        rw [(seats other wkr listed up).1]
        exact seated other wkr (seats other wkr listed up).2 up⟩) ∅
    obtain rfl : mid' = mid := (EStateM.Result.ok.inj (dispatched'.symm.trans dispatched)).2
    obtain ⟨same, mid_roster⟩ := rests.same id
    refine ⟨?_, ?_, (roster_eq.trans mid_roster).trans left_roster⟩
    · change update mid'.ids sid none = _
      rw [same]
    · change mid'.workers = _
      rw [same]

/-! ## Hello -/

/-- All Revokes are accepted. -/
def World.AcceptsRevokes (world : World) : Prop :=
  ∀ log sid path, world.delivers log sid (.revoke path) = true

theorem Told.mono {log : List Event} {key : PathKey} {assignId : ℕ} (told : Told log sid key assignId)
    (more : List Event) : Told (more ++ log) sid key assignId := by
  rcases told with ⟨path, mem, key_eq⟩ | ⟨hel, path, mem, rest⟩
  · exact .inl ⟨path, List.mem_append_right more mem, key_eq⟩
  · exact .inr ⟨hel, path, List.mem_append_right more mem, rest⟩

/-- A superseded entry, seen from the session that reported it. -/
def Moved (d : State) (sid : SessionId) (sup : Superseded) : Prop :=
  ∃ ent wid wkr, d.core.entry sup.drv = some ent ∧ ent.worker = some wid ∧
    d.core.workers[wid]? = some wkr ∧ d.workers.lookup wid = some sid ∧
    Told d.log sid ent.pathKey ent.assignId

theorem supersede_eq {sup : Superseded} (moved : Moved d sid sup)
    (honest : lossy ∨ world.AcceptsRevokes) (pending : Set Superseded) :
    ∃ more, supersede world sup d = .ok () { d with log := more ++ d.log } ∧
      Move lossy (d.stage pending) ({ d with log := more ++ d.log }.stage (pending \ {sup})) := by
  obtain ⟨ent, wid, wkr, live, assigned, get_eq, seat, told⟩ := moved
  let said := handed d.clients (.assigned (assignedTo { wkr with running := [] } ent)) ent.followers
  rw [supersede, bind_of_ok (onCore_entryAt live)]
  change ∃ more, (assignedMsg sup.drv >>= _) d = _ ∧ _
  rw [bind_of_ok (assignedMsg_eq live assigned get_eq), bind_of_ok (sendToFollowers_eq live _)]
  cases lost : sup.loser with
  | none =>
    refine ⟨said, rfl, ?_⟩
    exact Move.tell (d.stage pending) sup [] live assigned (roster_get get_eq) seat told (by simp)
      (by simp [lost])
  | some loser =>
    obtain ⟨revokes, ran, quiet, sent⟩ := @revokeOn_eq world { d with log := said ++ d.log } loser ent.drvPath
    refine ⟨revokes ++ said, ?_, ?_⟩
    · rw [List.append_assoc]
      exact ran
    · refine Move.tell (d.stage pending) sup revokes live assigned (roster_get get_eq) seat told quiet ?_
      rintro loser' other same other_seat
      cases lost.symm.trans same
      obtain ⟨delivered, mem, refused⟩ := sent other other_seat
      refine ⟨delivered, mem, fun lossless => Bool.of_not_eq_false fun not_delivered => ?_⟩
      obtain ⟨log, log_eq⟩ := refused not_delivered
      rw [honest.resolve_left lossless log other ent.drvPath] at log_eq
      cases log_eq

/-- Everybody who follows a superseded entry is told, and whoever lost it. -/
theorem supersedeAll_eq {superseded : List Superseded} (moved : ∀ sup ∈ superseded, Moved d sid sup)
    (honest : lossy ∨ world.AcceptsRevokes) {pending : Set Superseded}
    (few : ∀ sup ∈ pending, sup ∈ superseded) :
    ∃ more, supersedeAll world superseded d = .ok () { d with log := more ++ d.log } ∧
      Moves lossy (d.stage pending) ({ d with log := more ++ d.log }.stage ∅) := by
  induction superseded generalizing d pending with
  | nil =>
    obtain rfl : pending = ∅ := Set.eq_empty_of_forall_notMem fun sup mem => by
      simpa using few sup mem
    exact ⟨[], rfl, .refl⟩
  | cons sup superseded ih =>
    obtain ⟨first, ran, move⟩ := supersede_eq (moved sup List.mem_cons_self) honest pending
    have fewer : ∀ other ∈ pending \ {sup}, other ∈ superseded := by
      rintro other ⟨mem, other_ne⟩
      exact (List.mem_cons.mp (few other mem)).resolve_left other_ne
    obtain ⟨rest, rest_ran, moves⟩ := @ih { d with log := first ++ d.log }
      (fun other mem => by
        obtain ⟨ent, wid, wkr, live, assigned, get_eq, seat, told⟩ := moved other (List.mem_cons_of_mem sup mem)
        exact ⟨ent, wid, wkr, live, assigned, get_eq, seat, told.mono first⟩)
      (pending \ {sup}) fewer
    refine ⟨rest ++ first, ?_, ?_⟩
    · rw [supersedeAll, bind_of_ok ran, rest_ran, List.append_assoc]
    · rw [List.append_assoc]
      exact .head move moves

theorem systemsOf_cases (cfg : Config) (names : List String) (d : State) :
    (∃ systems, systemsOf cfg names d = .ok systems d) ∨ ∃ err, systemsOf cfg names d = .error err d := by
  induction names with
  | nil => exact .inl ⟨[], rfl⟩
  | cons name names ih =>
    unfold systemsOf
    split_ifs with too_long
    · exact .inr ⟨_, rfl⟩
    · rcases ih with ⟨systems, rest⟩ | ⟨err, rest⟩
      · exact .inl ⟨_, by rw [bind_of_ok rest]; rfl⟩
      · exact .inr ⟨err, bind_of_error rest _⟩

theorem systemsOf_state {names systems : List String}
    (named : systemsOf cfg names d = .ok systems d') : d' = d := by
  rcases systemsOf_cases cfg names d with ⟨_, named'⟩ | ⟨_, bad⟩
  · exact (EStateM.Result.ok.inj (named.symm.trans named')).2
  · exact nomatch named.symm.trans bad

/-- The ids of the sessions after the older session of a worker lost its own. -/
def detachedIds (d : State) (sid : SessionId) (wid : WorkerId) : SessionId → Option WorkerId :=
  match d.workers.lookup wid with
  | none => d.ids
  | some old => if old = sid then d.ids else update d.ids old none

theorem detachOld_eq (sid : SessionId) (wid : WorkerId) (d : State) :
    ∃ deferred, detachOld sid wid d = .ok () { d with ids := detachedIds d sid wid, deferred } := by
  rw [detachOld, bind_get_apply, detachedIds]
  cases d.workers.lookup wid with
  | none => exact ⟨d.deferred, rfl⟩
  | some old =>
    by_cases same : old = sid
    · exact ⟨d.deferred, by simp [same]⟩
    · exact ⟨.abort old :: d.deferred, by simp [same]⟩

/-- What a Hello that goes through does to sessions and workers. -/
structure Registered (d d' : State) (sid : SessionId) (hel : Hello) (wid : WorkerId) : Prop where
  addr_ne : hel.addr ≠ ""
  ids_eq : d'.ids = update (detachedIds d sid wid) sid (some wid)
  workers_eq : d'.workers = d.workers.insert wid sid
  self : ∃ wkr : Worker, d'.core.roster[wid]? = some wkr ∧ wkr.up = true ∧ wkr.addr = hel.addr
  other : ∀ other ≠ wid, d'.core.roster[other]? = d.core.roster[other]?
  slot : ∀ wkr : Worker, d.core.roster[wid]? = some wkr → wkr.addr = hel.addr
  live_le : d'.core.liveCount ≤ d.core.liveCount + hel.running.length

/-- A slot for an address changes nothing that is up. -/
theorem sheds_of_workerId {s s' : Core} {addr : String} (entry_eq : s'.entry = s.entry)
    (workers_eq : s'.workers = s.workers ∨ s'.workers = s.workers ++ [({ addr } : Worker)]) :
    Sheds lossy s s' := by
  have listed_iff : ∀ (wid : WorkerId) (wkr : Worker), wkr.up = true →
      (s'.roster[wid]? = some wkr ↔ s.roster[wid]? = some wkr) := by
    intro wid wkr up
    rcases workers_eq with same | added
    · rw [Core.roster, Core.roster, same]
    · rw [Core.roster, added, List.map_append, ← Core.roster]
      constructor
      · intro listed
        rcases Core.getElem?_concat_eq_some listed with listed | ⟨-, rfl⟩
        · exact listed
        · cases up
      · intro listed
        rwa [List.getElem?_append_left (lt_length listed)]
  refine ⟨?_, fun drv new live => ⟨new, entry_eq ▸ live, shrinks_refl new⟩,
    fun wid new listed up => ⟨new, (listed_iff wid new up).mp listed, up, rfl⟩,
    fun _ drv ent live _ => ⟨ent, entry_eq ▸ live, rfl, rfl, rfl⟩,
    fun _ wid wkr listed up => ⟨wkr, (listed_iff wid wkr up).mpr listed, up, rfl⟩⟩
  rcases workers_eq with same | added
  · simp [Core.roster, same]
  · simp [Core.roster, added]

/-- What a worker reports, it holds. -/
theorem greeted_moved {s s' : Core} {hel : Hello} {systems : List String} {superseded : List Superseded}
    (greeted : Core.Greeted s s' (helloInfo hel systems) wid superseded) {sup : Superseded}
    (mem : sup ∈ superseded) :
    ∃ ent, s'.entry sup.drv = some ent ∧ ent.worker = some wid ∧
      ∃ path, (path, ent.assignId) ∈ hel.running ∧ PathKey.ofPath path = ent.pathKey := by
  obtain ⟨old, old_live, is_reported, -⟩ := (greeted.superseded_iff sup).mp mem
  obtain ⟨assignId, report_eq⟩ := Option.isSome_iff_exists.mp is_reported
  have live := greeted.known sup.drv old old_live
  rw [Core.adoptEntry, report_eq] at live
  obtain ⟨path, path_mem, key_eq⟩ := Core.mem_of_reported report_eq
  exact ⟨_, live, rfl, path, path_mem, key_eq⟩

/-- A Hello is refused, fails in the core, or registers its session. -/
theorem onHello_cases (inv : d.core.Inv) (honest : lossy ∨ world.AcceptsRevokes) (hel : Hello) :
    (∃ d' wid, onHello world cfg sid hel d = .ok () d' ∧ Does lossy d d' ∧ Registered d d' sid hel wid) ∨
    (∃ err, onHello world cfg sid hel d = .error err d) ∨
    ∃ systems wid wkr known err failed deferred,
      Core.workerId hel.addr d.core = .ok wid known ∧ known.Inv ∧ known.workers[wid]? = some wkr ∧
      wkr.addr = hel.addr ∧ known.entry = d.core.entry ∧
      (known.workers = d.core.workers ∨ known.workers = d.core.workers ++ [({ addr := hel.addr } : Worker)]) ∧
      Core.hello (helloInfo hel systems) known = .error err failed ∧
      onHello world cfg sid hel d =
        .error err { d with core := failed, ids := detachedIds d sid wid, deferred } := by
  unfold onHello
  split_ifs with offers_none
  · exact .inr (.inl ⟨_, rfl⟩)
  rcases systemsOf_cases cfg hel.systems d with ⟨systems, named⟩ | ⟨err, bad⟩
  swap
  · exact .inr (.inl ⟨err, bind_of_error bad _⟩)
  rw [bind_of_ok named]
  obtain ⟨slot, wkr, known, known_ok, known_inv, known_get, addr_eq, known_entry, -, -, -,
    known_workers⟩ := inv.workerId hel.addr
  have known_workers' : known.workers = d.core.workers ∨
      known.workers = d.core.workers ++ [({ addr := hel.addr } : Worker)] :=
    known_workers.imp id fun added => added.2.1
  obtain ⟨deferred, detached⟩ := detachOld_eq sid slot { d with core := known }
  rw [bind_of_ok (onCore_of_ok known_ok), bind_of_ok detached]
  cases said_hello : Core.hello (helloInfo hel systems) known with
  | error err failed =>
    refine .inr (.inr ⟨systems, slot, wkr, known, err, failed, deferred, known_ok, known_inv,
      known_get, addr_eq, known_entry, known_workers', said_hello, ?_⟩)
    apply bind_of_error
    simp only [onCore, onPart, said_hello]
    rfl
  | ok result s' =>
    obtain ⟨wid, superseded⟩ := result
    obtain ⟨s'_inv, greeted⟩ := known_inv.hello said_hello
    obtain rfl : wid = slot := by
      rcases greeted.slot with ⟨other, other_get, other_addr⟩ | ⟨-, unknown⟩
      · exact Option.some.inj (((known_inv.addrs hel.addr wid).mpr ⟨other, other_get, other_addr⟩).symm.trans
          ((known_inv.addrs hel.addr slot).mpr ⟨wkr, known_get, addr_eq⟩))
      · exact absurd addr_eq (unknown wkr (List.mem_of_getElem? known_get))
    let seated : State :=
      { d with
        core := s'
        ids := update (detachedIds { d with core := known } sid wid) sid (some wid)
        workers := d.workers.insert wid sid
        published := membersOf s'.workers
        deferred := (d.watchers.map .wake).reverse ++ deferred
        log := .hello sid hel :: d.log }
    have moved : ∀ sup ∈ superseded, Moved seated sid sup := by
      intro sup mem
      obtain ⟨ent, live, assigned, path, path_mem, key_eq⟩ := greeted_moved greeted mem
      obtain ⟨self, self_get, -⟩ := get_of_roster_get greeted.roster_self
      exact ⟨ent, wid, self, live, assigned, self_get, AList.lookup_insert d.workers,
        .inr ⟨hel, path, List.mem_cons_self, path_mem, key_eq⟩⟩
    obtain ⟨more, told, moves⟩ := supersedeAll_eq moved honest
      (show ∀ sup ∈ {sup | sup ∈ superseded}, sup ∈ superseded from fun sup mem => mem)
    obtain ⟨last, log, flagged, last_inv, roster_eq, flagged_entry, flags, move⟩ :=
      @placeabilityChangedLocked_eq { seated with log := more ++ seated.log } s'_inv
    refine .inl ⟨{ seated with core := last, log }, wid, ?_, ⟨last_inv, flags, ?_⟩, ?_⟩
    · refine (bind_of_ok (onCore_of_ok said_hello) _).trans ?_
      exact (bind_of_ok told _).trans flagged
    · refine .head (Move.shed (d.stage ∅) known_inv (sheds_of_workerId known_entry known_workers')
        (List.Subset.refl d.clients) fun _ _ _ _ => rfl) ?_
      refine .head (Move.greet ({ d with core := known }.stage ∅) sid s'_inv greeted rfl rfl) ?_
      exact moves.tail (move lossy ∅ ∅ [])
    · refine ⟨greeted.addr_ne, rfl, rfl, ⟨_, (congrArg (·[wid]?) roster_eq).trans greeted.roster_self,
        rfl, rfl⟩, fun other other_ne => ?_, fun old listed => ?_, ?_⟩
      · refine (congrArg (·[other]?) roster_eq).trans ((greeted.roster_other other other_ne).trans ?_)
        rcases known_workers with same | ⟨rfl, added, -⟩
        · rw [Core.roster, Core.roster, same]
        · rw [Core.roster, added, List.map_append, List.getElem?_append]
          rcases lt_or_gt_of_ne other_ne with before | beyond
          · rw [if_pos (by simpa using before)]
            rfl
          · rw [if_neg (by simpa using beyond.le),
              List.getElem?_eq_none (by simp only [List.length_map]; exact Nat.sub_pos_of_lt beyond),
              List.getElem?_eq_none (by simpa [Core.roster] using beyond.le)]
      · rcases known_workers with same | ⟨rfl, -, -⟩
        · obtain ⟨full, full_get, rfl⟩ := get_of_roster_get listed
          rw [← same, known_get] at full_get
          rw [← Option.some.inj full_get]
          exact addr_eq
        · rw [List.getElem?_eq_none (by simp [Core.roster])] at listed
          cases listed
      · have same_count : known.liveCount ≤ d.core.liveCount :=
          Core.liveCount_le fun drv live => known_entry ▸ live
        exact (liveCount_le_of_flags flagged_entry).trans
          ((greeted.liveCount_le s'_inv).trans (Nat.add_le_add_right same_count _))

/-! ## Batches -/

/-- Ids of sessions name slots of the worker table. -/
def IdsBound (d : State) : Prop := ∀ sid wid, d.ids sid = some wid → wid < d.core.workers.length

theorem IdsBound.of_moves (bound : IdsBound d) (moves : Moves lossy (d.stage ∅) (d'.stage ∅))
    (fewer : ∀ sid wid, d'.ids sid = some wid → d.ids sid = some wid) : IdsBound d' := by
  intro sid wid is_wid
  have longer := moves_length_le moves
  simp only [State.stage, Core.roster, List.length_map] at longer
  exact (bound sid wid (fewer sid wid is_wid)).trans_le longer

/-- A close takes the id off its session. -/
theorem workerGone_ids (ran : workerGone world sid d = .ok () d') :
    d'.ids = update d.ids sid none := by
  rw [workerGone, bind_get_apply] at ran
  cases is_wid : d.ids sid with
  | none =>
    rw [is_wid] at ran
    cases ran
    rw [← is_wid, Function.update_eq_self]
  | some wid =>
    simp only [is_wid] at ran
    obtain ⟨_, d₁, left, then₁⟩ := bind_eq_ok.mp ran
    obtain ⟨_, d₂, erased, then₂⟩ := bind_eq_ok.mp then₁
    obtain ⟨_, d₃, published, then₃⟩ := bind_eq_ok.mp then₂
    obtain ⟨_, d₄, dispatched, then₄⟩ := bind_eq_ok.mp then₃
    obtain ⟨_, d₅, flagged, reset⟩ := bind_eq_ok.mp then₄
    cases erased
    cases reset
    have ids_eq : d₅.ids = d.ids := by
      rw [(framed_samePeers.placeabilityChangedLocked.ok flagged).ids_eq,
        (framed_samePeers.dispatchLocked.ok dispatched).ids_eq,
        (framed_samePeers.membershipChangedLocked.ok published).ids_eq]
      exact (samePeers_onCore _).ok left |>.ids_eq
    exact congrArg (update · sid none) ids_eq

theorem workerGone_does (loss : lossy) (inv : d.core.Inv) (flags : FlagsOff d.core ∅)
    (bound : IdsBound d) (ran : workerGone world sid d = .ok () d') : Does lossy d d' ∧ IdsBound d' := by
  have ids_eq := workerGone_ids ran
  have fewer : ∀ other wid, d'.ids other = some wid → d.ids other = some wid := by
    intro other wid is_other
    by_cases same : other = sid
    · simp [ids_eq, same] at is_other
    · rwa [ids_eq, update_of_ne same] at is_other
  cases is_wid : d.ids sid with
  | none =>
    rw [workerGone, bind_get_apply, is_wid] at ran
    cases ran
    exact ⟨Does.refl inv flags, bound⟩
  | some wid =>
    obtain ⟨next, left, does, -⟩ :=
      workerGone_eq loss inv is_wid (List.getElem?_eq_getElem (bound sid wid is_wid))
    cases left.symm.trans ran
    exact ⟨does, bound.of_moves does.moves fewer⟩

theorem detachedIds_eq_some {other : SessionId} {otherWid : WorkerId}
    (is_wid : detachedIds d sid wid other = some otherWid) : d.ids other = some otherWid := by
  unfold detachedIds at is_wid
  cases seat : d.workers.lookup wid with
  | none => simpa only [seat] using is_wid
  | some old =>
    simp only [seat] at is_wid
    split_ifs at is_wid
    · exact is_wid
    · by_cases same : other = old
      · simp [same] at is_wid
      · rwa [update_of_ne same] at is_wid

theorem Registered.idsBound {hel : Hello} (registered : Registered d d' sid hel wid)
    (bound : IdsBound d) (moves : Moves lossy (d.stage ∅) (d'.stage ∅)) : IdsBound d' := by
  intro other otherWid is_wid
  rw [registered.ids_eq] at is_wid
  by_cases same : other = sid
  · rw [same, Function.update_self] at is_wid
    cases is_wid
    obtain ⟨wkr, listed, -⟩ := registered.self
    simpa [Core.roster] using (lt_length listed)
  · rw [update_of_ne same] at is_wid
    have longer := moves_length_le moves
    simp only [State.stage, Core.roster, List.length_map] at longer
    exact (bound other otherWid (detachedIds_eq_some is_wid)).trans_le longer

/-- A message other than a Done, or one in a system that may lose builds. -/
def Tame (lossy : Prop) (world : World) (msgs : List WorkerMsg) : Prop :=
  lossy ∨ world.AcceptsRevokes ∧ ∀ done, .done done ∉ msgs

/-- Only a Hello may come from a session without an id. -/
theorem registered_of_ran {msg : WorkerMsg} (other : isHello msg = false)
    (ran : workerMsgLocked world cfg sid msg d = .ok () d') : ∃ wid, d.ids sid = some wid := by
  cases is_wid : d.ids sid with
  | some wid => exact ⟨wid, rfl⟩
  | none =>
    cases msg with
    | hello hel => cases other
    | done | load | empty =>
      simp only [workerMsgLocked, bind_get_apply, is_wid] at ran
      cases ran

section Messages

variable (inv : d.core.Inv) (flags : FlagsOff d.core ∅) (bound : IdsBound d)
include inv flags bound

theorem workerMsgLocked_does {msg : WorkerMsg} (tame : Tame lossy world [msg])
    (ran : workerMsgLocked world cfg sid msg d = .ok () d') : Does lossy d d' ∧ IdsBound d' := by
  cases msg with
  | hello hel =>
    rcases @onHello_cases lossy world cfg _ sid inv (tame.imp id And.left) hel with
      ⟨next, wid, said, does, registered⟩ | ⟨err, refused⟩ |
      ⟨_, _, _, _, err, failed, deferred, -, -, -, -, -, -, -, threw⟩
    · obtain rfl : next = d' := (EStateM.Result.ok.inj (said.symm.trans ran)).2
      exact ⟨does, registered.idsBound bound does.moves⟩
    · exact nomatch refused.symm.trans ran
    · exact nomatch threw.symm.trans ran
  | done done =>
    have loss : lossy := tame.resolve_right fun calm => calm.2 done List.mem_cons_self
    obtain ⟨wid, is_wid⟩ := registered_of_ran rfl ran
    simp only [workerMsgLocked, bind_get_apply, is_wid] at ran
    obtain ⟨next, said, does, same, -⟩ := onDone_eq loss inv flags (bound sid wid is_wid) done
    obtain rfl : next = d' := (EStateM.Result.ok.inj (said.symm.trans ran)).2
    refine ⟨does, bound.of_moves does.moves fun other otherWid is_other => ?_⟩
    rw [same] at is_other
    exact is_other
  | load draining =>
    obtain ⟨wid, is_wid⟩ := registered_of_ran rfl ran
    simp only [workerMsgLocked, bind_get_apply, is_wid] at ran
    obtain ⟨next, said, does, ids_eq, -⟩ :=
      onLoad_eq inv (List.getElem?_eq_getElem (bound sid wid is_wid)) draining
    cases said.symm.trans ran
    exact ⟨does, bound.of_moves does.moves fun other otherWid is_other => ids_eq ▸ is_other⟩
  | empty =>
    obtain ⟨wid, is_wid⟩ := registered_of_ran rfl ran
    simp only [workerMsgLocked, bind_get_apply, is_wid] at ran
    cases ran
    exact ⟨Does.refl inv flags, bound⟩

theorem workerMsgsLocked_does {msgs : List WorkerMsg} (tame : Tame lossy world msgs)
    (ran : workerMsgsLocked world cfg sid msgs d = .ok () d') : Does lossy d d' ∧ IdsBound d' := by
  induction msgs generalizing d with
  | nil =>
    cases ran
    exact ⟨Does.refl inv flags, bound⟩
  | cons msg msgs ih =>
    obtain ⟨_, mid, first, rest⟩ := bind_eq_ok.mp ran
    have tame_first : Tame lossy world [msg] := tame.imp id fun calm =>
      ⟨calm.1, fun done mem => calm.2 done (List.mem_singleton.mp mem ▸ List.mem_cons_self)⟩
    obtain ⟨does, mid_bound⟩ := workerMsgLocked_does inv flags bound tame_first first
    obtain ⟨rest_does, d'_bound⟩ := ih does.inv does.flags mid_bound
      (tame.imp id fun calm => ⟨calm.1, fun done mem => calm.2 done (List.mem_cons_of_mem msg mem)⟩) rest
    exact ⟨does.trans rest_does, d'_bound⟩

/-- A batch of a worker, followed by a dispatch. -/
theorem workerMsgs_does {msgs : List WorkerMsg} (tame : Tame lossy world msgs)
    (ready : lossy ∨ world.AcceptsExpects ∧ Seated d.core d.workers)
    (ran : workerMsgs world cfg sid msgs d = .ok () d') : Does lossy d d' ∧ IdsBound d' := by
  cases msgs with
  | nil =>
    cases ran
    exact ⟨Does.refl inv flags, bound⟩
  | cons first msgs =>
    rw [workerMsgs, bind_get_apply] at ran
    split_ifs at ran
    · cases ran
    obtain ⟨_, mid, heard, dispatched⟩ := bind_eq_ok.mp ran
    obtain ⟨does, mid_bound⟩ := workerMsgsLocked_does inv flags bound tame heard
    obtain ⟨next, placed, next_inv, moves, rests⟩ := dispatchLocked_eq does.inv
      (ready.imp id fun calm => ⟨calm.1, moves_seated does.moves calm.2⟩) ∅
    have peers := framed_samePeers.dispatchLocked.ok placed
    cases placed.symm.trans dispatched
    exact ⟨does.trans ⟨next_inv, rests.flags ∅ does.flags, moves⟩,
      mid_bound.of_moves moves fun other wid is_wid => peers.ids_eq ▸ is_wid⟩

end Messages

end NixGrpcStore.Dispatcher
