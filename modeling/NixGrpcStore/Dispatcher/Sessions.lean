import NixGrpcStore.Dispatcher.Truth

/-!
# Sessions and the table of workers

The number of a worker is kept twice: in its session, and as the key under which the table holds the
session.  A Hello writes both, and a session that closes takes both back.  A dispatch whose Expect is
not accepted takes back the table's side only; the session that is left with a number may then close
on a newer one.  As long as all Expects are accepted, every session speaks for one worker and the
table of derivations has room for what a Hello reports, the two sides agree.
-/

namespace NixGrpcStore.Dispatcher

open Tally (lt_length)
open Function (update_of_ne update_self)
open List (map_cons mem_cons mem_singleton sum_cons)
open Sched Remote StateExcept

/-- A worker is up under an address. -/
def Serving (s : Core) (wid : WorkerId) (addr : String) : Prop :=
  ∃ wkr : Worker, s.roster[wid]? = some wkr ∧ wkr.up = true ∧ wkr.addr = addr

theorem Serving.addr_unique {s : Core} {wid : WorkerId} {addr other : String}
    (serving : Serving s wid addr) (serving' : Serving s wid other) : addr = other := by
  obtain ⟨wkr, listed, -, rfl⟩ := serving
  obtain ⟨wkr', listed', -, rfl⟩ := serving'
  cases listed.symm.trans listed'
  rfl

/-- What sessions and the table say of each other. -/
structure Agrees (d : State) : Prop where
  ids_iff : ∀ sid wid, d.ids sid = some wid ↔ d.workers.lookup wid = some sid
  up_iff : ∀ wid : WorkerId, (d.workers.lookup wid).isSome ↔ ∃ addr, Serving d.core wid addr
  named : ∀ sid wid, d.ids sid = some wid → ∃ addr, Serving d.core wid addr ∧
    (∃ hel, .hello sid hel ∈ d.log) ∧ ∀ hel, .hello sid hel ∈ d.log → hel.addr = addr
  addr_ne : ∀ wid addr, Serving d.core wid addr → addr ≠ ""

/-- A session has said no Hello yet, or it speaks for the worker with that address. -/
def MaySpeak (d : State) (sid : SessionId) (addr : String) : Prop :=
  (∀ hel, .hello sid hel ∉ d.log) ∨ ∃ wid, d.ids sid = some wid ∧ Serving d.core wid addr

/-- How many derivations a message reports. -/
def reportCount : WorkerMsg → ℕ
  | .hello hel => hel.running.length
  | _ => 0

/-- A batch in which a session speaks for one worker, and that the table of derivations has room
for. -/
structure FairMsgs (d : State) (sid : SessionId) (msgs : List WorkerMsg) : Prop where
  speaks : ∀ hel, .hello hel ∈ msgs → MaySpeak d sid hel.addr
  same : ∀ hel other, .hello hel ∈ msgs → .hello other ∈ msgs → hel.addr = other.addr
  room : d.core.liveCount + (msgs.map reportCount).sum ≤ Core.maxEntries

section Sections

variable {world : World} {cfg : Config} {d d' : State} {sid : SessionId} {wid : WorkerId}

theorem Agrees.seated (agrees : Agrees d) : Seated d.core d.workers :=
  fun wid wkr listed up => (agrees.up_iff wid).mpr ⟨wkr.addr, wkr, listed, up, rfl⟩

theorem Agrees.get (agrees : Agrees d) (is_wid : d.ids sid = some wid) :
    ∃ wkr, d.core.workers[wid]? = some wkr := by
  obtain ⟨addr, ⟨listed, get_eq, -⟩, -⟩ := agrees.named sid wid is_wid
  obtain ⟨wkr, get_eq, -⟩ := get_of_roster_get get_eq
  exact ⟨wkr, get_eq⟩

theorem Agrees.idsBound (agrees : Agrees d) : IdsBound d := by
  intro sid wid is_wid
  obtain ⟨wkr, get_eq⟩ := agrees.get is_wid
  exact lt_length get_eq

theorem serving_of_roster {s s' : Core} (roster_eq : s'.roster = s.roster) (wid : WorkerId)
    (addr : String) : Serving s' wid addr ↔ Serving s wid addr := by
  rw [Serving, roster_eq, Serving]

/-- What neither registers a session nor takes a worker up or down. -/
structure SameSeats (d d' : State) : Prop where
  ids_eq : d'.ids = d.ids
  workers_eq : d'.workers = d.workers
  hellos_eq : d'.hellos = d.hellos
  serving_iff : ∀ wid addr, Serving d'.core wid addr ↔ Serving d.core wid addr

theorem SameSeats.agrees (seats : SameSeats d d') (agrees : Agrees d) : Agrees d' where
  ids_iff := by
    rw [seats.ids_eq, seats.workers_eq]
    exact agrees.ids_iff
  up_iff wid := by
    simp only [seats.serving_iff, seats.workers_eq]
    exact agrees.up_iff wid
  named sid wid is_wid := by
    rw [seats.ids_eq] at is_wid
    simpa only [seats.serving_iff, ← State.mem_hellos, seats.hellos_eq] using agrees.named sid wid is_wid
  addr_ne wid addr serving := agrees.addr_ne wid addr ((seats.serving_iff wid addr).mp serving)

theorem SameSeats.maySpeak (seats : SameSeats d d') {addr : String} :
    MaySpeak d' sid addr ↔ MaySpeak d sid addr := by
  simp only [MaySpeak, ← State.mem_hellos, seats.hellos_eq, seats.ids_eq, seats.serving_iff]

theorem sameSeats_of_calm (same : d' = { d with core := d'.core, log := d'.log })
    (roster_eq : d'.core.roster = d.core.roster) (peers : SamePeers d d') : SameSeats d d' where
  ids_eq := peers.ids_eq
  workers_eq := by rw [same]
  hellos_eq := peers.hellos_eq
  serving_iff := serving_of_roster roster_eq

theorem sameSeats_of_talks (talks : Talks d d') (peers : SamePeers d d') : SameSeats d d' where
  ids_eq := peers.ids_eq
  workers_eq := talks.workers_eq
  hellos_eq := peers.hellos_eq
  serving_iff wid addr := by rw [talks.core_eq]

theorem sameSeats_of_idles (idles : Idles d d') : SameSeats d d' where
  ids_eq := idles.ids_eq
  workers_eq := idles.workers_eq
  hellos_eq := by rw [State.hellos, idles.log_eq, State.hellos]
  serving_iff wid addr := by rw [idles.core_eq]

/-! ## Hello -/

/-- A number that was never up stays without a session when it is looked up. -/
theorem serving_of_workerId {s s' : Core} {addr : String}
    (workers_eq : s'.workers = s.workers ∨ s'.workers = s.workers ++ [({ addr } : Worker)])
    (wid : WorkerId) (other : String) : Serving s' wid other ↔ Serving s wid other := by
  rcases workers_eq with same | added
  · exact serving_of_roster (by rw [Core.roster, same]; rfl) wid other
  · have roster_eq : s'.roster = s.roster ++ [({ addr } : Worker)] := by
      rw [Core.roster, added, List.map_append]
      rfl
    constructor
    · rintro ⟨wkr, listed, up, addr_eq⟩
      rw [roster_eq, List.getElem?_append] at listed
      split_ifs at listed with old
      · exact ⟨wkr, listed, up, addr_eq⟩
      · obtain rfl := mem_singleton.mp (List.mem_of_getElem? listed)
        cases up
    · rintro ⟨wkr, listed, up, addr_eq⟩
      refine ⟨wkr, ?_, up, addr_eq⟩
      rw [roster_eq, List.getElem?_append_left (lt_length listed), listed]

theorem flagsOff_of_workerId {s s' : Core} {addr : String} (flags : FlagsOff s ∅)
    (entry_eq : s'.entry = s.entry)
    (workers_eq : s'.workers = s.workers ∨ s'.workers = s.workers ++ [({ addr } : Worker)]) :
    FlagsOff s' ∅ := by
  have placeable_eq : s'.placeable = s.placeable := by
    funext ent
    rcases workers_eq with same | added
    · rw [Core.placeable, same, Core.placeable]
    · simp [Core.placeable, added, Worker.takesWork]
  intro drv not_mem ent live waits
  rw [placeable_eq]
  exact flags drv not_mem ent (entry_eq ▸ live) waits

/-- A Hello that goes through is on record once. -/
theorem onHello_hellos {hel : Hello} (said : onHello world cfg sid hel d = .ok () d') :
    d'.hellos = (sid, hel) :: d.hellos := by
  unfold onHello at said
  split_ifs at said
  · cases said
  obtain ⟨systems, d₁, named, asked⟩ := bind_eq_ok.mp said
  obtain ⟨slot, d₂, found, known⟩ := bind_eq_ok.mp asked
  obtain ⟨_, d₃, detached, alone⟩ := bind_eq_ok.mp known
  obtain ⟨⟨slot', superseded⟩, d₄, greeted, up⟩ := bind_eq_ok.mp alone
  obtain ⟨_, d₅, seated, rest⟩ := bind_eq_ok.mp up
  have same : d₃.hellos = d₂.hellos := by
    obtain ⟨deferred, detached'⟩ := detachOld_eq sid slot d₂
    cases detached'.symm.trans detached
    rfl
  have peers : SamePeers d₅ d' :=
    (framed_samePeers.membershipChangedLocked.bind fun _ => (framed_samePeers.supersedeAll superseded).bind fun _ =>
      framed_samePeers.placeabilityChangedLocked).ok rest
  have registered : d₅.hellos = (sid, hel) :: d₄.hellos := by
    cases seated
    rfl
  rw [peers.hellos_eq, registered, ((samePeers_onCore _).ok greeted).hellos_eq, same,
    ((samePeers_onCore _).ok found).hellos_eq, systemsOf_state named]

theorem detachedIds_iff (agrees : Agrees d) (other : SessionId) (otherWid : WorkerId) (other_ne : other ≠ sid) :
    detachedIds d sid wid other = some otherWid ↔ otherWid ≠ wid ∧ d.workers.lookup otherWid = some other := by
  rw [← agrees.ids_iff]
  unfold detachedIds
  cases seat : d.workers.lookup wid with
  | none =>
    refine ⟨fun is_wid => ⟨?_, is_wid⟩, And.right⟩
    rintro rfl
    rw [agrees.ids_iff, seat] at is_wid
    cases is_wid
  | some old =>
    dsimp only
    have of_old : ∀ wid', d.ids old = some wid' → wid' = wid := fun wid' is_wid =>
      Option.some.inj (is_wid.symm.trans ((agrees.ids_iff old wid).mpr seat))
    have to_old : d.ids other = some wid → other = old := fun is_wid =>
      Option.some.inj (((agrees.ids_iff other wid).mp is_wid).symm.trans seat)
    split_ifs with same
    · refine ⟨fun is_wid => ⟨?_, is_wid⟩, And.right⟩
      rintro rfl
      exact other_ne ((to_old is_wid).trans same)
    · by_cases is_old : other = old
      · rw [is_old, update_self]
        exact ⟨nofun, fun both => absurd (of_old _ both.2) both.1⟩
      · rw [update_of_ne is_old]
        refine ⟨fun is_wid => ⟨?_, is_wid⟩, And.right⟩
        rintro rfl
        exact is_old (to_old is_wid)

/-- The worker that a session may speak for is the one that its Hello names. -/
theorem Registered.only {hel : Hello} (registered : Registered d d' sid hel wid) (inv : d'.core.Inv)
    (agrees : Agrees d) (speaks : MaySpeak d sid hel.addr) {other : WorkerId}
    (is_wid : d.ids sid = some other) : other = wid := by
  obtain ⟨addr, serving, ⟨said, mem⟩, only⟩ := agrees.named sid other is_wid
  rcases speaks with silent | ⟨wid', is_wid', serving'⟩
  · exact absurd mem (silent said)
  · obtain rfl := Option.some.inj (is_wid'.symm.trans is_wid)
    by_contra other_ne
    obtain ⟨wkr, listed, -, addr_eq⟩ := serving'
    rw [← registered.other wid' other_ne] at listed
    obtain ⟨self, self_listed, -, self_addr⟩ := registered.self
    exact other_ne (wid_unique inv self_listed listed (addr_eq.trans self_addr.symm))

theorem Registered.agrees {hel : Hello} (registered : Registered d d' sid hel wid) (inv : d'.core.Inv)
    (hellos_eq : d'.hellos = (sid, hel) :: d.hellos) (agrees : Agrees d)
    (speaks : MaySpeak d sid hel.addr) : Agrees d' := by
  have self : Serving d'.core wid hel.addr := registered.self
  have elsewhere : ∀ other ≠ wid, ∀ addr, Serving d'.core other addr ↔ Serving d.core other addr :=
    fun other other_ne addr => by rw [Serving, registered.other other other_ne, Serving]
  have self_id : d'.ids sid = some wid := by rw [registered.ids_eq, update_self]
  have other_id : ∀ other ≠ sid, ∀ otherWid, d'.ids other = some otherWid ↔
      otherWid ≠ wid ∧ d.workers.lookup otherWid = some other := by
    intro other other_ne otherWid
    rw [registered.ids_eq, update_of_ne other_ne]
    exact detachedIds_iff agrees other otherWid other_ne
  refine ⟨fun other otherWid => ?_, fun otherWid => ?_, fun other otherWid is_wid => ?_,
    fun otherWid addr serving => ?_⟩
  · rw [registered.workers_eq]
    by_cases same_wid : otherWid = wid
    · rw [same_wid, AList.lookup_insert, Option.some.injEq]
      by_cases same : other = sid
      · simp [same, self_id]
      · simp [other_id other same, Ne.symm same]
    · rw [AList.lookup_insert_ne same_wid]
      by_cases same : other = sid
      · rw [same, self_id, ← agrees.ids_iff]
        refine ⟨fun is_wid => absurd (Option.some.inj is_wid).symm same_wid, fun is_wid => ?_⟩
        exact absurd (registered.only inv agrees speaks is_wid) same_wid
      · simp [other_id other same, same_wid]
  · rw [registered.workers_eq]
    by_cases same_wid : otherWid = wid
    · rw [same_wid, AList.lookup_insert]
      exact ⟨fun _ => ⟨hel.addr, self⟩, fun _ => rfl⟩
    · rw [AList.lookup_insert_ne same_wid, agrees.up_iff]
      simp only [elsewhere otherWid same_wid]
  · simp only [← State.mem_hellos, hellos_eq, mem_cons, Prod.mk.injEq]
    by_cases same : other = sid
    · subst same
      cases self_id.symm.trans is_wid
      refine ⟨hel.addr, self, ⟨hel, .inl ⟨rfl, rfl⟩⟩, fun said mem => ?_⟩
      rcases mem with ⟨-, rfl⟩ | mem
      · rfl
      · rcases speaks with silent | ⟨old, is_old, serving⟩
        · exact absurd (State.mem_hellos.mp mem) (silent said)
        · obtain ⟨addr, old_serving, -, only⟩ := agrees.named other old is_old
          exact (only said (State.mem_hellos.mp mem)).trans (old_serving.addr_unique serving)
    · obtain ⟨other_ne, seat⟩ := (other_id other same otherWid).mp is_wid
      obtain ⟨addr, serving, ⟨said, mem⟩, only⟩ :=
        agrees.named other otherWid ((agrees.ids_iff other otherWid).mpr seat)
      refine ⟨addr, (elsewhere otherWid other_ne addr).mpr serving,
        ⟨said, .inr (State.mem_hellos.mpr mem)⟩, fun said mem => ?_⟩
      exact only said (State.mem_hellos.mp (mem.resolve_left fun own => same own.1))
  · by_cases same_wid : otherWid = wid
    · subst same_wid
      rw [serving.addr_unique self]
      exact registered.addr_ne
    · exact agrees.addr_ne otherWid addr ((elsewhere otherWid same_wid addr).mp serving)

/-- What the messages of a session lead to. -/
structure Heard (d d' : State) (sid : SessionId) (msgs : List WorkerMsg) : Prop where
  does : Does True d d'
  agrees : Agrees d'
  live_le : d'.core.liveCount ≤ d.core.liveCount + (msgs.map reportCount).sum

theorem SameSeats.heard {msgs : List WorkerMsg} (seats : SameSeats d d') (agrees : Agrees d)
    (does : Does True d d') (live_le : d'.core.liveCount ≤ d.core.liveCount) : Heard d d' sid msgs :=
  ⟨does, seats.agrees agrees, live_le.trans (Nat.le_add_right _ _)⟩

/-- A Hello for which there is room goes through, unless something is wrong with it; then it changes
nothing but perhaps the number of its address. -/
theorem onHello_heard {hel : Hello} (inv : d.core.Inv) (flags : FlagsOff d.core ∅) (agrees : Agrees d)
    (fair : FairMsgs d sid [.hello hel]) :
    ∃ d', Heard d d' sid [.hello hel] ∧
      ((onHello world cfg sid hel d = .ok () d' ∧ MaySpeak d' sid hel.addr) ∨
        ∃ err, onHello world cfg sid hel d = .error err d') := by
  have speaks := fair.speaks hel List.mem_cons_self
  rcases @onHello_cases True world cfg _ sid inv (.inl trivial) hel with
    ⟨d', wid, said, does, registered⟩ | ⟨err, refused⟩ |
    ⟨systems, wid, wkr, known, err, failed, deferred, -, known_inv, known_get, addr_eq, known_entry,
      known_workers, threw, failed_eq⟩
  · refine ⟨d', ⟨does, registered.agrees does.inv (onHello_hellos said) agrees speaks, ?_⟩,
      .inl ⟨said, .inr ⟨wid, ?_, registered.self⟩⟩⟩
    · simpa [reportCount] using registered.live_le
    · rw [registered.ids_eq, update_self]
  · exact ⟨d, ⟨Does.refl inv flags, agrees, Nat.le_add_right _ _⟩, .inr ⟨err, refused⟩⟩
  · -- only a Hello without an address gets here
    have count_le : known.liveCount ≤ d.core.liveCount := Core.liveCount_le fun drv live => known_entry ▸ live
    have nameless : hel.addr = "" := by
      by_contra addr_ne
      have room : known.liveCount + hel.running.length ≤ Core.maxEntries :=
        (Nat.add_le_add_right count_le _).trans (by simpa [reportCount] using fair.room)
      obtain ⟨_, _, _, greeted⟩ := @Core.Inv.hello_ok known (helloInfo hel systems) known_inv addr_ne room
      exact nomatch greeted.symm.trans threw
    obtain rfl : known = failed := by
      rw [Core.hello, if_pos (show (helloInfo hel systems).addr = "" from nameless)] at threw
      cases threw
      rfl
    have unseated : d.workers.lookup wid = none := by
      by_contra seat
      obtain ⟨addr, serving⟩ := (agrees.up_iff wid).mp (Option.isSome_iff_ne_none.mpr seat)
      obtain ⟨listed, listed_get, -, listed_addr⟩ := (serving_of_workerId known_workers wid addr).mpr serving
      obtain ⟨full, full_get, rfl⟩ := get_of_roster_get listed_get
      cases full_get.symm.trans known_get
      exact agrees.addr_ne wid addr serving (listed_addr.symm.trans (addr_eq.trans nameless))
    have seats : SameSeats d { d with core := known, ids := detachedIds d sid wid, deferred } := by
      refine ⟨?_, rfl, rfl, serving_of_workerId known_workers⟩
      unfold detachedIds
      rw [unseated]
    refine ⟨_, seats.heard agrees ⟨known_inv, flagsOff_of_workerId flags known_entry known_workers, ?_⟩
      count_le, .inr ⟨err, failed_eq⟩⟩
    exact .single (Move.shed (d.stage ∅) known_inv (sheds_of_workerId known_entry known_workers)
      (List.Subset.refl d.clients) fun _ _ _ _ => rfl)

/-- One message of a session. -/
theorem workerMsgLocked_heard {msg : WorkerMsg} (inv : d.core.Inv) (flags : FlagsOff d.core ∅)
    (agrees : Agrees d) (fair : FairMsgs d sid [msg]) :
    ∃ d', Heard d d' sid [msg] ∧
      ((workerMsgLocked world cfg sid msg d = .ok () d' ∧
        ∀ addr, (∀ hel, msg = .hello hel → hel.addr = addr) → MaySpeak d sid addr → MaySpeak d' sid addr) ∨
        ∃ err, workerMsgLocked world cfg sid msg d = .error err d') := by
  have same : Heard d d sid [msg] := ⟨Does.refl inv flags, agrees, Nat.le_add_right _ _⟩
  cases msg with
  | hello hel =>
    obtain ⟨d', heard, ⟨said, speaks⟩ | failed⟩ := @onHello_heard world cfg d sid hel inv flags agrees fair
    · exact ⟨d', heard, .inl ⟨said, fun addr own _ => own hel rfl ▸ speaks⟩⟩
    · exact ⟨d', heard, .inr failed⟩
  | done done =>
    simp only [workerMsgLocked, bind_get_apply]
    cases is_wid : d.ids sid with
    | none => exact ⟨d, same, .inr ⟨_, rfl⟩⟩
    | some wid =>
      obtain ⟨d', ran, does, same_but, roster_eq, live_le⟩ :=
        onDone_eq trivial inv flags (agrees.idsBound sid wid is_wid) done
      have seats := sameSeats_of_calm same_but roster_eq ((samePeers_onDone wid done).ok ran)
      exact ⟨d', seats.heard agrees does live_le, .inl ⟨ran, fun _ _ => seats.maySpeak.mpr⟩⟩
  | load draining =>
    simp only [workerMsgLocked, bind_get_apply]
    cases is_wid : d.ids sid with
    | none => exact ⟨d, same, .inr ⟨_, rfl⟩⟩
    | some wid =>
      obtain ⟨wkr, get_eq⟩ := agrees.get is_wid
      obtain ⟨d', ran, does, ids_eq, workers_eq, roster_eq, live_le⟩ :=
        @onLoad_eq True d wid wkr inv get_eq draining
      have seats : SameSeats d d' := by
        refine ⟨ids_eq, workers_eq, ((samePeers_onLoad wid draining).ok ran).hellos_eq, fun other addr => ?_⟩
        rw [Serving, roster_eq, Serving]
        by_cases same_wid : wid = other
        · subst same_wid
          have wid_lt := lt_length (roster_get get_eq)
          simp [List.getElem?_set_self wid_lt, roster_get get_eq]
        · rw [List.getElem?_set_ne same_wid]
      exact ⟨d', seats.heard agrees does live_le, .inl ⟨ran, fun _ _ => seats.maySpeak.mpr⟩⟩
  | empty =>
    simp only [workerMsgLocked, bind_get_apply]
    cases is_wid : d.ids sid with
    | none => exact ⟨d, same, .inr ⟨_, rfl⟩⟩
    | some wid => exact ⟨d, same, .inl ⟨rfl, fun _ _ => id⟩⟩

/-- The messages of a session, up to the first that throws. -/
theorem workerMsgsLocked_heard {msgs : List WorkerMsg} (inv : d.core.Inv) (flags : FlagsOff d.core ∅)
    (agrees : Agrees d) (fair : FairMsgs d sid msgs) :
    Heard d (after (workerMsgsLocked world cfg sid msgs d)) sid msgs := by
  induction msgs generalizing d with
  | nil => exact ⟨Does.refl inv flags, agrees, le_rfl⟩
  | cons msg msgs ih =>
    have room := fair.room
    rw [map_cons, sum_cons] at room
    obtain ⟨mid, heard, outcome⟩ := @workerMsgLocked_heard world cfg d sid msg inv flags agrees
      ⟨fun hel mem => fair.speaks hel (mem_cons.mpr (.inl (mem_singleton.mp mem))),
        fun hel other mem other_mem => fair.same hel other
          (mem_cons.mpr (.inl (mem_singleton.mp mem)))
          (mem_cons.mpr (.inl (mem_singleton.mp other_mem))),
        by simp only [map_cons, List.map_nil, sum_cons, List.sum_nil]; omega⟩
    have live_le := heard.live_le
    simp only [map_cons, List.map_nil, sum_cons, List.sum_nil] at live_le
    rcases outcome with ⟨ran, speaks⟩ | ⟨err, failed⟩
    · have rest := ih heard.does.inv heard.does.flags heard.agrees
        ⟨fun hel mem => speaks hel.addr
            (fun first is_first => fair.same first hel (by simp [is_first]) (by simp [mem]))
            (fair.speaks hel (List.mem_cons_of_mem _ mem)),
          fun hel other mem other_mem => fair.same hel other (List.mem_cons_of_mem _ mem)
            (List.mem_cons_of_mem _ other_mem),
          by omega⟩
      rw [workerMsgsLocked, bind_of_ok ran]
      refine ⟨heard.does.trans rest.does, rest.agrees, rest.live_le.trans ?_⟩
      rw [map_cons, sum_cons]
      omega
    · rw [workerMsgsLocked, bind_of_error failed]
      refine ⟨heard.does, heard.agrees, ?_⟩
      rw [map_cons, sum_cons]
      exact live_le.trans (by omega)

/-- A dispatch leaves all sessions alone if all Expects are accepted. -/
theorem dispatchLocked_heard (accepts : world.AcceptsExpects) (inv : d.core.Inv)
    (flags : FlagsOff d.core ∅) (agrees : Agrees d) :
    ∃ d', dispatchLocked world d = .ok () d' ∧ Does True d d' ∧ Agrees d' := by
  obtain ⟨d', ran, d'_inv, moves, -⟩ := @dispatchLocked_eq True world d inv (.inl trivial) ∅
  obtain ⟨d'', ran', -, -, dispatched⟩ := @dispatchLocked_eq False world d inv (.inr ⟨accepts, agrees.seated⟩) ∅
  obtain rfl : d'' = d' := (EStateM.Result.ok.inj (ran'.symm.trans ran)).2
  obtain ⟨same, roster_eq⟩ := dispatched.same id
  exact ⟨d'', ran, ⟨d'_inv, dispatched.flags ∅ flags, moves⟩,
    (sameSeats_of_calm same roster_eq (framed_samePeers.dispatchLocked.ok ran)).agrees agrees⟩

/-- A batch of a session. -/
theorem workerMsgs_heard {msgs : List WorkerMsg} (accepts : world.AcceptsExpects) (inv : d.core.Inv)
    (flags : FlagsOff d.core ∅) (agrees : Agrees d) (fair : FairMsgs d sid msgs) :
    Does True d (after (workerMsgs world cfg sid msgs d)) ∧
      Agrees (after (workerMsgs world cfg sid msgs d)) := by
  cases msgs with
  | nil => exact ⟨Does.refl inv flags, agrees⟩
  | cons first msgs =>
    rw [workerMsgs, bind_get_apply]
    split_ifs
    · exact ⟨Does.refl inv flags, agrees⟩
    · have heard := @workerMsgsLocked_heard world cfg d sid (first :: msgs) inv flags agrees fair
      cases ran : workerMsgsLocked world cfg sid (first :: msgs) d with
      | error err failed =>
        rw [ran, after_error] at heard
        rw [bind_of_error ran]
        exact ⟨heard.does, heard.agrees⟩
      | ok _ mid =>
        rw [ran, after_ok] at heard
        obtain ⟨d', dispatched, does, agrees'⟩ := dispatchLocked_heard accepts heard.does.inv
          heard.does.flags heard.agrees
        rw [bind_of_ok ran, dispatched]
        exact ⟨heard.does.trans does, agrees'⟩

/-- A session that closes takes both sides back. -/
theorem workerGone_agrees (accepts : world.AcceptsExpects) (inv : d.core.Inv) (agrees : Agrees d) :
    ∃ d', workerGone world sid d = .ok () d' ∧ Agrees d' ∧ d'.ids sid = none := by
  cases is_wid : d.ids sid with
  | none =>
    refine ⟨d, ?_, agrees, is_wid⟩
    rw [workerGone, bind_get_apply, is_wid]
    rfl
  | some wid =>
    obtain ⟨wkr, get_eq⟩ := agrees.get is_wid
    obtain ⟨d', ran, -, frame⟩ := @workerGone_eq True world d sid wid wkr trivial inv is_wid get_eq
    obtain ⟨ids_eq, workers_eq, roster_eq⟩ := frame accepts agrees.seated
    have hellos_eq : d'.hellos = d.hellos := workerGone_hellos ran
    have seat := (agrees.ids_iff sid wid).mp is_wid
    have wid_lt := lt_length (roster_get get_eq)
    have down : ∀ addr, ¬ Serving d'.core wid addr := by
      rintro addr ⟨new, listed, up, -⟩
      rw [roster_eq, List.getElem?_set_self wid_lt] at listed
      cases listed
      cases up
    have elsewhere : ∀ other ≠ wid, ∀ addr, Serving d'.core other addr ↔ Serving d.core other addr :=
      fun other other_ne addr => by
        rw [Serving, roster_eq, List.getElem?_set_ne (Ne.symm other_ne), Serving]
    have self_id : d'.ids sid = none := by rw [ids_eq, update_self]
    refine ⟨d', ran, ⟨fun other otherWid => ?_, fun otherWid => ?_, fun other otherWid is_other => ?_,
      fun otherWid addr serving => ?_⟩, self_id⟩
    · rw [workers_eq, ids_eq]
      by_cases same_wid : otherWid = wid
      · rw [same_wid, AList.lookup_erase]
        refine ⟨fun is_other => ?_, by simp⟩
        by_cases same : other = sid
        · rw [same, update_self] at is_other
          cases is_other
        · rw [update_of_ne same, agrees.ids_iff, seat] at is_other
          exact absurd (Option.some.inj is_other).symm same
      · rw [AList.lookup_erase_ne same_wid, ← agrees.ids_iff]
        by_cases same : other = sid
        · rw [same, update_self, is_wid]
          exact ⟨by simp, fun own => absurd (Option.some.inj own).symm same_wid⟩
        · rw [update_of_ne same]
    · rw [workers_eq]
      by_cases same_wid : otherWid = wid
      · rw [same_wid, AList.lookup_erase]
        exact iff_of_false (by simp) (not_exists.mpr down)
      · rw [AList.lookup_erase_ne same_wid, agrees.up_iff]
        simp only [elsewhere otherWid same_wid]
    · have other_ne : other ≠ sid := by
        rintro rfl
        rw [self_id] at is_other
        cases is_other
      rw [ids_eq, update_of_ne other_ne] at is_other
      have wid_ne : otherWid ≠ wid := by
        rintro rfl
        exact other_ne (Option.some.inj (((agrees.ids_iff other otherWid).mp is_other).symm.trans seat))
      simpa only [elsewhere otherWid wid_ne, ← State.mem_hellos, hellos_eq] using
        agrees.named other otherWid is_other
    · by_cases same_wid : otherWid = wid
      · exact absurd (same_wid ▸ serving) (down addr)
      · exact agrees.addr_ne otherWid addr ((elsewhere otherWid same_wid addr).mp serving)

end Sections

/-! ## Calls -/

/-- A call in which every Expect is accepted and sessions speak for their own worker. -/
structure Fair (world : World) (d : State) (call : Call) : Prop where
  expects : world.AcceptsExpects
  msgs : ∀ sid msgs, call = .workerMsgs sid msgs → FairMsgs d sid msgs

section Calls

variable {world : World} {cfg : Config} {x : Dispatcher}

/-- What is left to do after the mutex is released does not matter here. -/
theorem Agrees.released {d : State} (agrees : Agrees d) : Agrees { d with deferred := [] } :=
  ⟨agrees.ids_iff, agrees.up_iff, agrees.named, agrees.addr_ne⟩

/-- A section that only talks, seen from the call that runs it. -/
theorem talks_after {m : LockedM Unit} (talks : Respects Talks m) (peers : Respects SamePeers m)
    (inv : x.state.core.Inv) (flags : FlagsOff x.state.core ∅) (known : Known x)
    (agrees : Agrees x.state) :
    Serves True x (after (withLock m x)) ∧ Agrees (after (withLock m x)).state := by
  have does : Does True x.state (after (m x.state)) := (talks x.state).does inv flags
  rw [after_withLock]
  refine ⟨serves_of_does known does (agrees.idsBound.of_samePeers does (peers x.state)) known.queued
    known.applied, ?_⟩
  exact ((sameSeats_of_talks (talks x.state) (peers x.state)).agrees agrees).released

/-- Every fair call, whether it throws or not, keeps sessions and table in agreement. -/
theorem Call.agrees {call : Call} (inv : x.state.core.Inv) (flags : FlagsOff x.state.core ∅)
    (known : Known x) (agrees : Agrees x.state) (allowed : call.allowed cfg x)
    (fair : Fair world x.state call) :
    Serves True x (after (call.perform world cfg x)) ∧
      Agrees (after (call.perform world cfg x)).state := by
  have bound := agrees.idsBound
  have returned : ∀ {x' : Dispatcher}, call.perform world cfg x = .ok () x' → Agrees x'.state →
      Serves True x (after (call.perform world cfg x)) ∧
        Agrees (after (call.perform world cfg x)).state := by
    intro x' ran agrees'
    rw [ran]
    exact ⟨call.serves inv flags bound known allowed (.inl trivial) ran, agrees'⟩
  rcases call.outcome world cfg x with ⟨x', ran, idles⟩ | ⟨m, runs, state_eq, -⟩
  · exact returned ran ((sameSeats_of_idles idles).agrees agrees)
  cases runs with
  | @chunk _ job found =>
    refine ⟨applyChunk_serves inv flags bound known (.inl trivial), ?_⟩
    obtain ⟨d, ran, -, calm⟩ := @onClientMsgs_eq False world cfg x.state job.client inv flags
      (known.applied job (List.mem_of_getElem? found)) (.inr ⟨fair.expects, agrees.seated⟩) (job.msgs.take chunk)
    obtain ⟨same, roster_eq⟩ := calm id
    have peers := @samePeers_onClientMsgs world cfg job.client (job.msgs.take chunk) x.state
    have ended : after (onClientMsgs world cfg job.client (job.msgs.take chunk) x.state) = d := by
      rcases ran with ran | ran <;> rw [ran] <;> rfl
    rw [ended] at state_eq peers
    rw [state_eq]
    exact ((sameSeats_of_calm same roster_eq peers).agrees agrees).released
  | clientGone client =>
    obtain ⟨d, left, -, ids_eq, workers_eq, roster_eq⟩ := @clientGone_eq True world _ inv flags client
    have seats : SameSeats x.state d :=
      ⟨ids_eq, workers_eq, clientGone_hellos left, serving_of_roster roster_eq⟩
    exact returned (withLock_of_ok left) (seats.agrees agrees).released
  | workerMsgs sid msgs =>
    obtain ⟨does, agrees'⟩ := @workerMsgs_heard world cfg x.state sid msgs fair.expects inv flags agrees
      (fair.msgs sid msgs rfl)
    rw [Call.perform, after_withLock]
    exact ⟨serves_of_does known does agrees'.idsBound known.queued known.applied, agrees'.released⟩
  | workerGone sid =>
    obtain ⟨d, left, agrees', -⟩ := @workerGone_agrees world x.state sid fair.expects inv agrees
    exact returned (withLock_of_ok left) agrees'.released
  | revokeOrphans => exact talks_after talks_revokeOrphans samePeers_revokeOrphans inv flags known agrees
  | restarting => exact talks_after talks_restarting framed_samePeers.restarting inv flags known agrees

end Calls

/-! ## Runs -/

/-- A fair call is made; it may throw. -/
def FairStep (cfg : Config) (x : Dispatcher) (calls : List Call) (x' : Dispatcher) : Prop :=
  ∃ call world, calls = [call] ∧ call.allowed cfg x ∧ Fair world x.state call ∧
    x' = after (call.perform world cfg x)

/-- The states of the runs in which all calls are fair. -/
abbrev FairReached (cfg : Config) : Dispatcher → List Call → Prop :=
  Run.Reached (fun x => ∃ config : Sched.Config, x = { state := { core := { cfg := config } } })
    (FairStep cfg)

theorem agrees_start (config : Sched.Config) : Agrees { core := { cfg := config } } where
  ids_iff _ _ := ⟨nofun, nofun⟩
  up_iff wid := ⟨nofun, by simp [Serving, Core.roster]⟩
  named := nofun
  addr_ne wid addr serving := by simp [Serving, Core.roster] at serving

theorem FairReached.agrees {cfg : Config} {x : Dispatcher} {calls : List Call}
    (fair : FairReached cfg x calls) :
    (∃ config, Serves True { state := { core := { cfg := config } } } x) ∧ Agrees x.state := by
  refine fair.state_invariant
    (P := fun x => (∃ config, Serves True { state := { core := { cfg := config } } } x) ∧ Agrees x.state)
    ?_ ?_
  · rintro _ ⟨config, rfl⟩
    exact ⟨⟨config, serves_start config⟩, agrees_start config⟩
  · rintro x _ x' ⟨⟨config, serves⟩, agrees⟩ ⟨call, world, -, allowed, fair, rfl⟩
    obtain ⟨served, agrees'⟩ := call.agrees serves.does.inv serves.does.flags serves.known agrees allowed fair
    exact ⟨⟨config, serves.trans served⟩, agrees'⟩

/-- A session that a newer one replaced has no number. -/
theorem FairReached.replaced {cfg : Config} {x : Dispatcher} {calls : List Call}
    (fair : FairReached cfg x calls) {sid : SessionId} {hel : Hello}
    (said : .hello sid hel ∈ x.state.log) (newer : lastHello x.state.log hel.addr ≠ some sid) :
    x.state.ids sid = none := by
  obtain ⟨⟨config, serves⟩, agrees⟩ := fair.agrees
  have truth := moves_truth serves.does.moves (truth_start config)
  cases is_wid : x.state.ids sid with
  | none => rfl
  | some wid =>
    obtain ⟨addr, ⟨wkr, listed, up, rfl⟩, -, only⟩ := agrees.named sid wid is_wid
    refine absurd ?_ newer
    rw [only hel said]
    exact truth.session wid wkr sid listed up ((agrees.ids_iff sid wid).mp is_wid)

/-- In runs of fair calls sessions and table agree after every call: what a replaced session sends
or does leaves the core alone, and of a session that closes nothing is left in the table. -/
theorem sessions_agree {cfg : Config} {x : Dispatcher} {calls : List Call} (fair : FairReached cfg x calls) :
    (∀ sid wid, x.state.ids sid = some wid ↔ x.state.workers.lookup wid = some sid) ∧
    (∀ wid : WorkerId, wid ∈ x.state.workers ↔
      ∃ wkr : Worker, x.state.core.workers[wid]? = some wkr ∧ wkr.up = true) ∧
    (∀ sid hel, .hello sid hel ∈ x.state.log → lastHello x.state.log hel.addr ≠ some sid → ∀ world,
      (after (workerGone world sid x.state)).core = x.state.core ∧
      ∀ msgs, FairMsgs x.state sid msgs → (after (workerMsgs world cfg sid msgs x.state)).core = x.state.core) ∧
    ∀ world sid wid, world.AcceptsExpects →
      (after (workerGone world sid x.state)).workers.lookup wid ≠ some sid := by
  obtain ⟨⟨config, serves⟩, agrees⟩ := fair.agrees
  refine ⟨agrees.ids_iff, fun wid => ?_, fun sid hel said newer world => ?_,
    fun world sid wid accepts seat => ?_⟩
  · rw [← AList.lookup_isSome, agrees.up_iff]
    constructor
    · rintro ⟨addr, wkr, listed, up, -⟩
      obtain ⟨full, get_eq, rfl⟩ := get_of_roster_get listed
      exact ⟨full, get_eq, up⟩
    · rintro ⟨wkr, get_eq, up⟩
      exact ⟨wkr.addr, _, roster_get get_eq, up, rfl⟩
  · have unregistered := fair.replaced said newer
    constructor
    · rw [workerGone, bind_get_apply, unregistered]
      rfl
    · intro msgs fair_msgs
      cases msgs with
      | nil => rfl
      | cons first msgs =>
        have not_hello : isHello first = false := by
          cases first with
          | hello hello =>
            rcases fair_msgs.speaks hello List.mem_cons_self with silent | ⟨wid, is_wid, -⟩
            · exact absurd said (silent hel)
            · cases unregistered.symm.trans is_wid
          | done | load | empty => rfl
        rw [workerMsgs, bind_get_apply, if_pos ⟨unregistered, not_hello⟩]
        rfl
  · obtain ⟨d', ran, agrees', unregistered⟩ :=
      @workerGone_agrees world x.state sid accepts serves.does.inv agrees
    rw [ran, after_ok, ← agrees'.ids_iff, unregistered] at seat
    cases seat

/-- Surroundings in which one session accepts nothing. -/
def World.deaf (sid : SessionId) : World := { World.obliging with delivers := fun _ other _ => other ≠ sid }

/-- A session does not accept an Expect; its worker opens a new one; the old one closes. -/
def staleClose : List (World × Call) :=
  [(.obliging, .workerMsgs 0 [.hello { addr := "w0", systems := ["x86_64-linux"], maxJobs := 1 }]),
    (.obliging, .connectClient),
    (.obliging, .clientMsgs 1 [.want { drvPath := "a.drv" }] fun _ => none),
    (.deaf 0, .applyChunk 0),
    (.obliging, .workerMsgs 1 [.hello { addr := "w0", systems := ["x86_64-linux"], maxJobs := 1 }]),
    (.obliging, .workerGone 0)]

/-- The old session takes the worker down under the new one, which keeps its number. -/
theorem staleClose_downs_worker :
    ∃ x wkr, Reached uncached x (staleClose.map Prod.snd) ∧ lastHello x.state.log "w0" = some 1 ∧
      x.state.ids 1 = some 0 ∧ x.state.workers.lookup 0 = none ∧
      x.state.core.workers[0]? = some wkr ∧ wkr.up = false := by
  have ends : (runAll uncached staleClose {}).bind (fun x =>
      (x.state.core.workers[0]?).map fun wkr =>
        (lastHello x.state.log "w0", x.state.ids 1, x.state.workers.lookup 0, wkr.up)) =
      some (some 1, some 0, none, false) := by
    decide +kernel
  obtain ⟨x, ran, found⟩ := Option.bind_eq_some_iff.mp ends
  obtain ⟨wkr, get_eq, shape⟩ := Option.map_eq_some_iff.mp found
  simp only [Prod.mk.injEq] at shape
  obtain ⟨last, is_wid, unseated, down⟩ := shape
  exact ⟨x, wkr, Reached.runAll (.start ⟨{}, rfl⟩) ran, last, is_wid, unseated, get_eq, down⟩

/-- The first Hello of a session is fair if there is room. -/
theorem fairMsgs_first {d : State} {sid : SessionId} {hel : Hello} (silent : ∀ hel, .hello sid hel ∉ d.log)
    (room : d.core.liveCount + hel.running.length ≤ Core.maxEntries) : FairMsgs d sid [.hello hel] where
  speaks _ _ := .inl silent
  same _ _ mem other_mem := by
    cases mem_singleton.mp mem
    cases mem_singleton.mp other_mem
    rfl
  room := by simpa [reportCount] using room

/-- A worker that opens a session twice. -/
def twiceHello : Hello := { addr := "w0", systems := ["x86_64-linux"], maxJobs := 1 }

/-- The Hello of a session, made as a call. -/
def sayTwice (sid : SessionId) (x : Dispatcher) : Dispatcher :=
  after (Call.perform .obliging uncached (.workerMsgs sid [.hello twiceHello]) x)

/-- The first session of a worker that opened a second one cannot touch the core any more. -/
theorem sessions_agree_twice :
    ∃ x, FairReached uncached x [.workerMsgs 0 [.hello twiceHello], .workerMsgs 1 [.hello twiceHello]] ∧
      x.state.workers.lookup 0 = some 1 ∧
      (after (workerGone .obliging 0 x.state)).core = x.state.core ∧
      (after (workerMsgs .obliging uncached 0 [.load true] x.state)).core = x.state.core := by
  have first : (sayTwice 0 {}).state.log = [.hello 0 twiceHello] ∧
      (sayTwice 0 {}).state.core.liveCount = 0 := by
    decide +kernel
  have second : (sayTwice 1 (sayTwice 0 {})).state.log = [.hello 1 twiceHello, .hello 0 twiceHello] ∧
      (sayTwice 1 (sayTwice 0 {})).state.core.liveCount = 0 ∧
      (sayTwice 1 (sayTwice 0 {})).state.workers.lookup 0 = some 1 := by
    decide +kernel
  have accepts : World.obliging.AcceptsExpects := fun _ _ _ _ => rfl
  have once : FairReached uncached (sayTwice 0 {}) ([] ++ [.workerMsgs 0 [.hello twiceHello]]) := by
    refine .step (.start ⟨{}, rfl⟩) ⟨_, .obliging, rfl, rfl, ⟨accepts, ?_⟩, rfl⟩
    rintro sid msgs ⟨⟩
    exact fairMsgs_first nofun (by decide)
  have fair : FairReached uncached (sayTwice 1 (sayTwice 0 {}))
      ([.workerMsgs 0 [.hello twiceHello]] ++ [.workerMsgs 1 [.hello twiceHello]]) := by
    refine .step once ⟨_, .obliging, rfl, rfl, ⟨accepts, ?_⟩, rfl⟩
    rintro sid msgs ⟨⟩
    refine fairMsgs_first (by simp [first.1]) ?_
    rw [first.2]
    decide
  have replaced := (sessions_agree fair).2.2.1 0 twiceHello (by simp [second.1])
    (by simp [second.1, lastHello, helloIn, twiceHello]) .obliging
  refine ⟨_, fair, second.2.2, replaced.1, replaced.2 [.load true] ⟨by simp, by simp, ?_⟩⟩
  rw [second.2.1]
  decide

end NixGrpcStore.Dispatcher
