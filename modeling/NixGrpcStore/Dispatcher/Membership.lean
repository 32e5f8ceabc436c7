import NixGrpcStore.Dispatcher.Leaving
import NixGrpcStore.Dispatcher.Waning

/-!
# What the balancer is told

The membership is published anew wherever a worker comes up, goes down or changes its mind about new
work, and whoever watches it is woken.  So it is what the core says after every call, also after one
that threw, as long as a Hello that fails does so before the core has changed: the table has room for
what it reports.  A worker that lists a system twice would be published twice.
-/

namespace NixGrpcStore.Dispatcher

open Sched Remote StateExcept

/-- The workers that are up and list a system, as the balancer should see them. -/
def membersIn (s : Core) (system : String) : List Member :=
  (s.workers.filter fun wkr => wkr.up && wkr.systems.contains system).map fun wkr =>
    { addr := wkr.addr, draining := !wkr.takesWork }

/-- No worker lists a system twice. -/
def Distinct (s : Core) : Prop := ∀ wkr ∈ s.workers, wkr.systems.Nodup

theorem membersOf_eq {workers : List Worker} (distinct : ∀ wkr ∈ workers, wkr.systems.Nodup)
    (system : String) :
    membersOf workers system =
      (workers.filter fun wkr => wkr.up && wkr.systems.contains system).map fun wkr =>
        { addr := wkr.addr, draining := !wkr.takesWork } := by
  induction workers with
  | nil => rfl
  | cons wkr workers ih =>
    have rest := ih fun other mem => distinct other (List.mem_cons_of_mem _ mem)
    have once := distinct wkr List.mem_cons_self
    have listed : wkr.systems.filter (· = system) = if system ∈ wkr.systems then [system] else [] := by
      rw [List.filter_eq]
      split_ifs with mem
      · rw [List.count_eq_one_of_mem once mem]
        rfl
      · rw [List.count_eq_zero_of_not_mem mem]
        rfl
    rw [membersOf, List.flatMap_cons, ← membersOf, rest, listed]
    by_cases up : wkr.up = true
    · by_cases mem : system ∈ wkr.systems
      · simp [up, mem]
      · simp [up, mem]
    · simp [up]

theorem membersOf_roster (s : Core) : membersOf s.workers = membersOf s.roster := by
  funext system
  simp [membersOf, Core.roster, List.flatMap_map, Worker.takesWork]

theorem distinct_iff_roster (s : Core) : Distinct s ↔ ∀ wkr ∈ s.roster, wkr.systems.Nodup := by
  simp [Distinct, Core.roster]

/-! ## Sections -/

/-- The books are kept, and no worker came up, went down or changed its mind. -/
structure Steady (spares : Prop) (s s' : Core) : Prop where
  inv : s'.Inv
  roster_eq : s'.roster = s.roster
  live_le : spares → s'.liveCount ≤ s.liveCount

theorem Steady.refl {spares : Prop} {s : Core} (inv : s.Inv) :
    Steady spares s s := ⟨inv, rfl, fun _ => le_rfl⟩

section Steady

variable {spares : Prop} {s : Core}

/-- An operation that lets entries wane and leaves the roster alone. -/
theorem steady_of_waning {α : Type} {m : CoreM α}
    (waning : Respects (Waning (fun _ _ => True) fun _ => True) m)
    (roster_eq : (after (m s)).roster = s.roster) (inv : s.Inv) : Steady spares s (after (m s)) :=
  ⟨(waning s inv).inv, roster_eq, fun _ => (waning s inv).live_le⟩

theorem steady_entryAt (drv : DrvId) (inv : s.Inv) : Steady spares s (after (Core.entryAt drv s)) := by
  rw [after_entryAt]
  exact .refl inv

theorem steady_workerAt (wid : WorkerId) (inv : s.Inv) : Steady spares s (after (Core.workerAt wid s)) := by
  rw [after_workerAt]
  exact .refl inv

theorem steady_placeabilityChanges (inv : s.Inv) : Steady spares s (after (Core.placeabilityChanges s)) := by
  refine steady_of_waning waning_placeabilityChanges ?_ inv
  obtain ⟨changed, s', ran, -, same, -⟩ := inv.placeabilityChanges
  rw [ran, after_ok, same]
  rfl

theorem steady_dispatch (order : VisitOrder) (inv : s.Inv) :
    Steady spares s (after (Core.dispatch order s)) := by
  refine steady_of_waning (waning_dispatch order) ?_ inv
  obtain ⟨out, s', ran, -, places⟩ := inv.dispatch_places order
  rw [ran]
  exact places.roster_eq

theorem steady_markUnplaceable (drv : DrvId) (flag : Bool) (inv : s.Inv) :
    Steady spares s (after (Core.markUnplaceable drv flag s)) := by
  refine steady_of_waning (waning_markUnplaceable drv flag) ?_ inv
  unfold Core.markUnplaceable Core.entryAt
  cases slot_eq : s.entries[drv]? with
  | none => simp [bind_apply, slot_eq]
  | some slot => cases slot <;> simp [bind_apply, slot_eq, Core.setEntry, Core.roster]

theorem steady_done (wid : WorkerId) (path : String) (outputs : List (String × ℕ)) (inv : s.Inv) :
    Steady spares s (after (Core.done wid path outputs s)) := by
  refine steady_of_waning (waning_done wid path outputs) ?_ inv
  cases get_eq : s.workers[wid]? with
  | none => rw [Core.after_done_of_none get_eq]
  | some wkr =>
    obtain ⟨s', ran, -, -, keeps⟩ := inv.done get_eq path outputs
    rw [ran]
    exact keeps.roster

theorem steady_giveBack (wid : WorkerId) (path : String) (inv : s.Inv) :
    Steady spares s (after (Core.giveBack wid path s)) := by
  refine steady_of_waning (waning_giveBack wid path) ?_ inv
  cases get_eq : s.workers[wid]? with
  | none => rw [Core.after_giveBack_of_none get_eq]
  | some wkr =>
    obtain ⟨s', ran, -, -, keeps⟩ := inv.giveBack get_eq path
    rw [ran]
    exact keeps.roster

theorem steady_want (cfg : Config) (client : ClientId) (want : Want) (nowMs : ℚ) (inv : s.Inv) :
    Steady False s (after (Core.want client (wantInfo cfg want) nowMs s)) := by
  have named : (wantInfo cfg want).system ≠ "" := systemFor_ne cfg want.system
  rcases inv.want client named nowMs with ⟨drv, s', ran, s'_inv, wanted⟩ | ⟨full, -⟩
  · rw [ran]
    refine ⟨s'_inv, ?_, False.elim⟩
    rw [after_ok, Core.roster, wanted.workers_eq]
    rfl
  · rw [full]
    exact .refl inv

theorem steady_cancel (client : ClientId) (drvPath : String) (inv : s.Inv) :
    Steady False s (after (Core.cancel client drvPath s)) := by
  obtain ⟨revoke, s', ran, s'_inv, -, keeps, -⟩ := inv.cancel client drvPath
  rw [ran]
  exact ⟨s'_inv, keeps.roster, False.elim⟩

theorem steady_clientGone (client : ClientId) (inv : s.Inv) :
    Steady False s (after (Core.clientGone client s)) := by
  obtain ⟨s', revokes, ran, s'_inv, -, -, -, workers_eq, -⟩ := inv.clientGone client
  rw [ran]
  refine ⟨s'_inv, ?_, False.elim⟩
  rw [after_ok, Core.roster, workers_eq]
  rfl

end Steady

/-- What is published is still what the core says, and watchers are woken if it has changed.  Where
that is asked for, no worker lists a system twice now, and no entry was added. -/
structure Tells (spares once : Prop) (d d' : State) : Prop where
  inv : d'.core.Inv
  distinct : once → Distinct d.core → Distinct d'.core
  live_le : spares → d'.core.liveCount ≤ d.core.liveCount
  published : d.published = membersOf d.core.workers → d'.published = membersOf d'.core.workers
  woken : d'.published ≠ d.published → ∀ watcher ∈ d.watchers, .wake watcher ∈ d'.deferred
  watchers_eq : d'.watchers = d.watchers
  deferred_sub : d.deferred ⊆ d'.deferred

/-- A section tells the balancer, if it finds the books kept. -/
def Publishes (spares : Prop) (d d' : State) : Prop := d.core.Inv → Tells spares True d d'

section Publishes

variable {spares once : Prop} {world : World} {cfg : Config} {d d' d'' : State} {wid : WorkerId}

theorem Tells.trans (first : Tells spares once d d') (second : Tells spares once d' d'') :
    Tells spares once d d'' where
  inv := second.inv
  distinct named distinct := second.distinct named (first.distinct named distinct)
  live_le spared := (second.live_le spared).trans (first.live_le spared)
  published published := second.published (first.published published)
  woken := by
    intro changed watcher mem
    by_cases later : d''.published = d'.published
    · exact second.deferred_sub (first.woken (fun same => changed (later.trans same)) watcher mem)
    · exact second.woken later watcher (first.watchers_eq ▸ mem)
  watchers_eq := second.watchers_eq.trans first.watchers_eq
  deferred_sub := List.Subset.trans first.deferred_sub second.deferred_sub

theorem Tells.spare (tells : Tells True True d d') : Tells spares once d d' :=
  ⟨tells.inv, fun _ => tells.distinct trivial, fun _ => tells.live_le trivial, tells.published,
    tells.woken, tells.watchers_eq,
    tells.deferred_sub⟩

/-- A section that does not touch what is published. -/
theorem tells_of_steady (steady : Steady spares d.core d'.core)
    (published_eq : d'.published = d.published) (watchers_eq : d'.watchers = d.watchers)
    (deferred_sub : d.deferred ⊆ d'.deferred) : Tells spares once d d' where
  inv := steady.inv
  distinct _ distinct := by
    rw [distinct_iff_roster] at distinct ⊢
    rwa [steady.roster_eq]
  live_le := steady.live_le
  published published := by
    rw [published_eq, published, membersOf_roster, membersOf_roster, steady.roster_eq]
  woken changed := absurd published_eq changed
  watchers_eq := watchers_eq
  deferred_sub := deferred_sub

instance : Std.Refl (Publishes spares) where
  refl _ inv := tells_of_steady (.refl inv) rfl rfl (List.Subset.refl _)

instance : IsTrans State (Publishes spares) where
  trans _ _ _ first second inv := (first inv).trans (second (first inv).inv)

theorem publishes_onCore {α : Type} {m : CoreM α}
    (steady : ∀ s : Core, s.Inv → Steady spares s (after (m s))) :
    Respects (Publishes spares) (onCore m) := by
  intro d inv
  rw [after_onCore]
  exact tells_of_steady (steady d.core inv) rfl rfl (List.Subset.refl _)

theorem publishes_modify {change : State → State} (core_eq : ∀ d, (change d).core = d.core)
    (published_eq : ∀ d, (change d).published = d.published)
    (watchers_eq : ∀ d, (change d).watchers = d.watchers)
    (deferred_sub : ∀ d, d.deferred ⊆ (change d).deferred) :
    Respects (Publishes spares) (modify change : LockedM PUnit) := by
  intro d inv
  refine tells_of_steady ?_ (published_eq d) (watchers_eq d) (deferred_sub d)
  rw [modify_apply, after_ok, core_eq]
  exact .refl inv

theorem publishes_note (event : Event) : Respects (Publishes spares) (note event) :=
  publishes_modify (fun _ => rfl) (fun _ => rfl) (fun _ => rfl) fun _ => List.Subset.refl _

theorem spoken_publishes : Spoken (Publishes spares) where
  entryAt drv := publishes_onCore fun _ => steady_entryAt drv
  workerAt wid := publishes_onCore fun _ => steady_workerAt wid
  note event _ := publishes_note event

/-! ## Publishing anew -/

/-- Whatever happened before, after the membership was published it is what the core says. -/
theorem tells_anew (inv : d'.core.Inv) (distinct : once → Distinct d.core → Distinct d'.core)
    (live_le : spares → d'.core.liveCount ≤ d.core.liveCount) (watchers_eq : d'.watchers = d.watchers)
    (deferred_sub : d.deferred ⊆ d'.deferred) : Tells spares once d (after (membershipChangedLocked d')) where
  inv := inv
  distinct := distinct
  live_le := live_le
  published _ := rfl
  woken _ watcher mem := by
    refine List.mem_append_left _ (List.mem_reverse.mpr (List.mem_map_of_mem ?_))
    exact watchers_eq ▸ mem
  watchers_eq := watchers_eq
  deferred_sub _ mem := List.mem_append_right _ (deferred_sub mem)

/-- Only one worker changes, and it lists what it listed. -/
structure Alters (wid : WorkerId) (wkr : Worker) (s s' : Core) : Prop where
  inv : s'.Inv
  workers_eq : ∃ new : Worker, s'.workers = s.workers.set wid new ∧ new.systems = wkr.systems
  live_le : s'.liveCount ≤ s.liveCount

theorem Alters.distinct {wkr : Worker} {s s' : Core} (alters : Alters wid wkr s s')
    (get_eq : s.workers[wid]? = some wkr) (distinct : Distinct s) : Distinct s' := by
  obtain ⟨new, workers_eq, systems_eq⟩ := alters.workers_eq
  intro other mem
  rw [workers_eq] at mem
  rcases List.mem_or_eq_of_mem_set mem with old | rfl
  · exact distinct other old
  · exact systems_eq ▸ distinct wkr (List.mem_of_getElem? get_eq)

/-- A worker is altered, and the membership published before anything else is done. -/
theorem publishes_alter {m : CoreM Unit} {rest : LockedM Unit}
    (unknown : ∀ s : Core, s.workers[wid]? = none → ∃ err, m s = .error err s)
    (alters : ∀ (s : Core) (wkr : Worker), s.Inv → s.workers[wid]? = some wkr →
      ∃ s', m s = .ok () s' ∧ Alters wid wkr s s')
    (later : ∀ d, ∃ d', d'.core = d.core ∧ d'.watchers = d.watchers ∧ d'.deferred = d.deferred ∧
      Publishes spares (after (membershipChangedLocked d')) (after (rest d))) :
    Respects (Publishes spares) (onCore m >>= fun _ => rest) := by
  intro d inv
  cases get_eq : d.core.workers[wid]? with
  | none =>
    obtain ⟨err, failed⟩ := unknown d.core get_eq
    have threw : onCore m d = .error err d := by simp [onCore, onPart, failed]
    rw [bind_of_error threw]
    exact tells_of_steady (.refl inv) rfl rfl (List.Subset.refl _)
  | some wkr =>
    obtain ⟨s', ran, altered⟩ := alters d.core wkr inv get_eq
    obtain ⟨mid, core_eq, watchers_eq, deferred_eq, publishes⟩ := later { d with core := s' }
    rw [bind_of_ok (onCore_of_ok ran)]
    have mid_inv : mid.core.Inv := core_eq ▸ altered.inv
    refine (tells_anew (d := d) mid_inv ?_ ?_ watchers_eq ?_).trans (publishes mid_inv)
    · exact fun _ distinct => core_eq ▸ altered.distinct get_eq distinct
    · exact fun _ => core_eq ▸ altered.live_le
    · exact fun _ mem => deferred_eq ▸ mem

theorem bind_membershipChangedLocked (rest : Unit → LockedM Unit) (d : State) :
    (membershipChangedLocked >>= rest) d = rest () (after (membershipChangedLocked d)) := rfl

theorem workerGone_alters (s : Core) (wkr : Worker) (inv : s.Inv) (get_eq : s.workers[wid]? = some wkr) :
    ∃ s', Core.workerGone wid s = .ok () s' ∧ Alters wid wkr s s' := by
  obtain ⟨s', ran, s'_inv, entry_eq, workers_eq, -⟩ := inv.workerGone get_eq
  exact ⟨s', ran, s'_inv, ⟨_, workers_eq, rfl⟩, Core.liveCount_le_of_bind entry_eq⟩

theorem setDraining_alters (draining : Bool) (s : Core) (wkr : Worker) (inv : s.Inv)
    (get_eq : s.workers[wid]? = some wkr) :
    ∃ s', Core.setDraining wid draining s = .ok () s' ∧ Alters wid wkr s s' := by
  obtain ⟨s', ran, s'_inv, entry_eq, workers_eq, -⟩ := inv.setDraining get_eq draining
  exact ⟨s', ran, s'_inv, ⟨_, workers_eq, rfl⟩, Core.liveCount_le fun drv live => by rwa [← entry_eq]⟩

theorem delivering_publishes : Delivering (Publishes spares) := by
  have placeability : Respects (Publishes spares) (onCore Core.placeabilityChanges) :=
    publishes_onCore fun _ => steady_placeabilityChanges
  refine ⟨spoken_publishes, placeability, fun order => publishes_onCore fun _ => steady_dispatch order,
    fun drv flag => publishes_onCore fun _ => steady_markUnplaceable drv flag, fun wid => ?_⟩
  · refine publishes_alter ?_ workerGone_alters fun d => ⟨d, rfl, rfl, rfl, ?_⟩
    · exact fun s get_eq => ⟨_, bind_of_error (Core.workerAt_of_none get_eq) _⟩
    · rw [bind_membershipChangedLocked]
      refine Respects.bind (R := Publishes spares) ?_ (fun _ => placeability.bind spoken_publishes.tellFlags) _
      exact publishes_modify (fun _ => rfl) (fun _ => rfl) (fun _ => rfl) fun _ => List.Subset.refl _

theorem publishes_onLoad (wid : WorkerId) (draining : Bool) :
    Respects (Publishes True) (onLoad wid draining) := by
  refine publishes_alter ?_ (setDraining_alters draining) fun d => ⟨d, rfl, rfl, rfl, ?_⟩
  · exact fun s get_eq => ⟨_, bind_of_error (Core.workerAt_of_none get_eq) _⟩
  · rw [bind_membershipChangedLocked]
    exact delivering_publishes.placeabilityChangedLocked _

theorem publishes_workerGone (sid : SessionId) : Respects (Publishes True) (workerGone world sid) := by
  refine respects_get.bind fun d => ?_
  cases d.ids sid with
  | none => exact respects_pure ()
  | some wid =>
    refine publishes_alter ?_ workerGone_alters fun d =>
      ⟨{ d with workers := d.workers.erase wid }, rfl, rfl, rfl, ?_⟩
    · exact fun s get_eq => ⟨_, bind_of_error (Core.workerAt_of_none get_eq) _⟩
    · rw [bind_modify_apply, bind_membershipChangedLocked]
      refine (delivering_publishes.dispatchLocked.bind fun _ =>
        delivering_publishes.placeabilityChangedLocked.bind fun _ => ?_) _
      exact publishes_modify (fun _ => rfl) (fun _ => rfl) (fun _ => rfl) fun _ => List.Subset.refl _

theorem publishes_onDone (wid : WorkerId) (done : Done) : Respects (Publishes True) (onDone wid done) :=
  respects_onDone (fun outputs => publishes_onCore fun _ => steady_done wid done.drvPath outputs)
    (publishes_onCore fun _ => steady_giveBack wid done.drvPath) delivering_publishes.placeabilityChangedLocked

/-! ## Clients -/

theorem publishes_onWant (client : ClientId) (want : Want) (cached : Bool) :
    Respects (Publishes False) (onWant world cfg client want cached) :=
  delivering_publishes.onWant client want cached
    (fun nowMs => publishes_onCore fun _ => steady_want cfg client want nowMs) fun _ => publishes_note _

theorem publishes_onCancel (client : ClientId) (drvPath : String) :
    Respects (Publishes False) (onCancel world client drvPath) :=
  spoken_publishes.onCancel client drvPath (publishes_onCore fun _ => steady_cancel client drvPath) (publishes_note _)

theorem publishes_onClientMsgs (client : ClientId) (msgs : List (ClientMsg × Bool)) :
    Respects (Publishes False) (onClientMsgs world cfg client msgs) :=
  respects_onClientMsgs (publishes_onWant client) fun path _ _ => publishes_onCancel client path

theorem publishes_clientGone (client : ClientId) : Respects (Publishes False) (clientGone world client) := by
  refine Respects.bind ?_ fun _ => Respects.bind (publishes_onCore fun _ => steady_clientGone client)
    (respects_addOrphans spoken_publishes.entryAt fun _ => ?_)
  · exact publishes_modify (fun _ => rfl) (fun _ => rfl) (fun _ => rfl) fun _ => List.Subset.refl _
  · exact publishes_modify (fun _ => rfl) (fun _ => rfl) (fun _ => rfl) fun _ => List.Subset.refl _

theorem publishes_revokeOrphans : Respects (Publishes True) (revokeOrphans world) := by
  refine respects_get.bind fun d => (spoken_publishes.revokeDue _ _).bind fun rest => ?_
  exact publishes_modify (fun _ => rfl) (fun _ => rfl) (fun _ => rfl) fun _ => List.Subset.refl _

theorem publishes_restarting : Respects (Publishes True) (restarting world) := by
  refine Respects.bind ?_ fun _ => Respects.bind ?_ fun _ => respects_get.bind fun d =>
    (spoken_publishes.sendAll _ _).bind fun _ => spoken_publishes.sendSessions _ _
  · exact publishes_modify (fun _ => rfl) (fun _ => rfl) (fun _ => rfl) fun _ => List.Subset.refl _
  · exact publishes_modify (fun _ => rfl) (fun _ => rfl) (fun _ => rfl) fun _ => List.subset_append_right _ _

/-! ## A Hello -/

theorem systemsOf_eq_map {names systems : List String} (named : systemsOf cfg names d = .ok systems d') :
    systems = names.map cfg.systemFor := by
  induction names generalizing systems d' with
  | nil =>
    cases named
    rfl
  | cons name names ih =>
    unfold systemsOf at named
    split_ifs at named
    · cases named
    · obtain ⟨rest, mid, rest_named, ok⟩ := bind_eq_ok.mp named
      cases ok
      rw [ih rest_named, List.map_cons]

/-- A worker that is registered anew is not up yet. -/
theorem publishes_workerId (addr : String) : Respects (Publishes True) (onCore (Core.workerId addr)) := by
  intro d inv
  obtain ⟨wid, wkr, s', ran, s'_inv, -, -, entry_eq, -, -, -, workers_eq⟩ := inv.workerId addr
  have live_le : s'.liveCount ≤ d.core.liveCount := Core.liveCount_le fun drv live => by rwa [← entry_eq]
  rw [onCore_of_ok ran]
  refine ⟨s'_inv, fun _ distinct => ?_, fun _ => live_le, fun published => ?_, fun changed => absurd rfl changed, rfl,
    List.Subset.refl _⟩
  · rcases workers_eq with same | ⟨-, added, -⟩
    · intro wkr mem
      rw [after_ok, same] at mem
      exact distinct wkr mem
    · intro wkr mem
      rw [after_ok, added] at mem
      rcases List.mem_append.mp mem with old | new
      · exact distinct wkr old
      · rw [List.mem_singleton.mp new]
        exact List.nodup_nil
  · rcases workers_eq with same | ⟨-, added, -⟩
    · rw [after_ok, same]
      exact published
    · rw [after_ok, added]
      refine published.trans (funext fun system => ?_)
      simp [membersOf]

theorem publishes_detachOld (sid : SessionId) (wid : WorkerId) :
    Respects (Publishes True) (detachOld sid wid) := by
  refine respects_get.bind fun d => ?_
  cases d.workers.lookup wid with
  | none => exact respects_pure ()
  | some old =>
    dsimp only
    split_ifs
    · exact respects_pure ()
    · exact publishes_modify (fun _ => rfl) (fun _ => rfl) (fun _ => rfl) fun _ => List.subset_cons_self _ _

/-- The derivations that a message may add to the table. -/
def roomFor : WorkerMsg → ℕ
  | .hello hel => hel.running.length
  | _ => 0

/-- A Hello names each system once. -/
def NamesOnce (cfg : Config) : WorkerMsg → Prop
  | .hello hel => (hel.systems.map cfg.systemFor).Nodup
  | _ => True

theorem greeted_distinct {s s' : Core} {info : HelloInfo} {superseded : List Superseded}
    (greeted : Core.Greeted s s' info wid superseded) (once : info.systems.Nodup) (distinct : Distinct s) :
    Distinct s' := by
  rw [distinct_iff_roster] at distinct ⊢
  intro wkr mem
  obtain ⟨other, get_eq⟩ := List.getElem?_of_mem mem
  by_cases is_wid : other = wid
  · rw [is_wid, greeted.roster_self] at get_eq
    cases get_eq
    exact once
  · rw [greeted.roster_other other is_wid] at get_eq
    exact distinct wkr (List.mem_of_getElem? get_eq)

/-- A worker was greeted by the core and has its session. -/
def seated (d : State) (s' : Core) (sid : SessionId) (hel : Hello) (wid : WorkerId) : State :=
  { d with
    core := s'
    ids := Function.update d.ids sid (some wid)
    workers := d.workers.insert wid sid
    log := .hello sid hel :: d.log }

/-- A Hello that finds room for what it reports fails before it changes the core, or not at all. -/
theorem onHello_after (inv : d.core.Inv) {sid : SessionId} {hel : Hello}
    (room : d.core.liveCount + hel.running.length ≤ Core.maxEntries) :
    after (onHello world cfg sid hel d) = d ∨
    ∃ slot known mid, Core.workerId hel.addr d.core = .ok slot known ∧
      detachOld sid slot { d with core := known } = .ok () mid ∧ mid.core = known ∧
      (after (onHello world cfg sid hel d) = mid ∨
        ∃ wid superseded s',
          Core.hello (helloInfo hel (hel.systems.map cfg.systemFor)) known = .ok (wid, superseded) s' ∧
          after (onHello world cfg sid hel d) = after ((do supersedeAll world superseded; placeabilityChangedLocked)
            (after (membershipChangedLocked (seated mid s' sid hel wid))))) := by
  unfold onHello
  split_ifs
  · exact .inl rfl
  rcases systemsOf_cases cfg hel.systems d with ⟨systems, named⟩ | ⟨err, bad⟩
  swap
  · rw [bind_of_error bad]
    exact .inl rfl
  obtain rfl := systemsOf_eq_map named
  obtain ⟨slot, wkr, known, known_ok, known_inv, -, -, entry_eq, -⟩ := inv.workerId hel.addr
  have fewer : known.liveCount ≤ d.core.liveCount := Core.liveCount_le fun drv live => by rwa [← entry_eq]
  obtain ⟨mid, detached, rfl⟩ : ∃ mid, detachOld sid slot { d with core := known } = .ok () mid ∧ mid.core = known := by
    obtain ⟨deferred, detached⟩ := detachOld_eq sid slot { d with core := known }
    exact ⟨_, detached, rfl⟩
  refine .inr ⟨slot, _, mid, known_ok, detached, rfl, ?_⟩
  rw [bind_of_ok named, bind_of_ok (onCore_of_ok known_ok), bind_of_ok detached]
  by_cases addr_eq : hel.addr = ""
  · have refused : onCore (Core.hello (helloInfo hel (hel.systems.map cfg.systemFor))) mid =
        .error .helloWithoutAddr mid := by
      simp [onCore, onPart, Core.hello, helloInfo, addr_eq]
    exact .inl (congrArg after (bind_of_error refused _))
  · obtain ⟨wid, superseded, s', ran⟩ := @Core.Inv.hello_ok mid.core
      (helloInfo hel (hel.systems.map cfg.systemFor)) known_inv addr_eq
      (le_trans (Nat.add_le_add_right fewer hel.running.length) room)
    refine .inr ⟨wid, superseded, s', ran, ?_⟩
    rw [bind_of_ok (onCore_of_ok ran)]
    rfl

/-- A Hello that finds room for what it reports. -/
theorem onHello_tells (inv : d.core.Inv) {sid : SessionId} {hel : Hello}
    (named : once → (hel.systems.map cfg.systemFor).Nodup)
    (room : d.core.liveCount + hel.running.length ≤ Core.maxEntries) :
    Tells False once d (after (onHello world cfg sid hel d)) ∧
      (after (onHello world cfg sid hel d)).core.liveCount ≤ d.core.liveCount + hel.running.length := by
  rcases @onHello_after world cfg d inv sid hel room with same | ⟨slot, known, mid, known_ok, detached, rfl, ended⟩
  · rw [same]
    exact ⟨tells_of_steady (.refl inv) rfl rfl (List.Subset.refl _), Nat.le_add_right _ _⟩
  have found := (publishes_workerId hel.addr).ok (onCore_of_ok known_ok) inv
  have before := found.trans ((publishes_detachOld sid slot).ok detached found.inv)
  have fewer := before.live_le trivial
  rcases ended with same | ⟨wid, superseded, s', ran, same⟩
  · rw [same]
    exact ⟨before.spare, by omega⟩
  · obtain ⟨s'_inv, greeted⟩ := before.inv.hello ran
    have live_le : s'.liveCount ≤ mid.core.liveCount + hel.running.length := greeted.liveCount_le s'_inv
    have anew : Tells False once mid (after (membershipChangedLocked (seated mid s' sid hel wid))) :=
      tells_anew s'_inv (fun is_once => greeted_distinct greeted (named is_once)) False.elim rfl (List.Subset.refl _)
    have rest : Respects (Publishes True) (do supersedeAll world superseded; placeabilityChangedLocked) :=
      (spoken_publishes.supersedeAll superseded).bind fun _ => delivering_publishes.placeabilityChangedLocked
    have told := rest (after (membershipChangedLocked (seated mid s' sid hel wid))) s'_inv
    have told_le := told.live_le trivial
    rw [same]
    refine ⟨before.spare.trans (anew.trans told.spare), told_le.trans ?_⟩
    exact live_le.trans (Nat.add_le_add_right fewer _)

theorem workerMsgLocked_tells (inv : d.core.Inv) {sid : SessionId} {msg : WorkerMsg}
    (named : once → NamesOnce cfg msg) (room : d.core.liveCount + roomFor msg ≤ Core.maxEntries) :
    Tells False once d (after (workerMsgLocked world cfg sid msg d)) ∧
      (after (workerMsgLocked world cfg sid msg d)).core.liveCount ≤ d.core.liveCount + roomFor msg := by
  cases greeted : isHello msg with
  | false =>
    have publishes : Tells True True d (after (workerMsgLocked world cfg sid msg d)) :=
      respects_workerMsgLocked greeted publishes_onDone publishes_onLoad d inv
    exact ⟨publishes.spare, (publishes.live_le trivial).trans (Nat.le_add_right _ _)⟩
  | true =>
    cases msg with
    | hello hel => exact onHello_tells inv named room
    | _ => cases greeted

section Batch

variable {sid : SessionId} {msgs : List WorkerMsg} {P : State → Prop} {fine : WorkerMsg → Prop}

section Batches

variable (start : P d) (all_fine : ∀ msg ∈ msgs, fine msg)
  (room : d.core.liveCount + (msgs.map roomFor).sum ≤ Core.maxEntries) (inv : ∀ d, P d → d.core.Inv)
  (step : ∀ msg d, P d → fine msg → d.core.liveCount + roomFor msg ≤ Core.maxEntries →
      P (after (workerMsgLocked world cfg sid msg d)))
include start all_fine room inv step

/-- What every message keeps is kept by a batch, if the table has room for what its Hellos report. -/
theorem after_workerMsgsLocked :
    P (after (workerMsgsLocked world cfg sid msgs d)) ∧
      (after (workerMsgsLocked world cfg sid msgs d)).core.liveCount ≤
        d.core.liveCount + (msgs.map roomFor).sum := by
  induction msgs generalizing d with
  | nil => exact ⟨start, le_rfl⟩
  | cons msg msgs ih =>
    rw [List.map_cons, List.sum_cons] at room ⊢
    obtain ⟨-, live_le⟩ := @workerMsgLocked_tells False world cfg d (inv d start) sid msg False.elim (by omega)
    have next := step msg d start (all_fine msg List.mem_cons_self) (by omega)
    rw [workerMsgsLocked]
    cases ran : workerMsgLocked world cfg sid msg d with
    | error err d' =>
      rw [ran, after_error] at next live_le
      rw [bind_of_error ran, after_error]
      exact ⟨next, by omega⟩
    | ok _ d' =>
      rw [ran, after_ok] at next live_le
      rw [bind_of_ok ran]
      obtain ⟨later, later_le⟩ :=
        ih next (fun other mem => all_fine other (List.mem_cons_of_mem _ mem)) (by omega)
      exact ⟨later, by omega⟩

theorem after_workerMsgs (dispatch : ∀ d, P d → P (after (dispatchLocked world d))) :
    P (after (workerMsgs world cfg sid msgs d)) := by
  have locked := (after_workerMsgsLocked start all_fine room inv step).1
  cases msgs with
  | nil => exact start
  | cons first msgs =>
    rw [workerMsgs, bind_get_apply]
    split_ifs
    · exact start
    · exact after_bind locked fun _ d' reached => dispatch d' reached

end Batches

section Telling

variable (inv : d.core.Inv) (named : once → ∀ msg ∈ msgs, NamesOnce cfg msg)
  (room : d.core.liveCount + (msgs.map roomFor).sum ≤ Core.maxEntries)
include inv named room

theorem workerMsgsLocked_tells :
    Tells False once d (after (workerMsgsLocked world cfg sid msgs d)) ∧
      (after (workerMsgsLocked world cfg sid msgs d)).core.liveCount ≤
        d.core.liveCount + (msgs.map roomFor).sum :=
  after_workerMsgsLocked (P := Tells False once d) (tells_of_steady (.refl inv) rfl rfl (List.Subset.refl _))
    (fun msg mem is_once => named is_once msg mem) room (fun _ => Tells.inv) fun _ _ told named room =>
      told.trans (workerMsgLocked_tells told.inv named room).1

theorem workerMsgs_tells :
    Tells False once d (after (workerMsgs world cfg sid msgs d)) := by
  refine after_workerMsgs (P := Tells False once d) (tells_of_steady (.refl inv) rfl rfl (List.Subset.refl _))
    (fun msg mem is_once => named is_once msg mem) room (fun _ => Tells.inv) ?_ ?_
  · exact fun msg d' told named room => told.trans (workerMsgLocked_tells told.inv named room).1
  · exact fun d' told => told.trans (delivering_publishes.dispatchLocked d' told.inv).spare

end Telling

theorem workerMsgsLocked_append (first rest : List WorkerMsg) :
    workerMsgsLocked world cfg sid (first ++ rest) =
      workerMsgsLocked world cfg sid first >>= fun _ => workerMsgsLocked world cfg sid rest := by
  induction first with
  | nil => rfl
  | cons msg first ih =>
    rw [List.cons_append, workerMsgsLocked, workerMsgsLocked, ih, bind_assoc]

/-- The watchers hear of what the first messages of a batch made the balancer see, whatever the others do. -/
theorem workerMsgs_woken (inv : d.core.Inv) {msg : WorkerMsg} {first rest : List WorkerMsg}
    (named : ∀ other ∈ msg :: first ++ rest, NamesOnce cfg other)
    (room : d.core.liveCount + ((msg :: first ++ rest).map roomFor).sum ≤ Core.maxEntries)
    (heard : ¬ (d.ids sid = none ∧ isHello msg = false))
    (changed : (after (workerMsgsLocked world cfg sid (msg :: first) d)).published ≠ d.published) :
    ∀ watcher ∈ d.watchers, .wake watcher ∈ (after (workerMsgs world cfg sid (msg :: first ++ rest) d)).deferred := by
  intro watcher mem
  rw [List.map_append, List.sum_append] at room
  obtain ⟨told, live_le⟩ := @workerMsgsLocked_tells True world cfg d sid (msg :: first) inv
    (fun _ other mem => named other (List.mem_append_left _ mem)) (by omega)
  have woken := told.woken changed watcher mem
  rw [List.cons_append, workerMsgs, bind_get_apply, if_neg heard, ← List.cons_append, workerMsgsLocked_append,
    bind_assoc]
  cases ran : workerMsgsLocked world cfg sid (msg :: first) d with
  | error err d' =>
    rw [ran] at woken
    rw [bind_of_error ran]
    exact woken
  | ok _ d' =>
    rw [ran, after_ok] at told live_le woken
    obtain ⟨later, -⟩ := @workerMsgsLocked_tells True world cfg d' sid rest told.inv
      (fun _ other mem => named other (List.mem_append_right _ mem)) (by omega)
    rw [bind_of_ok ran]
    refine (after_bind (P := fun d : State => d.core.Inv ∧ .wake watcher ∈ d.deferred)
      ⟨later.inv, later.deferred_sub woken⟩ fun _ mid kept => ?_).2
    have placed : Tells False True mid (after (dispatchLocked world mid)) :=
      delivering_publishes.dispatchLocked mid kept.1
    exact ⟨placed.inv, placed.deferred_sub kept.2⟩

end Batch

end Publishes

/-! ## Runs -/

section Runs

variable {world : World} {cfg : Config} {x : Dispatcher} {call : Call} {calls : List Call}

/-- The Hellos of a batch name each system once, and the table has room for what they report. -/
def Call.Fits (cfg : Config) (x : Dispatcher) : Call → Prop
  | .workerMsgs _ msgs =>
    (∀ msg ∈ msgs, NamesOnce cfg msg) ∧ x.state.core.liveCount + (msgs.map roomFor).sum ≤ Core.maxEntries
  | _ => True

/-- A call that fits, whether or not it throws. -/
def FittingAttempt (cfg : Config) (x : Dispatcher) (calls : List Call) (x' : Dispatcher) : Prop :=
  ∃ call world, calls = [call] ∧ call.allowed cfg x ∧ call.Fits cfg x ∧ x' = after (call.perform world cfg x)

/-- The states of the runs whose calls all fit. -/
abbrev Fitted (cfg : Config) : Dispatcher → List Call → Prop :=
  Run.Reached (fun x => ∃ config : Sched.Config, x = { state := { core := { cfg := config } } })
    (FittingAttempt cfg)

/-- The books are kept and what is published is what the core says. -/
structure Advertised (x : Dispatcher) : Prop where
  inv : x.state.core.Inv
  distinct : Distinct x.state.core
  published : x.state.published = membersOf x.state.core.workers

/-- What is published stays right, and a wake of every watcher is queued if it changed. -/
structure Wakes (x x' : Dispatcher) : Prop where
  advertised : Advertised x'
  woken : x'.state.published ≠ x.state.published →
    ∃ queued, x'.released = queued ++ x.released ∧ ∀ watcher ∈ x.state.watchers, .wake watcher ∈ queued

theorem wakes_of_tells {x' : Dispatcher} {spares : Prop} {d : State} (advertised : Advertised x)
    (tells : Tells spares True x.state d) (state_eq : x'.state = { d with deferred := [] })
    (released_eq : x'.released = d.deferred ++ x.released) : Wakes x x' := by
  refine ⟨⟨?_, ?_, ?_⟩, fun changed => ⟨d.deferred, released_eq, ?_⟩⟩
  · rw [state_eq]
    exact tells.inv
  · rw [state_eq]
    exact tells.distinct trivial advertised.distinct
  · rw [state_eq]
    exact tells.published advertised.published
  · rw [state_eq] at changed
    exact tells.woken changed

theorem wakes_of_same {x' : Dispatcher} (advertised : Advertised x) (core_eq : x'.state.core = x.state.core)
    (published_eq : x'.state.published = x.state.published) : Wakes x x' := by
  refine ⟨⟨core_eq ▸ advertised.inv, core_eq ▸ advertised.distinct, ?_⟩, fun changed => absurd published_eq changed⟩
  rw [published_eq, core_eq]
  exact advertised.published

/-- Every call that fits. -/
theorem Call.wakes (advertised : Advertised x) (fits : call.Fits cfg x) :
    Wakes x (after (call.perform world cfg x)) := by
  rcases call.outcome world cfg x with ⟨x', ran, idles⟩ | ⟨m, runs, state_eq, released_eq⟩
  · rw [ran]
    exact wakes_of_same advertised idles.core_eq idles.published_eq
  · have told : ∀ {spares : Prop}, Tells spares True x.state (after (m x.state)) → _ := fun tells =>
      wakes_of_tells advertised tells state_eq released_eq
    cases runs with
    | @chunk _ job _ => exact told (publishes_onClientMsgs job.client _ _ advertised.inv)
    | clientGone client => exact told (publishes_clientGone client _ advertised.inv)
    | workerMsgs sid msgs => exact told (workerMsgs_tells advertised.inv (fun _ => fits.1) fits.2)
    | workerGone sid => exact told (publishes_workerGone sid _ advertised.inv)
    | revokeOrphans => exact told (publishes_revokeOrphans _ advertised.inv)
    | restarting => exact told (publishes_restarting _ advertised.inv)

theorem Fitted.advertised (fitted : Fitted cfg x calls) : Advertised x := by
  refine fitted.state_invariant (P := Advertised) ?_ ?_
  · rintro _ ⟨config, rfl⟩
    exact ⟨Core.inv_empty config, fun wkr mem => absurd mem List.not_mem_nil, rfl⟩
  · rintro x _ x' advertised ⟨call, world, -, -, fits, rfl⟩
    exact (call.wakes advertised fits).advertised

/-- What the balancer may see because of a call: what is published at its end, or, in a batch that is
not refused, after any of its messages. -/
inductive Call.Shows (world : World) (cfg : Config) (x : Dispatcher) : Call → (String → List Member) → Prop
  | ended (call : Call) : Shows world cfg x call (after (call.perform world cfg x)).state.published
  | during {sid : SessionId} {msg : WorkerMsg} {first : List WorkerMsg} (rest : List WorkerMsg)
      (heard : ¬ (x.state.ids sid = none ∧ isHello msg = false)) :
    Shows world cfg x (.workerMsgs sid (msg :: first ++ rest))
      (after (workerMsgsLocked world cfg sid (msg :: first) x.state)).published

/-- In every run whose Hellos name each system once and find room, the balancer sees what the core sees
after each call, and a call that makes it see something else, at its end or on the way, wakes every
watcher. -/
theorem membership_is_cores (fitted : Fitted cfg x calls) :
    (∀ system, x.state.published system = membersIn x.state.core system) ∧
    ∀ (world : World) (call : Call) (shown : String → List Member), call.allowed cfg x → call.Fits cfg x →
      call.Shows world cfg x shown → shown ≠ x.state.published →
      ∃ queued, (after (call.perform world cfg x)).released = queued ++ x.released ∧
        ∀ watcher ∈ x.state.watchers, .wake watcher ∈ queued := by
  have advertised := fitted.advertised
  refine ⟨fun system => ?_, fun world call shown _ fits shows changed => ?_⟩
  · rw [advertised.published]
    exact membersOf_eq advertised.distinct system
  · cases shows with
    | ended => exact (call.wakes advertised fits).woken changed
    | during rest heard =>
      rw [Call.perform, after_withLock]
      exact ⟨_, rfl, workerMsgs_woken advertised.inv fits.1 fits.2 heard changed⟩

/-- A worker says Hello while somebody watches. -/
theorem membership_is_cores_watched :
    ∃ x, Fitted uncached x [.watchMembership] ∧ ∃ queued,
      (after (Call.perform World.obliging uncached
        (.workerMsgs 0 [.hello { addr := "w0", systems := ["x86_64-linux"], maxJobs := 1 }]) x)).released =
        queued ++ x.released ∧ .wake 1 ∈ queued := by
  have watched : Fitted uncached (after (Call.perform World.obliging uncached .watchMembership {}))
      [.watchMembership] :=
    .step (.start ⟨{}, rfl⟩) ⟨.watchMembership, World.obliging, rfl, rfl, trivial, rfl⟩
  refine ⟨_, watched, ?_⟩
  obtain ⟨queued, released_eq, woken⟩ := (membership_is_cores watched).2 World.obliging
    (.workerMsgs 0 [.hello { addr := "w0", systems := ["x86_64-linux"], maxJobs := 1 }]) _ rfl
    ⟨by simp [NamesOnce], by decide +kernel⟩ (.ended _)
    fun same => absurd (congrFun same "x86_64-linux") (by decide +kernel)
  exact ⟨queued, released_eq, woken 1 (by decide +kernel)⟩

/-- A worker that names its system twice, the second time as "builtin". -/
def aliasedHello : List (World × Call) :=
  [(.obliging, .workerMsgs 0 [.hello { addr := "w0", systems := ["x86_64-linux", "builtin"], maxJobs := 1 }])]

/-- The balancer sees the one worker twice. -/
theorem aliased_worker_published_twice :
    ∃ x, Attempted uncached x (aliasedHello.map Prod.snd) ∧
      x.state.published "x86_64-linux" = [⟨"w0", false⟩, ⟨"w0", false⟩] ∧
      membersIn x.state.core "x86_64-linux" = [⟨"w0", false⟩] := by
  have ends : (runAll uncached aliasedHello {}).map (fun x =>
      (x.state.published "x86_64-linux", membersIn x.state.core "x86_64-linux")) =
      some ([⟨"w0", false⟩, ⟨"w0", false⟩], [⟨"w0", false⟩]) := by
    decide +kernel
  obtain ⟨x, ran, shape⟩ := Option.map_eq_some_iff.mp ends
  have reached : Reached uncached x (aliasedHello.map Prod.snd) := Reached.runAll (.start ⟨{}, rfl⟩) ran
  simp only [Prod.mk.injEq] at shape
  exact ⟨x, reached.attempted, shape⟩

end Runs

end NixGrpcStore.Dispatcher
