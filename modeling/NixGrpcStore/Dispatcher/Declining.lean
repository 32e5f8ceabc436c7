import NixGrpcStore.Dispatcher.Membership

/-!
# A worker that declines work

Placements go to workers that take work.  So a session is handed no Expect as long as its worker
declines: other sessions do not speak for that worker, and no section lets it take work again.
-/

namespace NixGrpcStore.Dispatcher

open Tally (lt_length)
open Function (update_of_ne)
open Sched Remote StateExcept

/-- An Expect is handed to a session. -/
def Event.ExpectsOf (sid : SessionId) : Event → Prop
  | .toSession other (.expect _ _) _ => other = sid
  | _ => False

/-- The worker of a session takes no work. -/
def Declines (sid : SessionId) (d : State) : Prop :=
  ∀ wid wkr, d.workers.lookup wid = some sid → d.core.roster[wid]? = some wkr → wkr.takesWork = false

/-- A session speaks for the worker at one address, and no other session does. -/
structure Sole (sid : SessionId) (addr : String) (d : State) : Prop where
  own : ∀ wid, d.workers.lookup wid = some sid → d.ids sid = some wid
  named : ∀ wid, d.ids sid = some wid → ∃ wkr, d.core.roster[wid]? = some wkr ∧ wkr.addr = addr
  others : ∀ other wid, other ≠ sid → d.ids other = some wid →
    ∃ wkr, d.core.roster[wid]? = some wkr ∧ wkr.addr ≠ addr

section Discreet

variable {quiet : Prop} {sid : SessionId} {addr : String} {off : WorkerId → Prop} {world : World} {cfg : Config}
  {d d' d'' : State} {wid : WorkerId}

theorem Sole.seat_ne (sole : Sole sid addr d) {other : SessionId} (other_ne : other ≠ sid)
    (is_wid : d.ids other = some wid) : d.workers.lookup wid ≠ some sid := by
  intro seat
  obtain ⟨wkr, listed, is_addr⟩ := sole.named wid (sole.own wid seat)
  obtain ⟨wkr', listed', addr_ne⟩ := sole.others other wid other_ne is_wid
  cases listed.symm.trans listed'
  exact addr_ne is_addr

/-! ## Sections that leave the sessions alone -/

/-- No session speaks for another worker than before.  Where it is asked for, a session gets no Expect and its worker
does not take work again. -/
structure Discreet (quiet : Prop) (sid : SessionId) (d d' : State) : Prop where
  inv : d'.core.Inv
  workers : ∀ wid wkr, d.core.roster[wid]? = some wkr → ∃ new, d'.core.roster[wid]? = some new ∧
    new.addr = wkr.addr ∧ (quiet → d'.workers.lookup wid = some sid → new.takesWork = true → wkr.takesWork = true)
  own_eq : d'.ids sid = d.ids sid
  ids : ∀ other wid, d'.ids other = some wid → d.ids other = some wid
  seats : ∀ wid, d'.workers.lookup wid = some sid → d.workers.lookup wid = some sid
  log : ∃ added, d'.log = added ++ d.log ∧ (quiet → ∀ event ∈ added, ¬ event.ExpectsOf sid)

/-- A section is discreet if it finds the books kept and certain workers do not belong to the session. -/
def Discreetly (quiet : Prop) (sid : SessionId) (off : WorkerId → Prop) (d d' : State) : Prop :=
  d.core.Inv → (quiet → ∀ wid, off wid → d.workers.lookup wid ≠ some sid) → Discreet quiet sid d d'

theorem discreet_of_roster (inv : d'.core.Inv) (roster_eq : d'.core.roster = d.core.roster)
    (ids_eq : d'.ids = d.ids)
    (seats : ∀ wid, d'.workers.lookup wid = some sid → d.workers.lookup wid = some sid)
    (log : ∃ added, d'.log = added ++ d.log ∧ (quiet → ∀ event ∈ added, ¬ event.ExpectsOf sid)) :
    Discreet quiet sid d d' where
  inv := inv
  workers wid wkr listed := ⟨wkr, by rw [roster_eq, listed], rfl, fun _ _ => id⟩
  own_eq := by rw [ids_eq]
  ids other wid is_wid := by rwa [← ids_eq]
  seats := seats
  log := log

theorem Discreet.refl (inv : d.core.Inv) : Discreet quiet sid d d :=
  discreet_of_roster inv rfl rfl (fun _ => id) ⟨[], rfl, by simp⟩

theorem Discreet.trans (first : Discreet quiet sid d d') (second : Discreet quiet sid d' d'') :
    Discreet quiet sid d d'' where
  inv := second.inv
  workers wid wkr listed := by
    obtain ⟨mid, mid_listed, mid_addr, mid_takes⟩ := first.workers wid wkr listed
    obtain ⟨new, new_listed, new_addr, new_takes⟩ := second.workers wid mid mid_listed
    refine ⟨new, new_listed, new_addr.trans mid_addr, fun is_quiet seat takes => ?_⟩
    exact mid_takes is_quiet (second.seats wid seat) (new_takes is_quiet seat takes)
  own_eq := second.own_eq.trans first.own_eq
  ids other wid is_wid := first.ids other wid (second.ids other wid is_wid)
  seats wid seat := first.seats wid (second.seats wid seat)
  log := by
    obtain ⟨added, log_eq, none_of⟩ := first.log
    obtain ⟨added', log_eq', none_of'⟩ := second.log
    refine ⟨added' ++ added, by rw [log_eq', log_eq, List.append_assoc], fun is_quiet event mem => ?_⟩
    rcases List.mem_append.mp mem with new | old
    · exact none_of' is_quiet event new
    · exact none_of is_quiet event old

instance : Std.Refl (Discreetly quiet sid off) where
  refl _ inv _ := Discreet.refl inv

instance : IsTrans State (Discreetly quiet sid off) where
  trans _ _ _ first second inv others := by
    have discreet := first inv others
    exact discreet.trans (second discreet.inv fun is_quiet wid is_off seat =>
      others is_quiet wid is_off (discreet.seats wid seat))

theorem discreetly_onCore {α : Type} {m : CoreM α}
    (steady : ∀ s : Core, s.Inv → Steady False s (after (m s))) :
    Respects (Discreetly quiet sid off) (onCore m) := by
  intro d inv _
  have kept := steady d.core inv
  rw [after_onCore]
  exact discreet_of_roster kept.inv kept.roster_eq rfl (fun _ => id) ⟨[], rfl, by simp⟩

theorem discreetly_modify {change : State → State} (core_eq : ∀ d, (change d).core = d.core)
    (ids_eq : ∀ d, (change d).ids = d.ids) (log_eq : ∀ d, (change d).log = d.log)
    (seats : ∀ d wid, (change d).workers.lookup wid = some sid → d.workers.lookup wid = some sid) :
    Respects (Discreetly quiet sid off) (modify change : LockedM PUnit) := by
  intro d inv _
  rw [modify_apply, after_ok]
  exact discreet_of_roster (core_eq d ▸ inv) (by rw [core_eq]) (ids_eq d) (seats d) ⟨[], log_eq d, by simp⟩

theorem discreetly_note (event : Event) (other : quiet → ¬ event.ExpectsOf sid) :
    Respects (Discreetly quiet sid off) (note event) := by
  intro d inv _
  refine discreet_of_roster inv rfl rfl (fun _ => id) ⟨[event], rfl, fun is_quiet new mem => ?_⟩
  rw [List.mem_singleton.mp mem]
  exact other is_quiet

theorem terse_discreetly : Terse (Discreetly quiet sid off) where
  entryAt drv := discreetly_onCore fun _ => steady_entryAt drv
  workerAt wid := discreetly_onCore fun _ => steady_workerAt wid
  note event _ other := by
    refine discreetly_note event fun _ expects => other ?_
    cases event with
    | toSession other cmd delivered =>
      cases cmd with
      | expect drvPath assignId => trivial
      | _ => exact expects.elim
    | _ => exact expects.elim

theorem discreetly_placeabilityChangedLocked : Respects (Discreetly quiet sid off) placeabilityChangedLocked :=
  Respects.bind (discreetly_onCore fun _ => steady_placeabilityChanges) terse_discreetly.tellFlags

theorem discreetly_membershipChangedLocked : Respects (Discreetly quiet sid off) membershipChangedLocked :=
  Respects.bind (discreetly_modify (fun _ => rfl) (fun _ => rfl) (fun _ => rfl) fun _ _ => id) fun _ =>
    discreetly_modify (fun _ => rfl) (fun _ => rfl) (fun _ => rfl) fun _ _ => id

/-- One worker is altered. -/
theorem discreetly_alter (wid : WorkerId) {m : CoreM Unit}
    (unknown : ∀ s : Core, s.workers[wid]? = none → after (m s) = s)
    (alters : ∀ (s : Core) (wkr : Worker), s.Inv → s.workers[wid]? = some wkr → ∃ (s' : Core) (new : Worker),
      m s = .ok () s' ∧ s'.Inv ∧ s'.workers = s.workers.set wid new ∧ new.addr = wkr.addr ∧
        (off wid ∨ (new.takesWork = true → wkr.takesWork = true))) :
    Respects (Discreetly quiet sid off) (onCore m) := by
  intro d inv others
  cases get_eq : d.core.workers[wid]? with
  | none =>
    rw [after_onCore, unknown d.core get_eq]
    exact Discreet.refl inv
  | some wkr =>
    obtain ⟨s', new, ran, s'_inv, workers_eq, addr_eq, takes⟩ := alters d.core wkr inv get_eq
    rw [onCore_of_ok ran, after_ok]
    refine ⟨s'_inv, fun other old listed => ?_, rfl, fun _ _ => id, fun _ => id, [], rfl, by simp⟩
    have set_eq : s'.roster = d.core.roster.set wid { new with running := [] } := roster_set_eq workers_eq
    by_cases is_wid : other = wid
    · subst is_wid
      cases (roster_get get_eq).symm.trans listed
      refine ⟨{ new with running := [] }, ?_, addr_eq, fun is_quiet seat => ?_⟩
      · rw [set_eq, List.getElem?_set_self (lt_length listed)]
      · rcases takes with is_off | takes
        · exact absurd seat (others is_quiet other is_off)
        · exact takes
    · exact ⟨old, by rw [set_eq, List.getElem?_set_ne (Ne.symm is_wid), listed], rfl, fun _ _ => id⟩

theorem discreetly_workerGone (wid : WorkerId) :
    Respects (Discreetly quiet sid off) (onCore (Core.workerGone wid)) := by
  refine discreetly_alter wid (fun s get_eq => ?_) fun s wkr inv get_eq => ?_
  · exact congrArg after (bind_of_error (Core.workerAt_of_none get_eq) _)
  · obtain ⟨s', ran, s'_inv, -, workers_eq, -⟩ := inv.workerGone get_eq
    exact ⟨s', _, ran, s'_inv, workers_eq, rfl, .inr (by simp [Worker.takesWork])⟩

theorem discreetly_erase (wid : WorkerId) :
    Respects (Discreetly quiet sid off)
      (modify fun d : State => { d with workers := d.workers.erase wid } : LockedM PUnit) := by
  refine discreetly_modify (fun _ => rfl) (fun _ => rfl) (fun _ => rfl) fun d other seat => ?_
  by_cases same : other = wid
  · rw [same, AList.lookup_erase] at seat
    cases seat
  · rwa [AList.lookup_erase_ne same] at seat

theorem discreetly_expectUndeliverable (wid : WorkerId) :
    Respects (Discreetly quiet sid off) (expectUndeliverable wid) :=
  (discreetly_workerGone wid).bind fun _ => discreetly_membershipChangedLocked.bind fun _ =>
    (discreetly_erase wid).bind fun _ => discreetly_placeabilityChangedLocked

theorem discreetly_sendExpect (is_off : off wid) (cmd : SchedCmd) :
    Respects (Discreetly quiet sid off) (sendExpect world wid cmd) := by
  intro d inv others
  rw [sendExpect, bind_get_apply]
  cases seat : d.workers.lookup wid with
  | none => exact Discreet.refl inv
  | some other =>
    have said : Respects (Discreetly quiet sid off) (sendSession world other cmd) := by
      refine respects_get.bind fun _ =>
        Respects.bind (discreetly_note _ fun is_quiet expects => ?_) fun _ => respects_pure _
      have is_sid : other = sid := by
        cases cmd with
        | expect drvPath assignId => exact expects
        | _ => exact expects.elim
      exact others is_quiet wid is_off (is_sid ▸ seat)
    exact said d inv others

/-- Placements for other workers are delivered. -/
theorem discreetly_deliverAll (out : List Assign) (is_off : ∀ asg ∈ out, off asg.worker) :
    Respects (Discreetly quiet sid off) (deliverAll world out) := by
  induction out with
  | nil => exact respects_pure ()
  | cons asg out ih =>
    refine Respects.bind ?_ fun _ => ih fun other mem => is_off other (List.mem_cons_of_mem _ mem)
    refine (terse_discreetly.entryAt asg.drv).bind fun found => ?_
    cases found with
    | none => exact respects_pure ()
    | some ent =>
      refine (terse_discreetly.note (.placed asg ent.drvPath) trivial id).bind fun _ =>
        (terse_discreetly.workerAt asg.worker).bind fun _ =>
          (discreetly_sendExpect (is_off asg List.mem_cons_self) _).bind fun delivered => ?_
      split_ifs
      · exact (terse_discreetly.assignedMsg _).bind fun _ => terse_discreetly.sendToFollowers _ _
      · exact discreetly_expectUndeliverable _

/-- A worker starts to refuse work, or it is none of the session's. -/
theorem discreetly_onLoad (draining : Bool) (allowed : draining = true ∨ off wid) :
    Respects (Discreetly quiet sid off) (onLoad wid draining) := by
  refine Respects.bind (discreetly_alter wid (fun s get_eq => ?_) fun s wkr inv get_eq => ?_) fun _ =>
    discreetly_membershipChangedLocked.bind fun _ => discreetly_placeabilityChangedLocked
  · exact congrArg after (bind_of_error (Core.workerAt_of_none get_eq) _)
  · obtain ⟨s', ran, s'_inv, -, workers_eq, -⟩ := inv.setDraining get_eq draining
    refine ⟨s', _, ran, s'_inv, workers_eq, rfl, ?_⟩
    rcases allowed with rfl | is_off
    · exact .inr (by simp [Worker.takesWork])
    · exact .inl is_off

theorem discreetly_onDone (wid : WorkerId) (done : Done) :
    Respects (Discreetly quiet sid off) (onDone wid done) :=
  respects_onDone (fun outputs => discreetly_onCore fun _ => steady_done wid done.drvPath outputs)
    (discreetly_onCore fun _ => steady_giveBack wid done.drvPath) discreetly_placeabilityChangedLocked

end Discreet

/-! ## Sections -/

/-- A section leaves a session its worker.  Where it is asked for, it hands the session no Expect. -/
structure Spares (quiet : Prop) (sid : SessionId) (addr : String) (d d' : State) : Prop where
  inv : d'.core.Inv
  sole : Sole sid addr d'
  declines : quiet → Declines sid d'
  log : ∃ added, d'.log = added ++ d.log ∧ (quiet → ∀ event ∈ added, ¬ event.ExpectsOf sid)

/-- A section spares a session whose worker declines work. -/
def Sparing (quiet : Prop) (sid : SessionId) (addr : String) (d d' : State) : Prop :=
  d.core.Inv → Sole sid addr d → (quiet → Declines sid d) → Spares quiet sid addr d d'

section Spares

variable {quiet : Prop} {sid : SessionId} {addr : String} {world : World} {cfg : Config} {d d' d'' : State}
  {wid : WorkerId}

theorem Discreet.sole (discreet : Discreet quiet sid d d') (sole : Sole sid addr d) : Sole sid addr d' where
  own wid seat := by
    rw [discreet.own_eq]
    exact sole.own wid (discreet.seats wid seat)
  named wid is_wid := by
    obtain ⟨wkr, listed, is_addr⟩ := sole.named wid (discreet.ids sid wid is_wid)
    obtain ⟨new, new_listed, new_addr, -⟩ := discreet.workers wid wkr listed
    exact ⟨new, new_listed, new_addr.trans is_addr⟩
  others other wid other_ne is_wid := by
    obtain ⟨wkr, listed, addr_ne⟩ := sole.others other wid other_ne (discreet.ids other wid is_wid)
    obtain ⟨new, new_listed, new_addr, -⟩ := discreet.workers wid wkr listed
    exact ⟨new, new_listed, new_addr ▸ addr_ne⟩

theorem Discreet.declines (discreet : Discreet quiet sid d d') (sole : Sole sid addr d) (is_quiet : quiet)
    (declines : Declines sid d) : Declines sid d' := by
  intro wid new seat new_listed
  have old_seat := discreet.seats wid seat
  obtain ⟨wkr, listed, -⟩ := sole.named wid (sole.own wid old_seat)
  obtain ⟨new', new_listed', -, takes⟩ := discreet.workers wid wkr listed
  cases new_listed.symm.trans new_listed'
  refine Bool.eq_false_iff.mpr fun takes_work => ?_
  cases (declines wid wkr old_seat listed).symm.trans (takes is_quiet seat takes_work)

theorem Discreet.spares (discreet : Discreet quiet sid d d') (sole : Sole sid addr d)
    (declines : quiet → Declines sid d) : Spares quiet sid addr d d' :=
  ⟨discreet.inv, discreet.sole sole, fun is_quiet => discreet.declines sole is_quiet (declines is_quiet), discreet.log⟩

theorem Spares.trans (first : Spares quiet sid addr d d') (second : Spares quiet sid addr d' d'') :
    Spares quiet sid addr d d'' where
  inv := second.inv
  sole := second.sole
  declines := second.declines
  log := by
    obtain ⟨added, log_eq, none_of⟩ := first.log
    obtain ⟨added', log_eq', none_of'⟩ := second.log
    refine ⟨added' ++ added, by rw [log_eq', log_eq, List.append_assoc], fun is_quiet event mem => ?_⟩
    rcases List.mem_append.mp mem with new | old
    · exact none_of' is_quiet event new
    · exact none_of is_quiet event old

instance : Std.Refl (Sparing quiet sid addr) where
  refl _ inv sole declines := (Discreet.refl inv).spares sole declines

instance : IsTrans State (Sparing quiet sid addr) where
  trans _ _ _ first second inv sole declines := by
    have spares := first inv sole declines
    exact spares.trans (second spares.inv spares.sole spares.declines)

theorem sparing_of_discreetly {α : Type} {m : LockedM α}
    (discreetly : Respects (Discreetly quiet sid fun _ => False) m) :
    Respects (Sparing quiet sid addr) m :=
  fun d inv sole declines => (discreetly d inv fun _ _ => False.elim).spares sole declines

theorem terse_sparing : Terse (Sparing quiet sid addr) where
  entryAt drv := sparing_of_discreetly (terse_discreetly.entryAt drv)
  workerAt wid := sparing_of_discreetly (terse_discreetly.workerAt wid)
  note event outgoing other := sparing_of_discreetly (terse_discreetly.note event outgoing other)

/-- A dispatch places nothing on a worker that declines work. -/
theorem sparing_dispatchLocked : Respects (Sparing quiet sid addr) (dispatchLocked world) := by
  intro d inv sole declines
  obtain ⟨out, s', ran, s'_inv, places⟩ := inv.dispatch_places (world.order d.log)
  have placed : Discreet quiet sid d { d with core := s' } :=
    discreet_of_roster s'_inv places.roster_eq rfl (fun _ => id) ⟨[], rfl, by simp⟩
  have elsewhere : quiet → ∀ wid, (∃ asg ∈ out, asg.worker = wid) → d.workers.lookup wid ≠ some sid := by
    rintro is_quiet _ ⟨asg, mem, rfl⟩ seat
    obtain ⟨wkr, listed, takes⟩ := inv.dispatch_takesWork ran mem
    cases (declines is_quiet asg.worker wkr seat listed).symm.trans takes
  have delivered := @discreetly_deliverAll quiet sid (fun wid => ∃ asg ∈ out, asg.worker = wid) world out
    (fun asg mem => ⟨asg, mem, rfl⟩) { d with core := s' } s'_inv elsewhere
  have ended : dispatchLocked world d = deliverAll world out { d with core := s' } := by
    rw [dispatchLocked, bind_get_apply, bind_of_ok (onCore_of_ok ran)]
  rw [ended]
  exact (placed.trans delivered).spares sole declines

theorem sparing_note (event : Event) (other : ¬ event.ExpectsOf sid) :
    Respects (Sparing quiet sid addr) (note event) :=
  sparing_of_discreetly (discreetly_note event fun _ => other)

theorem sparing_onCore {α : Type} {m : CoreM α} (steady : ∀ s : Core, s.Inv → Steady False s (after (m s))) :
    Respects (Sparing quiet sid addr) (onCore m) :=
  sparing_of_discreetly (discreetly_onCore steady)

theorem sparing_onClientMsgs (client : ClientId) (msgs : List (ClientMsg × Bool)) :
    Respects (Sparing quiet sid addr) (onClientMsgs world cfg client msgs) := by
  refine respects_onClientMsgs (fun want cached => ?_) fun drvPath _ _ => ?_
  · exact terse_sparing.onWant (fun drv flag => sparing_onCore fun _ => steady_markUnplaceable drv flag)
      sparing_dispatchLocked client want cached
      (fun nowMs => sparing_onCore fun _ => steady_want cfg client want nowMs) fun _ => sparing_note _ id
  · exact terse_sparing.onCancel client drvPath (sparing_onCore fun _ => steady_cancel client drvPath)
      (sparing_note _ id)

theorem sparing_clientGone (client : ClientId) :
    Respects (Sparing quiet sid addr) (clientGone world client) := by
  refine Respects.bind ?_ fun _ => Respects.bind (sparing_onCore fun _ => steady_clientGone client)
    (respects_addOrphans terse_sparing.entryAt fun _ => ?_)
  · exact sparing_of_discreetly (discreetly_modify (fun _ => rfl) (fun _ => rfl) (fun _ => rfl) fun _ _ => id)
  · exact sparing_of_discreetly (discreetly_modify (fun _ => rfl) (fun _ => rfl) (fun _ => rfl) fun _ _ => id)

theorem sparing_revokeOrphans : Respects (Sparing quiet sid addr) (revokeOrphans world) := by
  refine respects_get.bind fun d => (terse_sparing.revokeDue _ _).bind fun rest => ?_
  exact sparing_of_discreetly (discreetly_modify (fun _ => rfl) (fun _ => rfl) (fun _ => rfl) fun _ _ => id)

theorem sparing_restarting : Respects (Sparing quiet sid addr) (restarting world) := by
  refine Respects.bind ?_ fun _ => Respects.bind ?_ fun _ => respects_get.bind fun d =>
    (terse_sparing.sendAll _ _).bind fun _ => terse_sparing.sendRestarting _
  · exact sparing_of_discreetly (discreetly_modify (fun _ => rfl) (fun _ => rfl) (fun _ => rfl) fun _ _ => id)
  · exact sparing_of_discreetly (discreetly_modify (fun _ => rfl) (fun _ => rfl) (fun _ => rfl) fun _ _ => id)

variable {other : SessionId}

theorem sparing_workerGone (other_ne : other ≠ sid) :
    Respects (Sparing quiet sid addr) (workerGone world other) := by
  refine respects_get.bind fun d => ?_
  cases d.ids other with
  | none => exact respects_pure ()
  | some wid =>
    refine (sparing_of_discreetly (discreetly_workerGone wid)).bind fun _ =>
      (sparing_of_discreetly (discreetly_erase wid)).bind fun _ =>
      (sparing_of_discreetly discreetly_membershipChangedLocked).bind fun _ => sparing_dispatchLocked.bind fun _ =>
        (sparing_of_discreetly discreetly_placeabilityChangedLocked).bind fun _ => ?_
    refine sparing_of_discreetly fun d inv _ => ?_
    refine ⟨inv, fun wid wkr listed => ⟨wkr, listed, rfl, fun _ _ => id⟩, ?_, fun third wid is_wid => ?_, fun _ => id,
      [], rfl, by simp⟩
    · exact update_of_ne other_ne.symm _ _
    · by_cases same : third = other
      · simp [same] at is_wid
      · simpa [update_of_ne same] using is_wid

/-! ## Messages of sessions -/

theorem discreetly_workerId {off : WorkerId → Prop} (name : String) :
    Respects (Discreetly quiet sid off) (onCore (Core.workerId name)) := by
  intro d inv _
  obtain ⟨wid, wkr, s', ran, s'_inv, -, -, -, -, -, -, workers_eq⟩ := inv.workerId name
  rw [onCore_of_ok ran, after_ok]
  rcases workers_eq with same | ⟨-, added, -⟩
  · exact discreet_of_roster s'_inv (by simp [Core.roster, same]) rfl (fun _ => id) ⟨[], rfl, by simp⟩
  · refine ⟨s'_inv, fun other old listed => ⟨old, ?_, rfl, fun _ _ => id⟩, rfl, fun _ _ => id,
      fun _ => id, [], rfl, by simp⟩
    have inside := lt_length listed
    have extended : s'.roster = d.core.roster ++ [{ addr := name }] := by simp [Core.roster, added]
    rw [extended, List.getElem?_append_left inside, listed]

/-- Another session is detached from a worker. -/
theorem detached_discreet {slot : WorkerId} (inv : d.core.Inv)
    (elsewhere : other ≠ sid → d.workers.lookup slot ≠ some sid)
    (detached : detachOld other slot d = .ok () d') : Discreet quiet sid d d' := by
  obtain ⟨deferred, detached'⟩ := detachOld_eq other slot d
  cases detached'.symm.trans detached
  have ids : ∀ third wid, detachedIds d other slot third = some wid → d.ids third = some wid := by
    intro third wid is_wid
    rw [detachedIds] at is_wid
    cases seat : d.workers.lookup slot with
    | none => simpa only [seat] using is_wid
    | some old =>
      simp only [seat] at is_wid
      split_ifs at is_wid
      · exact is_wid
      · by_cases same : third = old
        · simp [same] at is_wid
        · rwa [update_of_ne same] at is_wid
  refine ⟨inv, fun wid wkr listed => ⟨wkr, listed, rfl, fun _ _ => id⟩, ?_, ids, fun _ => id, [], rfl, by simp⟩
  simp only [detachedIds]
  cases seat : d.workers.lookup slot with
  | none => rfl
  | some old =>
    dsimp only
    split_ifs with same
    · rfl
    · have old_ne : sid ≠ old := by
        rintro rfl
        exact elsewhere (Ne.symm same) seat
      exact update_of_ne old_ne _ _

/-- A worker that the core has greeted gets its session. -/
theorem seated_spares {hel : Hello} {info : HelloInfo} {s' : Core} {superseded : List Superseded}
    (inv : d.core.Inv) (s'_inv : s'.Inv) (greeted : Core.Greeted d.core s' info wid superseded)
    (sole : Sole sid addr d) (declines : quiet → Declines sid d)
    (own : other = sid → info.addr = addr ∧ ¬ quiet) (foreign : other ≠ sid → info.addr ≠ addr) :
    Spares quiet sid addr d (seated d s' other hel wid) := by
  have held : ∀ wkr, d.core.roster[wid]? = some wkr → wkr.addr = info.addr := by
    intro wkr listed
    obtain ⟨full, get_eq, rfl⟩ := get_of_roster_get listed
    rcases greeted.slot with ⟨known, known_get, known_addr⟩ | ⟨beyond, -⟩
    · cases get_eq.symm.trans known_get
      exact known_addr
    · exact absurd (lt_length get_eq) (by simp [beyond])
  refine ⟨s'_inv, ⟨fun w seat => ?_, fun w is_w => ?_, fun third w third_ne is_w => ?_⟩,
    fun is_quiet w wkr seat listed => ?_,
    [.hello other hel], rfl, fun _ event mem => by rw [List.mem_singleton.mp mem]; exact id⟩
  · by_cases is_wid : w = wid
    · rw [is_wid] at seat ⊢
      rw [seated, AList.lookup_insert] at seat
      cases seat
      exact Function.update_self ..
    · rw [seated, AList.lookup_insert_ne is_wid] at seat
      have is_w := sole.own w seat
      by_cases same : other = sid
      · obtain ⟨wkr, listed, is_addr⟩ := sole.named w is_w
        obtain ⟨full, get_eq, rfl⟩ := get_of_roster_get listed
        have slot_eq : d.core.workerIds.lookup addr = some w := (inv.addrs addr w).mpr ⟨full, get_eq, is_addr⟩
        rcases greeted.slot with ⟨known, known_get, known_addr⟩ | ⟨-, none_there⟩
        · have slot_eq' := (inv.addrs addr wid).mpr ⟨known, known_get, known_addr.trans (own same).1⟩
          exact absurd (Option.some.inj (slot_eq.symm.trans slot_eq')) is_wid
        · exact absurd (is_addr.trans (own same).1.symm) (none_there full (List.mem_of_getElem? get_eq))
      · exact (update_of_ne (Ne.symm same) _ _).trans is_w
  · by_cases same : other = sid
    · obtain rfl : wid = w := by
        simpa [seated, same] using is_w
      exact ⟨info.worker, greeted.roster_self, (own same).1⟩
    · obtain ⟨wkr, listed, is_addr⟩ := sole.named w ((update_of_ne (Ne.symm same) _ _).symm.trans is_w)
      have other_wid : w ≠ wid := by
        rintro rfl
        exact foreign same ((held wkr listed).symm.trans is_addr)
      exact ⟨wkr, (greeted.roster_other w other_wid).trans listed, is_addr⟩
  · by_cases same : third = other
    · obtain rfl : wid = w := by
        simpa [seated, same] using is_w
      exact ⟨info.worker, greeted.roster_self, foreign (same ▸ third_ne)⟩
    · obtain ⟨wkr, listed, addr_ne⟩ := sole.others third w third_ne ((update_of_ne same _ _).symm.trans is_w)
      by_cases is_wid : w = wid
      · subst is_wid
        exact ⟨info.worker, greeted.roster_self, fun is_addr => addr_ne ((held wkr listed).trans is_addr)⟩
      · exact ⟨wkr, (greeted.roster_other w is_wid).trans listed, addr_ne⟩
  · have other_wid : w ≠ wid := by
      rintro rfl
      rw [seated, AList.lookup_insert] at seat
      exact (own (Option.some.inj seat)).2 is_quiet
    rw [seated, AList.lookup_insert_ne other_wid] at seat
    exact declines is_quiet w wkr seat ((greeted.roster_other w other_wid).symm.trans listed)

/-- What a session may say so that another one keeps its worker, and where it is asked for gets no Expect. -/
def Minds (quiet : Prop) (sid : SessionId) (addr : String) (other : SessionId) : WorkerMsg → Prop
  | .hello hel => (other = sid → hel.addr = addr ∧ ¬ quiet) ∧ (other ≠ sid → hel.addr ≠ addr)
  | .load draining => other = sid → draining = true ∨ ¬ quiet
  | _ => True

theorem onHello_spares {hel : Hello} (inv : d.core.Inv) (sole : Sole sid addr d)
    (declines : quiet → Declines sid d) (minds : Minds quiet sid addr other (.hello hel))
    (room : d.core.liveCount + hel.running.length ≤ Core.maxEntries) :
    Spares quiet sid addr d (after (onHello world cfg other hel d)) := by
  rcases @onHello_after world cfg d inv other hel room with same | ⟨slot, known, mid, known_ok, detached, rfl, ended⟩
  · rw [same]
    exact (Discreet.refl inv).spares sole declines
  have found : Discreet quiet sid d { d with core := mid.core } :=
    (discreetly_workerId hel.addr).ok (onCore_of_ok known_ok) inv fun _ _ => False.elim
  have elsewhere : other ≠ sid → d.workers.lookup slot ≠ some sid := by
    intro other_ne seat
    obtain ⟨wkr, listed, is_addr⟩ := (found.sole sole).named slot ((found.sole sole).own slot seat)
    obtain ⟨full, get_eq, rfl⟩ := get_of_roster_get listed
    obtain ⟨slot', wkr', s', known_ok', -, get_eq', addr_eq, -⟩ := inv.workerId hel.addr
    cases known_ok'.symm.trans known_ok
    cases get_eq.symm.trans get_eq'
    exact minds.2 other_ne (addr_eq.symm.trans is_addr)
  have before := (found.trans (detached_discreet found.inv elsewhere detached)).spares sole declines
  rcases ended with same | ⟨wid, superseded, s', ran, same⟩
  · rw [same]
    exact before
  · obtain ⟨s'_inv, greeted⟩ := before.inv.hello ran
    have seat := @seated_spares quiet sid addr mid wid other hel _ s' superseded before.inv s'_inv greeted before.sole
      before.declines minds.1 minds.2
    have rest : Respects (Sparing quiet sid addr) (do
        membershipChangedLocked
        supersedeAll world superseded
        placeabilityChangedLocked) :=
      (sparing_of_discreetly discreetly_membershipChangedLocked).bind fun _ =>
        (terse_sparing.supersedeAll superseded).bind fun _ => sparing_of_discreetly discreetly_placeabilityChangedLocked
    rw [same]
    exact before.trans (seat.trans (rest (seated mid s' other hel wid) seat.inv seat.sole seat.declines))

/-- A message of a session that minds the other one. -/
theorem workerMsgLocked_spares {msg : WorkerMsg} (inv : d.core.Inv) (sole : Sole sid addr d)
    (declines : quiet → Declines sid d) (minds : Minds quiet sid addr other msg)
    (room : d.core.liveCount + roomFor msg ≤ Core.maxEntries) :
    Spares quiet sid addr d (after (workerMsgLocked world cfg other msg d)) := by
  cases msg with
  | hello hel => exact onHello_spares inv sole declines minds room
  | done done =>
    simp only [workerMsgLocked, bind_get_apply]
    cases is_wid : d.ids other with
    | none => exact (Discreet.refl inv).spares sole declines
    | some wid => exact sparing_of_discreetly (discreetly_onDone wid done) d inv sole declines
  | load draining =>
    simp only [workerMsgLocked, bind_get_apply]
    cases is_wid : d.ids other with
    | none => exact (Discreet.refl inv).spares sole declines
    | some wid =>
      by_cases drains : draining = true
      · exact sparing_of_discreetly (discreetly_onLoad draining (.inl drains)) d inv sole declines
      · have loads := @discreetly_onLoad quiet sid (fun w => w = wid) wid draining (.inr rfl) d inv
        refine (loads fun is_quiet w is_w => ?_).spares sole declines
        subst is_w
        by_cases same : other = sid
        · exact absurd is_quiet ((minds same).resolve_left drains)
        · exact sole.seat_ne same is_wid
  | empty =>
    simp only [workerMsgLocked, bind_get_apply]
    cases is_wid : d.ids other with
    | none => exact (Discreet.refl inv).spares sole declines
    | some wid => exact (Discreet.refl inv).spares sole declines

theorem Spares.respects {α : Type} {m : LockedM α} (spares : Spares quiet sid addr d d')
    (sparing : Respects (Sparing quiet sid addr) m) : Spares quiet sid addr d (after (m d')) :=
  spares.trans (sparing d' spares.inv spares.sole spares.declines)

theorem workerMsgs_spares {msgs : List WorkerMsg} (inv : d.core.Inv) (sole : Sole sid addr d)
    (declines : quiet → Declines sid d) (minds : ∀ msg ∈ msgs, Minds quiet sid addr other msg)
    (room : d.core.liveCount + (msgs.map roomFor).sum ≤ Core.maxEntries) :
    Spares quiet sid addr d (after (workerMsgs world cfg other msgs d)) := by
  refine after_workerMsgs (P := Spares quiet sid addr d) ((Discreet.refl inv).spares sole declines) minds room
    (fun _ => Spares.inv) ?_ fun d' spares => spares.respects sparing_dispatchLocked
  exact fun msg d' spares minds room =>
    spares.trans (workerMsgLocked_spares spares.inv spares.sole spares.declines minds room)

/-- A worker that starts to drain takes no work, whatever was before. -/
theorem onLoad_spares (inv : d.core.Inv) (sole : Sole sid addr d) (is_wid : d.ids sid = some wid) :
    Spares True sid addr d (after (onLoad wid true d)) := by
  obtain ⟨wkr, listed, -⟩ := sole.named wid is_wid
  obtain ⟨full, get_eq, -⟩ := get_of_roster_get listed
  obtain ⟨s', ran, s'_inv, -, workers_eq, -⟩ := inv.setDraining get_eq true
  have set_eq : s'.roster = d.core.roster.set wid { full with draining := true, running := [] } :=
    roster_set_eq workers_eq
  have drained : Discreet False sid d { d with core := s' } := by
    refine ⟨s'_inv, fun w old old_listed => ?_, rfl, fun _ _ => id, fun _ => id, [], rfl, by simp⟩
    by_cases same : w = wid
    · subst same
      cases (roster_get get_eq).symm.trans old_listed
      exact ⟨{ full with draining := true, running := [] },
        by rw [set_eq, List.getElem?_set_self (lt_length old_listed)], rfl, False.elim⟩
    · exact ⟨old, by rw [set_eq, List.getElem?_set_ne (Ne.symm same), old_listed], rfl, False.elim⟩
  have declines : Declines sid { d with core := s' } := by
    intro w new seat new_listed
    cases is_wid.symm.trans (sole.own w seat)
    obtain rfl : { full with draining := true, running := [] } = new := by
      simpa [set_eq, List.getElem?_set_self (lt_length listed)] using new_listed
    simp [Worker.takesWork]
  have told : Spares True sid addr d { d with core := s' } :=
    ⟨s'_inv, drained.sole sole, fun _ => declines, [], rfl, by simp⟩
  rw [onLoad, bind_of_ok (onCore_of_ok ran)]
  exact told.respects ((sparing_of_discreetly discreetly_membershipChangedLocked).bind fun _ =>
    sparing_of_discreetly discreetly_placeabilityChangedLocked)

/-- Once the session has said that its worker drains, the worker takes no work. -/
theorem load_spares (inv : d.core.Inv) (sole : Sole sid addr d) :
    Spares True sid addr d (after (workerMsgs world cfg sid [.load true] d)) := by
  rw [workerMsgs, bind_get_apply]
  cases is_wid : d.ids sid with
  | none =>
    refine (Discreet.refl inv).spares sole fun _ wid wkr seat => ?_
    cases is_wid.symm.trans (sole.own wid seat)
  | some wid =>
    have told : Spares True sid addr d (after (workerMsgsLocked world cfg sid [.load true] d)) := by
      refine after_bind ?_ fun _ _ => id
      simp only [workerMsgLocked, bind_get_apply, is_wid]
      exact onLoad_spares inv sole is_wid
    simp only [reduceCtorEq, false_and, if_false]
    exact after_bind told fun _ _ spares => spares.respects sparing_dispatchLocked

end Spares

/-! ## Calls -/

section Calls

variable {quiet : Prop} {sid : SessionId} {addr : String} {world : World} {cfg : Config} {x : Dispatcher} {call : Call}

/-- A call that leaves a session its worker, and where it is asked for hands it no Expect if the worker takes no work.
The table has room for what is reported. -/
def Call.Minds (quiet : Prop) (sid : SessionId) (addr : String) (x : Dispatcher) : Call → Prop
  | .workerMsgs other msgs =>
    (∀ msg ∈ msgs, Dispatcher.Minds quiet sid addr other msg) ∧
      x.state.core.liveCount + (msgs.map roomFor).sum ≤ Core.maxEntries
  | .workerGone other => other ≠ sid
  | _ => True

theorem Spares.released {d d' : State} (spares : Spares quiet sid addr d d') {x' : Dispatcher}
    (state_eq : x'.state = { d' with deferred := [] }) : Spares quiet sid addr d x'.state := by
  rw [state_eq]
  exact ⟨spares.inv, ⟨spares.sole.own, spares.sole.named, spares.sole.others⟩, spares.declines, spares.log⟩

/-- Every call that minds the session. -/
theorem Call.spares (inv : x.state.core.Inv) (sole : Sole sid addr x.state)
    (declines : quiet → Declines sid x.state) (minds : call.Minds quiet sid addr x) :
    Spares quiet sid addr x.state (after (call.perform world cfg x)).state := by
  rcases call.outcome world cfg x with ⟨x', ran, idles⟩ | ⟨m, runs, state_eq, -⟩
  · rw [ran]
    refine (discreet_of_roster ?_ ?_ idles.ids_eq (fun wid => ?_) ⟨[], idles.log_eq, by simp⟩).spares sole declines
    · rwa [idles.core_eq]
    · rw [idles.core_eq]
    · rw [idles.workers_eq]
      exact id
  · suffices spares : Spares quiet sid addr x.state (after (m x.state)) from spares.released state_eq
    cases runs with
    | @chunk _ job _ => exact sparing_onClientMsgs job.client _ _ inv sole declines
    | clientGone client => exact sparing_clientGone client _ inv sole declines
    | workerMsgs other msgs => exact workerMsgs_spares inv sole declines minds.1 minds.2
    | workerGone other => exact sparing_workerGone minds _ inv sole declines
    | revokeOrphans => exact sparing_revokeOrphans _ inv sole declines
    | restarting => exact sparing_restarting _ inv sole declines

end Calls

end NixGrpcStore.Dispatcher
