import NixGrpcStore.Sched.Reachable

/-!
# What a dispatch guarantees

Every assignment is legal at the moment it is made, nothing that could run is left waiting, and no
worker is given to a less urgent derivation while a more urgent one it could run waits.
-/

namespace NixGrpcStore.Sched

open StateExcept

namespace Core

section Served

variable {order : VisitOrder} {aside : Set DrvId} {s mid last : Core} {asg : Assign} {ent : Entry}
  {out earlier later : List Assign} {skipped : List Skipped} {drv : DrvId}

/-! ## The moment of an assignment -/

/-- The loop stood in the state of a legal head right before it made an assignment. -/
theorem Served.moment (served : Served order aside s out skipped last)
    (split : out = earlier ++ asg :: later) :
    ∃ rounds setAside mid mid' aside' name ent,
      Core.dispatchLoop order rounds s = .ok (earlier, setAside) mid ∧
        Core.dispatchHead name mid = .ok (.assigned asg) mid' ∧
        HeadAssigned mid aside' mid' asg ent := by
  induction served generalizing earlier with
  | stop => simp at split
  | @assign aside s mid last name key first ent out skipped serving best ran head rest ih =>
    cases earlier with
    | nil =>
      obtain ⟨rfl, -⟩ := List.cons.inj split
      exact ⟨0, [], s, mid, aside, name, ent, rfl, ran, head⟩
    | cons other earlier =>
      rw [List.cons_append, List.cons.injEq] at split
      obtain ⟨rfl, rest_split⟩ := split
      obtain ⟨rounds, setAside, now, next, aside', name', ent', loop, made, legal⟩ := ih rest_split
      exact ⟨rounds + 1, setAside, now, next, aside', name', ent',
        dispatchLoop_assign best ran loop, made, legal⟩
  | @skip aside s mid last name key skip ent out skipped serving best ran head rest ih =>
    obtain ⟨rounds, setAside, now, next, aside', name', ent', loop, made, legal⟩ := ih split
    exact ⟨rounds + 1, skip :: setAside, now, next, aside', name', ent',
      dispatchLoop_skip best ran loop, made, legal⟩

theorem HeadAssigned.entry_ne (head : HeadAssigned s aside mid asg ent) (other : drv ≠ asg.drv) :
    mid.entry drv = s.entry drv := by
  rw [head.entry_eq, Function.update_of_ne other]

theorem HeadAssigned.worker_self (head : HeadAssigned s aside mid asg ent) {new : Entry}
    (live : mid.entry asg.drv = some new) : new.worker = some asg.worker := by
  rw [head.entry_eq, Function.update_self, Option.some.injEq] at live
  rw [← live]

/-- What is unassigned at the end was so all the time. -/
theorem Served.entry_of_waiting (served : Served order aside s out skipped last)
    (live : last.entry drv = some ent) (waits : ent.worker = none) : s.entry drv = some ent := by
  induction served with
  | stop => exact live
  | assign serving best ran head rest ih =>
    have mid_live := ih live
    rwa [head.entry_ne] at mid_live
    rintro rfl
    simp [head.worker_self mid_live] at waits
  | skip serving best ran head rest ih =>
    obtain ⟨next, rfl⟩ := head.mid_eq
    exact ih live

/-- What is assigned on the way waited at the start. -/
theorem Served.waiting_of_mem (served : Served order aside s out skipped last) (mem : asg ∈ out) :
    ∃ ent, s.entry asg.drv = some ent ∧ ent.worker = none := by
  induction served with
  | stop => simp at mem
  | assign serving best ran head rest ih =>
    rcases List.mem_cons.mp mem with rfl | mem
    · exact ⟨_, head.urgent.live, head.urgent.waiting⟩
    · obtain ⟨ent, live, waits⟩ := ih mem
      refine ⟨ent, ?_, waits⟩
      rwa [head.entry_ne] at live
      intro same
      rw [same] at live
      simp [head.worker_self live] at waits
  | skip serving best ran head rest ih =>
    obtain ⟨next, rfl⟩ := head.mid_eq
    exact ih mem

theorem Served.drv_ne (rest : Served order aside mid out skipped last)
    (head : HeadAssigned s aside mid asg ent) {other : Assign} (mem : other ∈ out) :
    other.drv ≠ asg.drv := by
  intro same
  obtain ⟨new, live, waits⟩ := rest.waiting_of_mem mem
  rw [same] at live
  simp [head.worker_self live] at waits

theorem Served.nodup (served : Served order aside s out skipped last) : (out.map Assign.drv).Nodup := by
  induction served with
  | stop => exact List.nodup_nil
  | assign serving best ran head rest ih =>
    refine List.nodup_cons.mpr ⟨fun mem => ?_, ih⟩
    obtain ⟨other, other_mem, same⟩ := List.mem_map.mp mem
    exact rest.drv_ne head other_mem same
  | skip serving best ran head rest ih => exact ih

/-- Whether an entry can be placed does not depend on what the workers run. -/
theorem placeable_of_roster {s' : Core} (same : s'.roster = s.roster) : s'.placeable = s.placeable := by
  have by_roster : ∀ t : Core, t.placeable =
      fun ent => t.roster.any fun wkr => wkr.takesWork && offers wkr ent := by
    intro t
    funext ent
    simp only [placeable, roster, List.any_map]
    rfl
  rw [by_roster, by_roster, same]

/-- What a dispatch does to entries and workers. -/
structure Places (s : Core) (out : List Assign) (s' : Core) : Prop where
  nodup : (out.map Assign.drv).Nodup
  placed : ∀ asg ∈ out, ∃ ent wkr, s.entry asg.drv = some ent ∧ ent.worker = none ∧
    s.placeable ent = true ∧ s.roster[asg.worker]? = some wkr ∧ wkr.up = true ∧
    s'.entry asg.drv = some { ent with worker := some asg.worker, assignId := asg.assignId }
  other : ∀ drv, (∀ asg ∈ out, asg.drv ≠ drv) → s'.entry drv = s.entry drv
  roster_eq : s'.roster = s.roster
  follows_eq : s'.follows = s.follows

section Results

variable (served : Served order aside s out skipped last)
include served

theorem Served.entry_other (other : ∀ asg ∈ out, asg.drv ≠ drv) : last.entry drv = s.entry drv := by
  induction served with
  | stop => rfl
  | assign serving best ran head rest ih =>
    rw [ih fun asg mem => other asg (List.mem_cons_of_mem _ mem)]
    exact head.entry_ne (other _ List.mem_cons_self).symm
  | skip serving best ran head rest ih =>
    obtain ⟨next, rfl⟩ := head.mid_eq
    exact ih other

theorem Served.placed (mem : asg ∈ out) :
    ∃ ent wkr, s.entry asg.drv = some ent ∧ ent.worker = none ∧ s.placeable ent = true ∧
      s.roster[asg.worker]? = some wkr ∧ wkr.up = true ∧
      last.entry asg.drv = some { ent with worker := some asg.worker, assignId := asg.assignId } := by
  induction served with
  | stop => simp at mem
  | @assign aside s mid last name key head_asg ent out skipped serving best ran head rest ih =>
    rcases List.mem_cons.mp mem with rfl | mem
    · obtain ⟨wkr, get_eq, room, -⟩ := head.fits
      refine ⟨ent, { wkr with running := [] }, head.urgent.live, head.urgent.waiting,
        placeable_iff.mpr ⟨_, head.fits.serves⟩, by simp [roster, get_eq],
        Worker.up_of_takesWork room.1, ?_⟩
      rw [rest.entry_other fun other other_mem => rest.drv_ne head other_mem, head.entry_eq,
        Function.update_self]
    · obtain ⟨ent', wkr, live, waits, can, get_eq, up, last_eq⟩ := ih mem
      rw [head.entry_ne (rest.drv_ne head mem)] at live
      rw [head.keeps.2.1] at get_eq
      refine ⟨ent', wkr, live, waits, ?_, get_eq, up, last_eq⟩
      rwa [placeable_of_roster head.keeps.2.1] at can
  | skip serving best ran head rest ih =>
    obtain ⟨next, rfl⟩ := head.mid_eq
    exact ih mem

/-- What is placed goes to a worker that takes work. -/
theorem Served.takesWork (mem : asg ∈ out) :
    ∃ wkr, s.roster[asg.worker]? = some wkr ∧ wkr.takesWork = true := by
  induction served with
  | stop => simp at mem
  | assign serving best ran head rest ih =>
    rcases List.mem_cons.mp mem with rfl | mem
    · obtain ⟨wkr, get_eq, room, -⟩ := head.fits
      exact ⟨{ wkr with running := [] }, by simp [roster, get_eq], room.1⟩
    · rw [← head.keeps.2.1]
      exact ih mem
  | skip serving best ran head rest ih =>
    obtain ⟨next, rfl⟩ := head.mid_eq
    exact ih mem

end Results

theorem Inv.dispatch_takesWork (inv : Inv s) (ran : Core.dispatch order s = .ok out s') (mem : asg ∈ out) :
    ∃ wkr, s.roster[asg.worker]? = some wkr ∧ wkr.takesWork = true := by
  obtain ⟨out', skipped, last, next, ran', -, served, -⟩ := inv.dispatch order
  cases ran'.symm.trans ran
  exact served.takesWork mem

/-- A dispatch always ends, and places some of the waiting entries. -/
theorem Inv.dispatch_places (inv : Inv s) (order : VisitOrder) :
    ∃ out s', Core.dispatch order s = .ok out s' ∧ Inv s' ∧ Places s out s' := by
  obtain ⟨out, skipped, last, next, ran, last_inv, served, -⟩ := inv.dispatch order
  exact ⟨out, _, ran, last_inv, served.nodup, fun asg mem => served.placed mem,
    fun drv other => served.entry_other other, served.keeps.2.1, served.keeps.2.2⟩

/-! ## Entries that no worker can take -/

/-- Only the avoided worker has room for the entry, and others could take it later. -/
def Stuck (s : Core) (ent : Entry) : Prop :=
  ∀ wid, s.Fits ent wid → some wid = ent.avoid ∧ ∃ other ≠ wid, s.Serves ent other

theorem HeadAssigned.fits_of_fits (head : HeadAssigned s aside mid asg ent) {other : Entry}
    {wid : WorkerId} (fits : mid.Fits other wid) : s.Fits other wid := by
  obtain ⟨wkr, get_eq, workers_eq⟩ := head.workers_eq
  obtain ⟨new, new_eq, room, offered⟩ := fits
  rw [workers_eq] at new_eq
  rcases getElem?_set_eq_some new_eq with ⟨rfl, rfl⟩ | ⟨-, new_eq⟩
  · refine ⟨wkr, get_eq, ⟨room.1, ?_⟩, offered⟩
    have less := room.2
    simp only [List.length_append, List.length_singleton] at less
    push_cast at less
    linarith
  · exact ⟨new, new_eq, room, offered⟩

theorem HeadAssigned.serves_of_serves (head : HeadAssigned s aside mid asg ent) {other : Entry}
    {wid : WorkerId} (serves : s.Serves other wid) : mid.Serves other wid := by
  obtain ⟨wkr, get_eq, workers_eq⟩ := head.workers_eq
  obtain ⟨old, old_eq, takes, offered⟩ := serves
  unfold Serves
  rw [workers_eq]
  by_cases same : wid = asg.worker
  · subst same
    cases get_eq.symm.trans old_eq
    exact ⟨_, List.getElem?_set_self (List.getElem?_eq_some_iff.mp get_eq).1, takes, offered⟩
  · exact ⟨old, by rwa [List.getElem?_set_ne (Ne.symm same)], takes, offered⟩

theorem HeadAssigned.stuck (head : HeadAssigned s aside mid asg ent) {other : Entry}
    (stuck : s.Stuck other) : mid.Stuck other := by
  intro wid fits
  obtain ⟨avoided, server, server_ne, serves⟩ := stuck wid (head.fits_of_fits fits)
  exact ⟨avoided, server, server_ne, head.serves_of_serves serves⟩

/-- All that is set aside is stuck. -/
def AsideStuck (s : Core) (aside : Set DrvId) : Prop :=
  ∀ drv ∈ aside, ∀ ent, s.entry drv = some ent → s.Stuck ent

theorem AsideStuck.assign (all : AsideStuck s aside) (head : HeadAssigned s aside mid asg ent) :
    AsideStuck mid aside := by
  intro drv mem other live
  rw [head.entry_ne (ne_of_mem_of_not_mem mem head.urgent.fresh)] at live
  exact head.stuck (all drv mem other live)

theorem AsideStuck.skip {skip : Skipped} (all : AsideStuck s aside)
    (head : HeadSkipped s aside mid skip ent) : AsideStuck mid (insert skip.drv aside) := by
  obtain ⟨next, rfl⟩ := head.mid_eq
  rintro drv (rfl | mem) other live
  · cases head.urgent.live.symm.trans live
    exact head.no_fit
  · exact all drv mem other live

theorem Served.asideStuck (served : Served order aside s out skipped last)
    (all : AsideStuck s aside) : AsideStuck last (asideAfter aside skipped) := by
  induction served with
  | stop serving best => simpa [asideAfter] using all
  | assign serving best ran head rest ih => exact ih (all.assign head)
  | @skip aside s mid last name key skip ent out skipped serving best ran head rest ih =>
    rw [← asideAfter_insert]
    exact ih (all.skip head)

/-- At the end, everything that waits is stuck. -/
theorem Served.stuck_last (served : Served order ∅ s out skipped last)
    (live : last.entry drv = some ent) (waits : ent.worker = none) : last.Stuck ent := by
  obtain ⟨serving, best⟩ := served.serving_last
  by_cases mem : drv ∈ asideAfter ∅ skipped
  · exact served.asideStuck (fun _ mem => absurd mem (Set.notMem_empty _)) drv mem ent live
  · rintro wid ⟨wkr, get_eq, room, offered⟩
    have room_for : last.RoomFor ent.system := ⟨wid, wkr, get_eq, mem_systems_of_offers offered, room⟩
    obtain ⟨key, -, ready⟩ := serving.ready_of_waiting mem live waits room_for
    exact absurd ready (bestSystem_eq_none best ent.system key)

/-! ## Priority -/

theorem offers_of_same {wkr other : Worker}
    (same : { wkr with running := [] } = { other with running := [] }) (ent : Entry) :
    offers wkr ent = offers other ent := by
  change offers { wkr with running := [] } ent = offers { other with running := [] } ent
  rw [same]

/-- A worker that takes a less urgent entry does not offer a more urgent one, or is avoided by it. -/
theorem Served.no_inversion {taken : Entry} {wkr : Worker}
    (served : Served order aside s out skipped last) (all : AsideStuck s aside) (mem : asg ∈ out)
    (live : last.entry drv = some ent) (waits : ent.worker = none)
    (had : s.entry asg.drv = some taken) (less : prio s.cfg ent < prio s.cfg taken)
    (get_eq : s.workers[asg.worker]? = some wkr) (offered : offers wkr ent = true) :
    ent.avoid = some asg.worker := by
  induction served generalizing wkr with
  | stop => simp at mem
  | @assign aside s mid last name key first firstEnt out skipped serving best ran head rest ih =>
    rcases List.mem_cons.mp mem with rfl | mem
    · have start_live := (Served.assign serving best ran head rest).entry_of_waiting live waits
      cases head.urgent.live.symm.trans had
      obtain ⟨wkr', get_eq', room, -⟩ := head.fits
      cases get_eq.symm.trans get_eq'
      by_cases set_aside : drv ∈ aside
      · exact (all drv set_aside ent start_live asg.worker ⟨wkr, get_eq, room, offered⟩).1.symm
      · have first_le := head.urgent.first drv set_aside ent start_live waits
          ⟨asg.worker, wkr, get_eq, mem_systems_of_offers offered, room⟩
        exact absurd less (not_lt.mpr first_le)
    · obtain ⟨cfg_eq, roster_eq, -⟩ := head.keeps
      obtain ⟨next, next_eq, same⟩ := get_of_roster roster_eq get_eq
      refine ih (all.assign head) mem live ?_ (by rwa [cfg_eq]) next_eq ?_
      · rw [head.entry_ne (rest.drv_ne head mem), had]
      · rwa [offers_of_same same]
  | skip serving best ran head rest ih =>
    obtain ⟨next, rfl⟩ := id head.mid_eq
    exact ih (all.skip head) mem live had less get_eq offered

end Served

/-! ## Main results -/

section Main

variable {s s' : Core} {log out : List Assign} {order : VisitOrder}

/-- An assignment that is legal in the state it is made in. -/
def Legal (s : Core) (asg : Assign) : Prop :=
  ∃ ent wkr, s.entry asg.drv = some ent ∧ ent.worker = none ∧ ent.followers ≠ [] ∧
    asg.clients = ent.followers ∧ s.workers[asg.worker]? = some wkr ∧ wkr.up = true ∧
    wkr.draining = false ∧ ent.system ∈ wkr.systems ∧
    (∀ feat ∈ ent.features, feat ∈ wkr.features) ∧ (wkr.running.length : ℤ) < wkr.maxJobs ∧
    (ent.avoid = some asg.worker → ∀ other otherWkr, s.workers[other]? = some otherWkr →
      other ≠ asg.worker → otherWkr.takesWork = true → offers otherWkr ent = false)

theorem HeadAssigned.legal {mid : Core} {aside : Set DrvId} {asg : Assign} {ent : Entry}
    (head : HeadAssigned s aside mid asg ent) : Legal s asg := by
  obtain ⟨wkr, get_eq, room, offered⟩ := head.fits
  have takes := room.1
  simp only [Worker.takesWork, Bool.and_eq_true, Bool.not_eq_true'] at takes
  refine ⟨ent, wkr, head.urgent.live, head.urgent.waiting, head.urgent.followed, head.clients_eq,
    get_eq, takes.1.1, takes.1.2, mem_systems_of_offers offered, ?_, room.2, ?_⟩
  · simp only [offers, Bool.and_eq_true, List.all_eq_true, List.contains_eq_mem, decide_eq_true_eq] at offered
    exact offered.2
  · intro avoided other otherWkr other_eq other_ne other_takes
    rw [← Bool.not_eq_true]
    intro other_offers
    refine head.avoid_alone avoided.symm other ?_ ⟨otherWkr, other_eq, other_takes, other_offers⟩
    rw [avoided]
    exact fun same => other_ne (Option.some.inj same)

/-- Every assignment is legal in the state of the loop in which it is made, has an id beyond all
given before, and no derivation is assigned twice. -/
theorem dispatch_legal (reached : Reached s log) (ok : Core.dispatch order s = .ok out s') :
    (out.map Assign.drv).Nodup ∧
      ∀ earlier asg later, out = earlier ++ asg :: later →
        (∃ rounds setAside mid mid' name,
          Core.dispatchLoop order rounds s = .ok (earlier, setAside) mid ∧
            Core.dispatchHead name mid = .ok (.assigned asg) mid' ∧ Legal mid asg) ∧
        ∀ old ∈ log ++ earlier, old.assignId < asg.assignId := by
  obtain ⟨inv, log_le⟩ := reached.inv
  obtain ⟨out', skipped, last, next, next_ok, -, served, -⟩ := inv.dispatch order
  obtain ⟨rfl, -⟩ := EStateM.Result.ok.inj (next_ok.symm.trans ok)
  obtain ⟨-, ids, increasing⟩ := served.ids
  refine ⟨served.nodup, fun earlier asg later split => ⟨?_, fun old mem => ?_⟩⟩
  · obtain ⟨rounds, setAside, mid, mid', _, name, _, loop, made, head⟩ := served.moment split
    exact ⟨rounds, setAside, mid, mid', name, loop, made, head.legal⟩
  · rcases List.mem_append.mp mem with mem | mem
    · exact (log_le old mem).trans_lt (ids asg (by simp [split])).1
    · rw [split, List.pairwise_append] at increasing
      exact increasing.2.2 old mem asg List.mem_cons_self

/-- The worker of `twoSystems` takes the derivation of its system. -/
def linuxAssign : Assign := { drv := 1, worker := 0, assignId := 1, clients := [8] }

theorem twoSystems_dispatch : ∃ s s', Core.runAll twoSystems {} = .ok [] s ∧ Reached s [] ∧
    Core.dispatch default s = .ok [linuxAssign] s' := by
  obtain ⟨s, ok, reached⟩ := twoSystems_reached
  have value_eq : value ((do let _ ← Core.runAll twoSystems; Core.dispatch default) {}) =
      some [linuxAssign] := by
    decide +kernel
  obtain ⟨s', dispatched⟩ := eq_ok_of_value value_eq
  rw [bind_of_ok ok] at dispatched
  exact ⟨s, s', ok, reached, dispatched⟩

theorem dispatch_legal_twoSystems : ∃ s s' mid, Reached s [] ∧
    Core.dispatch default s = .ok [linuxAssign] s' ∧ Legal mid linuxAssign := by
  obtain ⟨s, s', -, reached, dispatched⟩ := twoSystems_dispatch
  obtain ⟨-, legal⟩ := dispatch_legal reached dispatched
  obtain ⟨⟨_, _, mid, _, _, _, _, is_legal⟩, -⟩ := legal [] linuxAssign [] rfl
  exact ⟨s, s', mid, reached, dispatched, is_legal⟩

/-- Dispatch ends by the exit condition of its loop.  In the state it leaves, a worker with room
that offers a queued entry is the one that entry avoids, and another worker could take it; so
if nothing runs, nothing that is queued is placeable. -/
theorem dispatch_work_conserving (reached : Reached s log) (order : VisitOrder) :
    ∃ out skipped last s',
      Core.dispatchLoop order s.entries.length s = .ok (out, skipped) last ∧
        last.bestSystem order = none ∧ Core.dispatch order s = .ok out s' ∧
        (∀ name drv key ent, s'.systems.key name drv = some key → s'.entry drv = some ent →
          ∀ wid wkr, s'.workers[wid]? = some wkr → wkr.takesWork = true → offers wkr ent = true →
            (wkr.running.length : ℤ) < wkr.maxJobs →
            ent.avoid = some wid ∧ ∃ other otherWkr, other ≠ wid ∧
              s'.workers[other]? = some otherWkr ∧ otherWkr.takesWork = true ∧
              offers otherWkr ent = true) ∧
        ((∀ wkr ∈ s'.workers, wkr.running = []) →
          ∀ name drv key ent, s'.systems.key name drv = some key → s'.entry drv = some ent →
            s'.placeable ent = false) := by
  obtain ⟨inv, -⟩ := reached.inv
  obtain ⟨out, skipped, last, next, next_ok, next_inv, served, loop⟩ := inv.dispatch order
  have stuck : ∀ name drv key ent, next.key name drv = some key → last.entry drv = some ent →
      last.Stuck ent := by
    intro name drv key ent queued live
    obtain ⟨ent', live', waits, -, -⟩ := (next_inv.bookkeeping.queued_iff name drv key).mp queued
    cases live.symm.trans live'
    exact served.stuck_last live waits
  refine ⟨out, skipped, last, _, loop, served.serving_last.2, next_ok, ?_, ?_⟩
  · intro name drv key ent queued live wid wkr get_eq takes offered less
    obtain ⟨avoided, other, other_ne, otherWkr, other_eq, other_takes, other_offers⟩ :=
      stuck name drv key ent queued live wid ⟨wkr, get_eq, ⟨takes, less⟩, offered⟩
    exact ⟨avoided.symm, other, otherWkr, other_ne, other_eq, other_takes, other_offers⟩
  · intro idle name drv key ent queued live
    by_contra placeable
    rw [Bool.not_eq_false, placeable_iff] at placeable
    -- an idle worker that serves the entry has room, so it is the avoided one; but another serves it
    have avoided : ∀ wid, last.Serves ent wid → some wid = ent.avoid ∧
        ∃ other ≠ wid, last.Serves ent other := by
      rintro wid ⟨wkr, get_eq, takes, offered⟩
      refine stuck name drv key ent queued live wid ⟨wkr, get_eq, ⟨takes, ?_⟩, offered⟩
      rw [idle wkr (List.mem_of_getElem? get_eq)]
      exact_mod_cast Worker.maxJobs_pos_of_takesWork takes
    obtain ⟨wid, serves⟩ := placeable
    obtain ⟨wid_avoided, other, other_ne, other_serves⟩ := avoided wid serves
    exact other_ne (Option.some.inj ((avoided other other_serves).1.trans wid_avoided.symm))

theorem dispatch_work_conserving_twoSystems : ∃ s last : Core, Reached s [] ∧
    last.bestSystem default = none ∧ ∃ s', Core.dispatch default s = .ok [linuxAssign] s' := by
  obtain ⟨s, s', -, reached, dispatched⟩ := twoSystems_dispatch
  obtain ⟨_, _, last, _, -, best, -⟩ := dispatch_work_conserving reached default
  exact ⟨s, last, reached, best, s', dispatched⟩

/-- A dispatch that assigns a derivation to a worker leaves no more urgent derivation waiting that
the worker offers, unless that one avoids the worker. -/
theorem dispatch_no_inversion (reached : Reached s log) (ok : Core.dispatch order s = .ok out s')
    {asg : Assign} (mem : asg ∈ out) {drv : DrvId} {name laterName takenName : String}
    {key laterKey takenKey : ℚ} (before : s.systems.key name drv = some key)
    (after : s'.systems.key laterName drv = some laterKey)
    (had : s.systems.key takenName asg.drv = some takenKey) (less : key < takenKey) {ent : Entry}
    (live : s.entry drv = some ent) {wkr : Worker} (get_eq : s.workers[asg.worker]? = some wkr) :
    offers wkr ent = false ∨ ent.avoid = some asg.worker := by
  obtain ⟨inv, -⟩ := reached.inv
  obtain ⟨out', skipped, last, next, next_ok, next_inv, served, -⟩ := inv.dispatch order
  cases next_ok.symm.trans ok
  obtain ⟨taken, taken_live, -, -, taken_key⟩ := (inv.bookkeeping.queued_iff takenName asg.drv takenKey).mp had
  obtain ⟨ent', live', -, -, ent_key⟩ := (inv.bookkeeping.queued_iff name drv key).mp before
  cases live.symm.trans live'
  obtain ⟨kept, kept_live, kept_waits, -, -⟩ :=
    (next_inv.bookkeeping.queued_iff laterName drv laterKey).mp after
  obtain rfl : ent = kept := Option.some.inj (live.symm.trans (served.entry_of_waiting kept_live kept_waits))
  rw [or_iff_not_imp_left, Bool.not_eq_false]
  intro offered
  refine served.no_inversion (fun _ mem => absurd mem (Set.notMem_empty _)) mem kept_live kept_waits
    taken_live ?_ get_eq offered
  rwa [ent_key, taken_key]

theorem dispatch_no_inversion_twoSystems : ∃ (s s' : Core) (ent : Entry) (wkr : Worker),
    Core.dispatch default s = .ok [linuxAssign] s' ∧ s.entry 0 = some ent ∧
      s.workers[0]? = some wkr ∧ (offers wkr ent = false ∨ ent.avoid = some 0) := by
  obtain ⟨s, s', ok, reached, dispatched⟩ := twoSystems_dispatch
  have s_eq : s = after (Core.runAll twoSystems {}) := by rw [ok]; rfl
  have s'_eq : s' = after (Core.dispatch default (after (Core.runAll twoSystems {}))) := by
    rw [← s_eq, dispatched]
    rfl
  have urgent_key : s.systems.key "aarch64-darwin" 0 = some (-10) := by
    rw [s_eq]
    decide +kernel
  have urgent_kept : s'.systems.key "aarch64-darwin" 0 = some (-10) := by
    rw [s'_eq]
    decide +kernel
  have taken_key : s.systems.key "x86_64-linux" 1 = some 0 := by
    rw [s_eq]
    decide +kernel
  obtain ⟨ent, live, -⟩ := (reached.inv.1.bookkeeping.queued_iff _ _ _).mp urgent_key
  have known : (s.workers[0]?).isSome := by
    rw [s_eq]
    decide +kernel
  obtain ⟨wkr, get_eq⟩ := Option.isSome_iff_exists.mp known
  exact ⟨s, s', ent, wkr, dispatched, live, get_eq,
    dispatch_no_inversion reached dispatched List.mem_cons_self urgent_key urgent_kept taken_key
      (by norm_num) live get_eq⟩

/-! ## Nothing more to do -/

/-- Where everything that waits is stuck, the loop assigns nothing. -/
theorem Served.settled {aside : Set DrvId} {last : Core} {skipped : List Skipped}
    (served : Served order aside s out skipped last)
    (stuck : ∀ drv ent, s.entry drv = some ent → ent.worker = none → s.Stuck ent) :
    out = [] ∧ ∃ next, last = { s with systems := next } := by
  induction served with
  | stop => exact ⟨rfl, _, rfl⟩
  | assign serving best ran head rest ih =>
    -- the picked worker would be the avoided one, which is picked only if no other serves the entry
    obtain ⟨avoided, other, other_ne, serves⟩ := stuck _ _ head.urgent.live head.urgent.waiting _ head.fits
    refine absurd serves (head.avoid_alone avoided other ?_)
    rw [← avoided]
    exact fun same => other_ne (Option.some.inj same)
  | skip serving best ran head rest ih =>
    obtain ⟨next, rfl⟩ := head.mid_eq
    exact ih stuck

/-- A dispatch leaves nothing for another one: whatever order the next visits the systems in, its loop
ends by its exit condition, it assigns nothing, changes no entry and no worker, and puts all it set aside
back under the key it had. -/
theorem dispatch_settles (reached : Reached s log) (ok : Core.dispatch order s = .ok out s')
    (again : VisitOrder) :
    ∃ skipped last s'', Core.dispatchLoop again s'.entries.length s' = .ok ([], skipped) last ∧
      last.bestSystem again = none ∧ Core.dispatch again s' = .ok [] s'' ∧ s''.entry = s'.entry ∧
      s''.workers = s'.workers ∧ s''.lastAssignId = s'.lastAssignId ∧
      ∀ name drv, s''.systems.key name drv = s'.systems.key name drv := by
  obtain ⟨_, _, last, next, first_ok, inv', served, -⟩ := reached.inv.1.dispatch order
  cases first_ok.symm.trans ok
  obtain ⟨none_out, skipped, last', next', again_ok, inv'', served', loop⟩ := inv'.dispatch again
  have stopped := served'.serving_last.2
  obtain ⟨rfl, _, rfl⟩ := served'.settled fun drv ent live waits => served.stuck_last live waits
  refine ⟨skipped, _, _, loop, stopped, again_ok, rfl, rfl, rfl, fun name drv => Option.ext fun key => ?_⟩
  exact (inv''.bookkeeping.queued_iff name drv key).trans (inv'.bookkeeping.queued_iff name drv key).symm

theorem dispatch_settles_twoSystems : ∃ s s' s'', Reached s [] ∧ Core.dispatch default s = .ok [linuxAssign] s' ∧
    Core.dispatch default s' = .ok [] s'' := by
  obtain ⟨s, s', -, reached, dispatched⟩ := twoSystems_dispatch
  obtain ⟨-, -, s'', -, -, again, -⟩ := dispatch_settles reached dispatched default
  exact ⟨s, s', s'', reached, dispatched, again⟩

end Main

end Core

end NixGrpcStore.Sched
