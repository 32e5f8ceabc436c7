import NixGrpcStore.Sched.Books

/-!
# What the operations of the core do

All books of the core together are its invariant.  Between the primitive steps of an operation it
holds up to the entries and workers the operation is still busy with.  Where the invariant holds,
the core is determined by two views: `entry`, the live entries by slot, and `roster`, the workers
without their running lists.  Each operation is specified by what it does to these.
-/

namespace NixGrpcStore.Sched

open StateExcept

namespace Core

/-- The invariant up to some entries and workers. -/
structure InvOff (s : Core) (aside : Set DrvId) (stale : Set WorkerId) : Prop where
  ids : Ids (slotKeys s.entries) s.freeIds s.drvIds
  queues : Queues s.cfg s.entry s.systems.key aside
  runs : Runs s.entry s.workers aside
  counts : Counts s.workers s.systems.free stale
  addrs : Addrs s.workers s.workerIds

/-- The bookkeeping invariant of the core. -/
def Inv (s : Core) : Prop := InvOff s ∅ ∅

/-- The workers, without what they run. -/
def roster (s : Core) : List Worker := s.workers.map fun wkr => { wkr with running := [] }

theorem inv_empty (cfg : Config) : Inv { cfg } where
  ids := ⟨by simp [slotKeys], List.nodup_nil, by simp [slotKeys], by simp [slotKeys]⟩
  queues := ⟨by simp, by simp, by simp [entry], by simp [entry], by simp [entry]⟩
  runs := ⟨by simp, by simp [entry], by simp, by simp⟩
  counts := ⟨by simp, by simp, by simp, by simp⟩
  addrs := by simp [Addrs]

variable {s : Core} {aside : Set DrvId} {stale : Set WorkerId} {drv : DrvId} {wid : WorkerId}
  {ent : Entry} {wkr : Worker}

theorem entryAt_of_entry (live : s.entry drv = some ent) : entryAt drv s = .ok (some ent) s := by
  simp [entryAt, getElem?_of_entry live]

theorem workerAt_of_get (get_eq : s.workers[wid]? = some wkr) : workerAt wid s = .ok wkr s := by
  simp [workerAt, get_eq]

theorem workerAt_of_none (get_eq : s.workers[wid]? = none) :
    workerAt wid s = .error .outOfRange s := by
  simp [workerAt, get_eq]

theorem onSystems_of_ok {change : Systems → Except Error Systems} {next : Systems}
    (ok : change s.systems = .ok next) : onSystems change s = .ok () { s with systems := next } := by
  simp [onSystems, ok]

section Reads

variable (inv : InvOff s aside stale)
include inv

/-- Slots and live entries are found by path. -/
theorem InvOff.findDrv_iff (path : String) (drv : DrvId) :
    s.findDrv path = some drv ↔
      ∃ ent, s.entry drv = some ent ∧ ent.pathKey = PathKey.ofPath path := by
  rw [findDrv, inv.ids.id_iff]
  simp only [slotKeys, List.getElem?_map, Option.map_eq_some_iff, entry, Option.join_eq_some_iff]
  constructor
  · rintro ⟨slot, slot_eq, ent, rfl, key_eq⟩
    exact ⟨ent, slot_eq, key_eq⟩
  · rintro ⟨ent, slot_eq, key_eq⟩
    exact ⟨some ent, slot_eq, ent, rfl, key_eq⟩

theorem InvOff.ne_npos (live : s.entry drv = some ent) : drv ≠ IndexedHeap.npos := by
  have drv_lt := lt_of_entry live
  have length_le := inv.ids.length_le
  rw [slotKeys, List.length_map] at length_le
  intro drv_eq
  subst drv_eq
  exact absurd (drv_lt.trans_le length_le) (by decide)

/-! ## Primitive steps -/

theorem InvOff.withSystems {next : Systems} {aside' : Set DrvId}
    {stale' : Set WorkerId} (queues : Queues s.cfg s.entry next.key aside')
    (runs : Runs s.entry s.workers aside') (counts : Counts s.workers next.free stale') :
    InvOff { s with systems := next } aside' stale' :=
  ⟨inv.ids, queues, runs, counts, inv.addrs⟩

theorem InvOff.refreshFree (get_eq : s.workers[wid]? = some wkr) :
    ∃ next, Core.refreshFree wid s = .ok () { s with systems := next } ∧
      InvOff { s with systems := next } aside (stale \ {wid}) ∧ next.key = s.systems.key := by
  obtain ⟨next, next_ok, counted⟩ := s.systems.setFreeAll_ok wid wkr.slots wkr.systems
    (inv.counts.known wid wkr get_eq)
  have key_eq : next.key = s.systems.key := funext₂ counted.key_eq
  refine ⟨next, ?_, inv.withSystems (key_eq ▸ inv.queues) inv.runs ?_, key_eq⟩
  · rw [Core.refreshFree, bind_of_ok (workerAt_of_get get_eq)]
    exact onSystems_of_ok next_ok
  · exact inv.counts.refresh get_eq counted.free_eq

/-- Queueing an entry that waits settles it. -/
theorem InvOff.enqueue (live : s.entry drv = some ent)
    (idle : ent.worker = none) (followed : ent.followers ≠ []) :
    ∃ next, Core.enqueue drv ent s = .ok () { s with systems := next } ∧
      InvOff { s with systems := next } (aside \ {drv}) stale := by
  obtain ⟨next, next_ok, rekeyed⟩ := s.systems.setKey_ok ent.system (inv.ne_npos live) (prio s.cfg ent)
  have free_eq : next.free = s.systems.free := funext₂ rekeyed.free_eq
  refine ⟨next, ?_, inv.withSystems ?_ ?_ (free_eq ▸ inv.counts)⟩
  · rw [Core.enqueue, bind_get_apply]
    exact onSystems_of_ok next_ok
  · refine inv.queues.settle live (fun _ => followed) fun name id => ?_
    rw [rekeyed.key_eq]
    split
    · rename_i own
      simp [queueKey, idle, own.1]
    · rfl
  · refine inv.runs.settle fun other other_live => ?_
    rw [live] at other_live
    exact Option.some.inj other_live ▸ idle

/-- Leaving the queue changes no other key and no count that a worker needs. -/
theorem InvOff.unqueue (live : s.entry drv = some ent) :
    ∃ next, Core.unqueue drv ent s = .ok () { s with systems := next } ∧
      (∀ name id, next.key name id = if id = drv then none else s.systems.key name id) ∧
      Counts s.workers next.free stale := by
  rw [Core.unqueue, bind_get_apply]
  by_cases known : ent.system ∈ s.systems
  · obtain ⟨next, next_ok, rekeyed⟩ := s.systems.eraseKey_ok ent.system drv
    have next_key : ∀ name id, next.key name id =
        if id = drv then none else s.systems.key name id := by
      intro name id
      rw [rekeyed.key_eq]
      by_cases id_drv : id = drv
      · subst id_drv
        by_cases own : name = ent.system
        · simp [own]
        · simp [own, inv.queues.key_other live (Ne.symm own)]
      · simp [id_drv]
    have free_eq : next.free = s.systems.free := funext₂ rekeyed.free_eq
    rw [if_pos known, bind_of_ok (onSystems_of_ok next_ok), modify_apply]
    split
    · rename_i unused
      refine ⟨next.drop ent.system, rfl, fun name id => ?_, ?_⟩
      · rw [next.key_drop, next_key]
        intro id
        rw [next.key_eq_sys]
        exact (next.sys ent.system).queue.size_eq_zero_iff.mp unused.1 id
      · have not_offered : ∀ wkr ∈ s.workers, ent.system ∉ wkr.systems := by
          intro wkr mem listed
          exact unused.2 (List.any_eq_true.mpr ⟨wkr, mem, by simpa using listed⟩)
        refine inv.counts.drop not_offered fun other wid => ?_
        rw [next.free_drop, free_eq]
    · exact ⟨next, rfl, next_key, free_eq ▸ inv.counts⟩
  · rw [if_neg known, pure_apply]
    refine ⟨s.systems, rfl, fun name id => ?_, inv.counts⟩
    by_cases id_drv : id = drv
    · subst id_drv
      rw [if_pos rfl]
      by_contra queued
      have own : ent.system = name := by
        by_contra other
        exact queued (inv.queues.key_other live other)
      exact known (own ▸ Systems.mem_of_key (Option.isSome_iff_ne_none.mpr queued))
    · rw [if_neg id_drv]

/-- Retiring an entry that is set aside settles it. -/
theorem InvOff.retire (mem : drv ∈ aside) (live : s.entry drv = some ent) :
    ∃ s', Core.retire drv s = .ok () s' ∧ InvOff s' (aside \ {drv}) stale ∧
      s'.entry = Function.update s.entry drv none ∧
      s' = { s with
        systems := s'.systems, drvIds := s'.drvIds, entries := s'.entries, freeIds := s'.freeIds } := by
  obtain ⟨next, next_ok, next_key, counts⟩ := inv.unqueue live
  have drv_lt := lt_of_entry live
  have entry_eq : (fun id => ((s.entries.set drv none)[id]?).join) =
      Function.update s.entry drv none := join_getElem?_set drv_lt none
  refine ⟨{ s with
      systems := next
      drvIds := s.drvIds.erase ent.pathKey
      entries := s.entries.set drv none
      freeIds := drv :: s.freeIds }, ?_, ⟨?_, ?_, ?_, counts, inv.addrs⟩, entry_eq, rfl⟩
  · rw [Core.retire, bind_of_ok (entryAt_of_entry live)]
    simp only
    rw [bind_of_ok next_ok, modify_apply]
  · have slot_eq : (slotKeys s.entries)[drv]? = some (some ent.pathKey) := by
      simp [slotKeys, getElem?_of_entry live]
    simpa [slotKeys, List.map_set] using inv.ids.retire slot_eq
  · have queues := inv.queues.remove next_key
    rwa [← entry_eq] at queues
  · have runs : Runs _ _ (aside \ {drv}) := (inv.runs.replace mem none).settle (by simp)
    rwa [← entry_eq] at runs

end Reads

/-- What an operation that only touches entries leaves alone. -/
structure Keeps (s s' : Core) : Prop where
  cfg : s'.cfg = s.cfg
  roster : s'.roster = s.roster
  follows : s'.follows = s.follows
  lastAssignId : s'.lastAssignId = s.lastAssignId

theorem Keeps.refl (s : Core) : Keeps s s := ⟨rfl, rfl, rfl, rfl⟩

theorem Keeps.trans {s s' s'' : Core} (first : Keeps s s') (second : Keeps s' s'') : Keeps s s'' :=
  ⟨second.cfg.trans first.cfg, second.roster.trans first.roster,
    second.follows.trans first.follows, second.lastAssignId.trans first.lastAssignId⟩

section Writes

variable (inv : InvOff s aside stale)
include inv

theorem InvOff.setAside (live : s.entry drv = some ent)
    (idle : ent.worker = none) : InvOff s (insert drv aside) stale :=
  ⟨inv.ids, inv.queues.setAside live, inv.runs.setAside live idle, inv.counts, inv.addrs⟩

theorem InvOff.mono {stale' : Set WorkerId} (le : stale ⊆ stale') : InvOff s aside stale' :=
  ⟨inv.ids, inv.queues, inv.runs, inv.counts.mono le, inv.addrs⟩

/-- An entry that is set aside may change, except for its path and its system. -/
theorem InvOff.setEntry_aside (new : Entry) (mem : drv ∈ aside)
    (live : s.entry drv = some ent) (path_eq : new.pathKey = ent.pathKey)
    (system_eq : new.system = ent.system) (named : new.followers ≠ [] → new.system ≠ "") :
    InvOff { s with entries := s.entries.set drv (some new) } aside stale := by
  have entry_eq := entry_set (lt_of_entry live) (some new)
  refine ⟨?_, ?_, ?_, inv.counts, inv.addrs⟩
  · simpa only [slotKeys_set (getElem?_of_entry live) path_eq] using inv.ids
  · rw [entry_eq]
    exact inv.queues.replace mem live system_eq named
  · rw [entry_eq]
    exact inv.runs.replace mem (some new)

/-- An entry may change while its path, its worker and its expected keys stay. -/
theorem InvOff.setEntry (new : Entry) (not_mem : drv ∉ aside) (live : s.entry drv = some ent)
    (path_eq : new.pathKey = ent.pathKey) (worker_eq : new.worker = ent.worker)
    (key_eq : ∀ name, queueKey s.cfg name new = queueKey s.cfg name ent)
    (followed : new.worker = none → new.followers ≠ [])
    (named : new.followers ≠ [] → new.system ≠ "") :
    InvOff { s with entries := s.entries.set drv (some new) } aside stale := by
  have entry_eq := entry_set (lt_of_entry live) (some new)
  refine ⟨?_, ?_, ?_, inv.counts, inv.addrs⟩
  · simpa only [slotKeys_set (getElem?_of_entry live) path_eq] using inv.ids
  · rw [entry_eq]
    exact inv.queues.replace_of_key not_mem live key_eq followed named
  · rw [entry_eq]
    exact inv.runs.replace_of_worker live worker_eq

end Writes

theorem roster_set (get_eq : s.workers[wid]? = some wkr) {next : Worker}
    (same : { next with running := [] } = { wkr with running := [] }) :
    roster { s with workers := s.workers.set wid next } = s.roster := by
  exact Tally.map_set_of_eq (fun wkr => { wkr with running := [] }) get_eq same

/-- Releasing an entry from its worker sets it aside. -/
theorem InvOff.release (inv : InvOff s aside stale) (live : s.entry drv = some ent)
    (assigned : ent.worker = some wid) (not_mem : drv ∉ aside) :
    ∃ s', Core.release wid drv s = .ok () s' ∧ InvOff s' (insert drv aside) stale ∧
      s'.entry = s.entry ∧ Keeps s s' := by
  have wid_lt := inv.runs.worker_lt drv not_mem ent wid live assigned
  obtain ⟨wkr, get_eq⟩ : ∃ wkr, s.workers[wid]? = some wkr := ⟨_, List.getElem?_eq_getElem wid_lt⟩
  let stopped : Worker := { wkr with running := wkr.running.filter (· ≠ drv) }
  let freed : Core := { s with workers := s.workers.set wid stopped }
  have freed_inv : InvOff freed (insert drv aside) (insert wid stale) :=
    ⟨inv.ids, inv.queues.setAside live, inv.runs.stop get_eq live assigned,
      inv.counts.setWorker get_eq rfl (inv.counts.maxJobs_le wkr (List.mem_of_getElem? get_eq)),
      inv.addrs.set get_eq rfl⟩
  have freed_get : freed.workers[wid]? = some stopped := List.getElem?_set_self wid_lt
  obtain ⟨next, next_ok, next_inv, -⟩ := freed_inv.refreshFree freed_get
  refine ⟨{ freed with systems := next }, ?_, next_inv.mono ?_, rfl, rfl, ?_, rfl, rfl⟩
  · rw [Core.release, bind_of_ok (workerAt_of_get get_eq)]
    exact next_ok
  · rintro other ⟨rfl | mem, other_ne⟩
    · exact absurd rfl other_ne
    · exact mem
  · exact roster_set get_eq rfl

/-- Releasing an entry from a worker that does not hold it counts its slots only. -/
theorem InvOff.release_other (inv : InvOff s aside stale) (get_eq : s.workers[wid]? = some wkr)
    (not_assigned : ∀ ent, s.entry drv = some ent → ent.worker ≠ some wid) :
    ∃ s', Core.release wid drv s = .ok () s' ∧ InvOff s' aside stale ∧
      s'.entry = s.entry ∧ Keeps s s' := by
  have not_running : drv ∉ wkr.running := by
    rw [inv.runs.running_iff wid wkr get_eq]
    rintro ⟨-, ent, live, assigned⟩
    exact not_assigned ent live assigned
  have same : s.workers.set wid { wkr with running := wkr.running.filter (· ≠ drv) } = s.workers := by
    have filter_eq : wkr.running.filter (· ≠ drv) = wkr.running := by
      rw [List.filter_eq_self]
      exact fun other mem => decide_eq_true (ne_of_mem_of_not_mem mem not_running)
    rw [filter_eq]
    exact Tally.set_found get_eq
  obtain ⟨next, next_ok, next_inv, -⟩ := inv.refreshFree get_eq
  refine ⟨{ s with systems := next }, ?_, next_inv.mono Set.sdiff_subset, rfl, rfl, rfl, rfl, rfl⟩
  rw [Core.release, bind_of_ok (workerAt_of_get get_eq), setWorker, bind_modify_apply, same]
  exact next_ok

/-- Requeueing an entry that is set aside settles it. -/
theorem InvOff.requeue (inv : InvOff s aside stale) (new : Entry) (mem : drv ∈ aside)
    (live : s.entry drv = some ent) (path_eq : new.pathKey = ent.pathKey)
    (system_eq : new.system = ent.system) (followed : new.followers ≠ [] → ent.followers ≠ [])
    (idle : new.worker = none) :
    ∃ s', Core.requeue drv new s = .ok () s' ∧ InvOff s' (aside \ {drv}) stale ∧
      s'.entry = Function.update s.entry drv (if new.followers = [] then none else some new) ∧
      Keeps s s' ∧ s'.workers = s.workers := by
  have named : new.followers ≠ [] → new.system ≠ "" := by
    rw [system_eq]
    exact inv.queues.named drv ent live ∘ followed
  have written := inv.setEntry_aside new mem live path_eq system_eq named
  have entry_eq := entry_set (lt_of_entry live) (some new)
  have written_live : entry { s with entries := s.entries.set drv (some new) } drv = some new := by
    rw [entry_eq, Function.update_self]
  rw [Core.requeue, Core.setEntry, bind_modify_apply]
  by_cases nobody : new.followers = []
  · obtain ⟨s', retired, s'_inv, s'_entry, s'_eq⟩ := written.retire mem written_live
    refine ⟨s', ?_, s'_inv, ?_, ?_, ?_⟩
    · simpa [nobody] using retired
    · rw [s'_entry, entry_eq, Function.update_idem, if_pos nobody]
    · rw [s'_eq]
      exact ⟨rfl, rfl, rfl, rfl⟩
    · rw [s'_eq]
  · obtain ⟨next, enqueued, next_inv⟩ := written.enqueue written_live idle nobody
    refine ⟨_, ?_, next_inv, ?_, ⟨rfl, rfl, rfl, rfl⟩, rfl⟩
    · simpa [nobody] using enqueued
    · rw [if_neg nobody]
      exact entry_eq

/-! ## A worker leaves -/

/-- What becomes of an entry when a worker leaves. -/
def leave (wid : WorkerId) (ent : Entry) : Option Entry :=
  if ent.worker = some wid then
    if ent.followers = [] then none else some { ent with worker := none }
  else
    some ent

/-- Everything a worker left behind is requeued or dropped. -/
theorem InvOff.requeueAll {drvs : List DrvId} (inv : InvOff s {drv | drv ∈ drvs} stale)
    (wid : WorkerId) (nodup : drvs.Nodup)
    (held : ∀ drv ∈ drvs, ∃ ent, s.entry drv = some ent ∧ ent.worker = some wid) :
    ∃ s', Core.requeueAll wid drvs s = .ok () s' ∧ InvOff s' ∅ stale ∧
      (∀ drv, s'.entry drv = if drv ∈ drvs then (s.entry drv).bind (leave wid) else s.entry drv) ∧
      Keeps s s' ∧ s'.workers = s.workers := by
  induction drvs generalizing s with
  | nil =>
    refine ⟨s, rfl, ?_, by simp, Keeps.refl s, rfl⟩
    simpa using inv
  | cons drv drvs ih =>
    obtain ⟨drv_not_mem, nodup⟩ := List.nodup_cons.mp nodup
    obtain ⟨ent, live, assigned⟩ := held drv List.mem_cons_self
    have live_join : (s.entries[drv]?).join = some ent := live
    obtain ⟨mid, requeued, mid_inv, mid_entry, mid_keeps, mid_workers⟩ :=
      inv.requeue { ent with worker := none } List.mem_cons_self live rfl rfl id rfl
    have mid_aside : {other | other ∈ drv :: drvs} \ {drv} = {other | other ∈ drvs} := by
      ext other
      simp only [Set.mem_sdiff, Set.mem_ofPred_eq, List.mem_cons, Set.mem_singleton_iff]
      constructor
      · rintro ⟨rfl | mem, other_ne⟩
        · exact absurd rfl other_ne
        · exact mem
      · exact fun mem => ⟨.inr mem, ne_of_mem_of_not_mem mem drv_not_mem⟩
    rw [mid_aside] at mid_inv
    have mid_entry_ne : ∀ other ≠ drv, mid.entry other = s.entry other := by
      intro other other_ne
      rw [mid_entry, Function.update_of_ne other_ne]
    obtain ⟨s', ran, s'_inv, s'_entry, s'_keeps, s'_workers⟩ := ih mid_inv nodup fun other mem => by
      rw [mid_entry_ne other (ne_of_mem_of_not_mem mem drv_not_mem)]
      exact held other (List.mem_cons_of_mem drv mem)
    refine ⟨s', ?_, s'_inv, fun other => ?_, mid_keeps.trans s'_keeps, s'_workers.trans mid_workers⟩
    · rw [Core.requeueAll, bind_get_apply, live_join]
      simp only [if_pos assigned]
      rw [bind_of_ok requeued]
      exact ran
    · rw [s'_entry]
      by_cases other_drv : other = drv
      · subst other_drv
        simp [drv_not_mem, mid_entry, live, leave, assigned]
      · rw [mid_entry_ne other other_drv]
        simp [other_drv]

/-- A worker that leaves loses everything it ran. -/
theorem InvOff.workerGone (inv : InvOff s ∅ stale) (only : stale ⊆ {wid})
    (get_eq : s.workers[wid]? = some wkr) :
    ∃ s', Core.workerGone wid s = .ok () s' ∧ Inv s' ∧ (∀ drv, s'.entry drv = (s.entry drv).bind (leave wid)) ∧
      s'.workers = s.workers.set wid { wkr with up := false, running := [] } ∧
      s'.cfg = s.cfg ∧ s'.follows = s.follows ∧ s'.lastAssignId = s.lastAssignId := by
  have wid_lt := (List.getElem?_eq_some_iff.mp get_eq).1
  have wkr_mem := List.mem_of_getElem? get_eq
  have running_iff : ∀ drv, drv ∈ wkr.running ↔
      ∃ ent, s.entry drv = some ent ∧ ent.worker = some wid := by
    simpa using inv.runs.running_iff wid wkr get_eq
  -- the indexes count no slot for a worker that is down, whatever it runs
  obtain ⟨next, next_ok, counted⟩ := s.systems.setFreeAll_ok wid 0 wkr.systems (inv.counts.known wid wkr get_eq)
  have key_eq : next.key = s.systems.key := funext₂ counted.key_eq
  let idle : Worker := { wkr with up := false, running := [] }
  let left : Core :=
    { s with
      workersUp := if wkr.up then s.workersUp - 1 else s.workersUp
      systems := next
      workers := s.workers.set wid idle }
  have left_get : left.workers[wid]? = some idle := List.getElem?_set_self wid_lt
  have left_counts : Counts left.workers next.free ∅ := by
    have changed : Counts left.workers s.systems.free (insert wid stale) :=
      inv.counts.setWorker get_eq rfl (inv.counts.maxJobs_le wkr wkr_mem)
    have refreshed : Counts left.workers next.free (insert wid stale \ {wid}) :=
      changed.refresh left_get fun name other => by
        rw [counted.free_eq]
        simp [idle, Worker.slots, Worker.takesWork]
    have none_left : insert wid stale \ {wid} = ∅ := Set.sdiff_eq_empty.mpr (Set.insert_subset rfl only)
    rwa [none_left] at refreshed
  have left_queues : Queues s.cfg s.entry next.key {drv | drv ∈ wkr.running} := by
    rw [key_eq]
    refine inv.queues.widen (Set.empty_subset _) fun drv running => ?_
    obtain ⟨ent, live, -⟩ := (running_iff drv).mp running
    simp [live]
  have left_inv : InvOff left {drv | drv ∈ wkr.running} ∅ :=
    ⟨inv.ids, left_queues, inv.runs.leave get_eq, left_counts, inv.addrs.set get_eq rfl⟩
  obtain ⟨s', ran, s'_inv, s'_entry, s'_keeps, s'_workers⟩ := left_inv.requeueAll wid
    (inv.runs.running_nodup wkr wkr_mem) fun drv => (running_iff drv).mp
  refine ⟨s', ?_, s'_inv, fun drv => ?_, s'_workers, s'_keeps.cfg, s'_keeps.follows, s'_keeps.lastAssignId⟩
  · let down : Core :=
      { s with
        workersUp := if wkr.up then s.workersUp - 1 else s.workersUp
        workers := s.workers.set wid { wkr with up := false } }
    have down_get : down.workers[wid]? = some { wkr with up := false } := List.getElem?_set_self wid_lt
    have refreshed : Core.refreshFree wid down = .ok () { down with systems := next } := by
      rw [Core.refreshFree, bind_of_ok (workerAt_of_get down_get)]
      exact onSystems_of_ok (by simpa [Worker.takesWork] using next_ok)
    rw [Core.workerGone, bind_of_ok (workerAt_of_get get_eq), bind_modify_apply,
      bind_of_ok refreshed, bind_modify_apply]
    simpa [down, left, idle] using ran
  · rw [s'_entry]
    split
    · rfl
    · rename_i not_running
      change s.entry drv = _
      cases live : s.entry drv with
      | none => rfl
      | some ent =>
        have not_assigned : ent.worker ≠ some wid := fun assigned =>
          not_running ((running_iff drv).mpr ⟨ent, live, assigned⟩)
        simp [leave, not_assigned]

theorem Inv.workerGone (inv : Inv s) (get_eq : s.workers[wid]? = some wkr) :
    ∃ s', Core.workerGone wid s = .ok () s' ∧ Inv s' ∧ (∀ drv, s'.entry drv = (s.entry drv).bind (leave wid)) ∧
      s'.workers = s.workers.set wid { wkr with up := false, running := [] } ∧
      s'.cfg = s.cfg ∧ s'.follows = s.follows ∧ s'.lastAssignId = s.lastAssignId :=
  InvOff.workerGone inv (Set.empty_subset _) get_eq

end Core

end NixGrpcStore.Sched
