import NixGrpcStore.Sched.ClientOps

/-!
# Hellos, Dones and give-backs

What the operations that serve workers do to a core that keeps its books.
-/

namespace NixGrpcStore.Sched

open StateExcept

namespace Core

variable {s : Core} {drv : DrvId} {wid : WorkerId} {ent : Entry} {wkr : Worker}

/-! ## Done and give-back -/

theorem rememberAll_ok (s : Core) (wid : WorkerId) (outputs : List (String × ℕ)) :
    ∃ lastBuilder, rememberAll wid outputs s = .ok () { s with lastBuilder } := by
  induction outputs generalizing s with
  | nil => exact ⟨s.lastBuilder, rfl⟩
  | cons output outputs ih =>
    obtain ⟨lastBuilder, rest⟩ := ih
      { s with
        lastBuilder := remember s.lastBuilder (PathKey.ofPath output.1) (wid, output.2) }
    exact ⟨lastBuilder, rest⟩

/-- A derivation is taken off a worker, and its entry goes through `change` if that worker had it.
The step that sees to the entry settles it. -/
theorem Inv.takeOff (inv : Inv s) (get_eq : s.workers[wid]? = some wkr) {path : String}
    (found : s.findDrv path = some drv) {next : Entry → CoreM Unit} {change : Entry → Option Entry}
    (others : ∀ ent : Entry, ¬ (ent.pathKey = PathKey.ofPath path ∧ ent.worker = some wid) →
      change ent = some ent)
    (settles : ∀ mid ent, InvOff mid {drv} ∅ → mid.entry drv = some ent → ent.worker = some wid →
      ent.pathKey = PathKey.ofPath path →
      ∃ s', next ent mid = .ok () s' ∧ InvOff s' ({drv} \ {drv}) ∅ ∧
        s'.entry = Function.update mid.entry drv (change ent) ∧ Keeps mid s') :
    ∃ s', Core.takeOff wid drv next s = .ok () s' ∧ Inv s' ∧
      (∀ drv, s'.entry drv = (s.entry drv).bind change) ∧ Keeps s s' := by
  obtain ⟨ent, live, path_eq⟩ := (InvOff.findDrv_iff inv path drv).mp found
  have entry_eq : ∀ other, Function.update s.entry drv (change ent) other =
      (s.entry other).bind change := by
    intro other
    by_cases other_drv : other = drv
    · subst other_drv
      simp [live]
    · rw [Function.update_of_ne other_drv]
      cases other_live : s.entry other with
      | none => rfl
      | some otherEnt =>
        refine (others otherEnt fun same => other_drv ?_).symm
        have other_found := (InvOff.findDrv_iff inv path other).mpr ⟨otherEnt, other_live, same.1⟩
        exact Option.some.inj (other_found.symm.trans found)
  rw [Core.takeOff]
  by_cases assigned : ent.worker = some wid
  · obtain ⟨mid, released, mid_inv, mid_entry, mid_keeps⟩ :=
      InvOff.release inv live assigned (Set.notMem_empty drv)
    rw [insert_empty_eq] at mid_inv
    have mid_live : mid.entry drv = some ent := mid_entry ▸ live
    obtain ⟨s', ran, s'_inv, s'_entry, s'_keeps⟩ := settles mid ent mid_inv mid_live assigned path_eq
    rw [Set.sdiff_self] at s'_inv
    refine ⟨s', ?_, s'_inv, fun other => ?_, mid_keeps.trans s'_keeps⟩
    · rw [bind_of_ok released, bind_of_ok (entryAt_of_entry mid_live)]
      simpa only [if_pos assigned] using ran
    · rw [s'_entry, mid_entry, entry_eq]
  · obtain ⟨mid, released, mid_inv, mid_entry, mid_keeps⟩ :
        ∃ mid, Core.release wid drv s = .ok () mid ∧ Inv mid ∧ mid.entry = s.entry ∧ Keeps s mid := by
      refine InvOff.release_other inv get_eq fun other other_live => ?_
      rw [live] at other_live
      exact Option.some.inj other_live ▸ assigned
    have mid_live : mid.entry drv = some ent := mid_entry ▸ live
    refine ⟨mid, ?_, mid_inv, fun other => ?_, mid_keeps⟩
    · rw [bind_of_ok released, bind_of_ok (entryAt_of_entry mid_live)]
      simp only [if_neg assigned, pure_apply]
    · rw [mid_entry, ← entry_eq, others ent fun same => assigned same.2, ← live, Function.update_eq_self]

theorem InvOff.bind_of_unknown {aside : Set DrvId} {stale : Set WorkerId}
    (inv : InvOff s aside stale) {path : String} (unknown : s.findDrv path = none)
    {change : Entry → Option Entry}
    (others : ∀ ent : Entry, ¬ (ent.pathKey = PathKey.ofPath path ∧ ent.worker = some wid) →
      change ent = some ent) (other : DrvId) :
    s.entry other = (s.entry other).bind change := by
  cases other_live : s.entry other with
  | none => rfl
  | some otherEnt =>
    refine (others otherEnt fun same => ?_).symm
    have found := (inv.findDrv_iff path other).mpr ⟨otherEnt, other_live, same.1⟩
    simp [unknown] at found

/-- What becomes of an entry when a worker reports a path as done. -/
def finish (wid : WorkerId) (key : PathKey) (ent : Entry) : Option Entry :=
  if ent.pathKey = key ∧ ent.worker = some wid then none else some ent

/-- What becomes of an entry when a worker gives a path back. -/
def returned (wid : WorkerId) (key : PathKey) (ent : Entry) : Option Entry :=
  if ent.pathKey = key ∧ ent.worker = some wid then
    if ent.followers = [] then none else some { ent with worker := none, avoid := some wid }
  else
    some ent

/-- A Done ends the assignment of its path to the sender, if there is one. -/
theorem Inv.done (inv : Inv s) (get_eq : s.workers[wid]? = some wkr) (path : String)
    (outputs : List (String × ℕ)) :
    ∃ s', Core.done wid path outputs s = .ok () s' ∧ Inv s' ∧
      (∀ drv, s'.entry drv = (s.entry drv).bind (finish wid (PathKey.ofPath path))) ∧
      Keeps s s' := by
  have others : ∀ ent : Entry, ¬ (ent.pathKey = PathKey.ofPath path ∧ ent.worker = some wid) →
      finish wid (PathKey.ofPath path) ent = some ent := fun ent other => if_neg other
  obtain ⟨lastBuilder, remembered⟩ := rememberAll_ok s wid outputs
  have noted : Inv { s with lastBuilder } := ⟨inv.ids, inv.queues, inv.runs, inv.counts, inv.addrs⟩
  rw [Core.done, bind_of_ok (workerAt_of_get get_eq), bind_of_ok remembered, bind_get_apply]
  cases found : findDrv { s with lastBuilder } path with
  | none =>
    exact ⟨_, rfl, noted, InvOff.bind_of_unknown inv found others, ⟨rfl, rfl, rfl, rfl⟩⟩
  | some drv =>
    obtain ⟨s', ran, s'_inv, s'_entry, s'_keeps⟩ := noted.takeOff get_eq found others
      fun mid ent mid_inv live assigned path_eq => by
        obtain ⟨s', retired, s'_inv, s'_entry, s'_eq⟩ := mid_inv.retire (Set.mem_singleton drv) live
        refine ⟨s', retired, s'_inv, ?_, ?_⟩
        · rw [s'_entry, finish, if_pos ⟨path_eq, assigned⟩]
        · rw [s'_eq]
          exact ⟨rfl, rfl, rfl, rfl⟩
    exact ⟨s', ran, s'_inv, s'_entry, ⟨s'_keeps.cfg, s'_keeps.roster, s'_keeps.follows, s'_keeps.lastAssignId⟩⟩

/-- A worker may give back what is assigned to it. -/
theorem Inv.giveBack (inv : Inv s) (get_eq : s.workers[wid]? = some wkr) (path : String) :
    ∃ s', Core.giveBack wid path s = .ok () s' ∧ Inv s' ∧
      (∀ drv, s'.entry drv = (s.entry drv).bind (returned wid (PathKey.ofPath path))) ∧
      Keeps s s' := by
  have others : ∀ ent : Entry, ¬ (ent.pathKey = PathKey.ofPath path ∧ ent.worker = some wid) →
      returned wid (PathKey.ofPath path) ent = some ent := fun ent other => if_neg other
  rw [Core.giveBack, bind_get_apply]
  cases found : s.findDrv path with
  | none => exact ⟨s, rfl, inv, InvOff.bind_of_unknown inv found others, Keeps.refl s⟩
  | some drv =>
    refine inv.takeOff get_eq found others fun mid ent mid_inv live assigned path_eq => ?_
    obtain ⟨s', ran, s'_inv, s'_entry, s'_keeps, -⟩ := mid_inv.requeue
      { ent with worker := none, avoid := some wid } (Set.mem_singleton drv) live rfl rfl id rfl
    have returned_eq : returned wid (PathKey.ofPath path) ent = _ := if_pos ⟨path_eq, assigned⟩
    exact ⟨s', ran, s'_inv, by rw [s'_entry, returned_eq], s'_keeps⟩

theorem after_done_of_none {path : String} {outputs : List (String × ℕ)} (get_eq : s.workers[wid]? = none) :
    after (Core.done wid path outputs s) = s :=
  congrArg after (bind_of_error (workerAt_of_none get_eq) _)

theorem after_giveBack_of_none {path : String} (get_eq : s.workers[wid]? = none) :
    after (Core.giveBack wid path s) = s := by
  rw [Core.giveBack, bind_get_apply]
  cases s.findDrv path with
  | none => rfl
  | some drv => exact congrArg after (bind_of_error (bind_of_error (workerAt_of_none get_eq) _) _)

/-- A worker that starts or stops to refuse work keeps what it runs. -/
theorem Inv.setDraining (inv : Inv s) (get_eq : s.workers[wid]? = some wkr) (draining : Bool) :
    ∃ s', Core.setDraining wid draining s = .ok () s' ∧ Inv s' ∧ s'.entry = s.entry ∧
      s'.workers = s.workers.set wid { wkr with draining } ∧ s'.cfg = s.cfg ∧
      s'.follows = s.follows ∧ s'.lastAssignId = s.lastAssignId := by
  obtain ⟨wid_lt, -⟩ := List.getElem?_eq_some_iff.mp get_eq
  have wkr_mem := List.mem_of_getElem? get_eq
  have changed : InvOff { s with workers := s.workers.set wid { wkr with draining } } ∅ {wid} := by
    refine ⟨inv.ids, inv.queues, ?_, ?_, inv.addrs.set get_eq rfl⟩
    · exact inv.runs.setWorker get_eq (inv.runs.running_nodup wkr wkr_mem)
        (inv.runs.down_idle wkr wkr_mem) (inv.runs.running_iff wid wkr get_eq) fun _ _ _ _ => Iff.rfl
    · rw [← insert_empty_eq]
      exact inv.counts.setWorker get_eq rfl (inv.counts.maxJobs_le wkr wkr_mem)
  obtain ⟨next, refreshed, next_inv, -⟩ := changed.refreshFree (List.getElem?_set_self wid_lt)
  rw [Set.sdiff_self] at next_inv
  refine ⟨_, ?_, next_inv, rfl, rfl, rfl, rfl, rfl⟩
  rw [Core.setDraining, bind_of_ok (workerAt_of_get get_eq), setWorker, bind_modify_apply]
  exact refreshed

end Core

end NixGrpcStore.Sched
