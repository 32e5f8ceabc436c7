import NixGrpcStore.Sched.WorkerOps

/-!
# Hello

A worker that opens a session reports what it holds.  It keeps each reported derivation, whatever
this core did with it in the meantime.
-/

namespace NixGrpcStore.Sched

open List (getElem?_map getElem?_set_self mem_of_getElem? set_set)
open StateExcept

/-- A worker as its Hello describes it. -/
def HelloInfo.worker (info : HelloInfo) : Worker where
  addr := info.addr
  systems := info.systems
  features := info.features
  maxJobs := (min info.maxJobs FreeIndex.maxSlots : ℕ)
  up := true

namespace Core

variable {s : Core} {drv : DrvId} {wid : WorkerId} {ent : Entry} {wkr : Worker}

theorem get_of_roster {s' : Core} (same : s'.roster = s.roster) (get_eq : s.workers[wid]? = some wkr) :
    ∃ next, s'.workers[wid]? = some next ∧
      { next with running := [] } = { wkr with running := [] } := by
  have roster_eq : s'.roster[wid]? = s.roster[wid]? := by rw [same]
  rw [roster, roster, getElem?_map, getElem?_map, get_eq, Option.map_some,
    Option.map_eq_some_iff] at roster_eq
  exact roster_eq

/-! ## One reported derivation -/

/-- A derivation that was set aside for a worker goes onto its running list. -/
theorem InvOff.hold {aside : Set DrvId} (inv : InvOff s aside {wid}) (live : s.entry drv = some ent)
    (assigned : ent.worker = some wid) (get_eq : s.workers[wid]? = some wkr) (up : wkr.up = true) :
    ∃ s', Core.hold wid drv ent.system s = .ok () s' ∧ InvOff s' (aside \ {drv}) {wid} ∧
      s'.entry = s.entry ∧ Keeps s s' := by
  obtain ⟨next, erased, rekeyed⟩ := s.systems.eraseKey_ok ent.system drv
  have free_eq : next.free = s.systems.free := funext₂ rekeyed.free_eq
  have queues : Queues s.cfg s.entry next.key (aside \ {drv}) := by
    refine inv.queues.settle live (by simp [assigned]) fun name id => ?_
    rw [rekeyed.key_eq]
    simp [queueKey, assigned]
  have wkr_at : workerAt wid { s with systems := next } = .ok wkr { s with systems := next } :=
    workerAt_of_get get_eq
  rw [Core.hold, bind_of_ok (onSystems_of_ok erased), bind_of_ok wkr_at]
  by_cases running : drv ∈ wkr.running
  · have not_mem : drv ∉ aside := ((inv.runs.running_iff wid wkr get_eq drv).mp running).1
    refine ⟨{ s with systems := next }, ?_, inv.withSystems queues ?_ (free_eq ▸ inv.counts), rfl,
      ⟨rfl, rfl, rfl, rfl⟩⟩
    · simp [running]
    · rw [Set.sdiff_singleton_eq_self not_mem]
      exact inv.runs
  · have mem : drv ∈ aside := by
      by_contra not_mem
      exact running ((inv.runs.running_iff wid wkr get_eq drv).mpr ⟨not_mem, ent, live, assigned⟩)
    let started : Worker := { wkr with running := wkr.running ++ [drv] }
    refine ⟨{ s with systems := next, workers := s.workers.set wid started }, ?_,
      ⟨inv.ids, queues, inv.runs.start get_eq up mem live assigned, ?_, inv.addrs.set get_eq rfl⟩,
      rfl, ⟨rfl, roster_set get_eq rfl, rfl, rfl⟩⟩
    · simp [running, setWorker, started]
    · have counts : Counts (s.workers.set wid started) s.systems.free (insert wid {wid}) :=
        inv.counts.setWorker get_eq rfl (inv.counts.maxJobs_le wkr (mem_of_getElem? get_eq))
      simpa [free_eq] using counts

/-- What the core tells about an entry that another worker reports. -/
def lostTo (wid : WorkerId) (drv : DrvId) (ent : Entry) : Option Superseded :=
  match ent.worker with
  | some other => if other = wid then none else some { drv, loser := some other }
  | none => if ent.followers = [] then none else some { drv }

/-- What a reported derivation does to the core. -/
structure Adopted (s s' : Core) (wid : WorkerId) (path : String) (assignId : ℕ) (drv : DrvId) :
    Prop where
  place : s.findDrv path = some drv ∨ s.findDrv path = none ∧ s.entry drv = none
  entry_eq : s'.entry = Function.update s.entry drv
    (some { (s.entry drv).getD { drvPath := path } with worker := some wid, assignId })
  keeps : Keeps s s'

/-- An entry that loses its worker to `wid`, or waits, is set aside. -/
theorem InvOff.loseTo (inv : InvOff s ∅ {wid}) (live : s.entry drv = some ent)
    (other : ent.worker ≠ some wid) :
    ∃ s', Core.loseTo wid drv ent s = .ok (lostTo wid drv ent) s' ∧ InvOff s' {drv} {wid} ∧
      s'.entry = s.entry ∧ Keeps s s' := by
  cases assigned : ent.worker with
  | none =>
    refine ⟨s, ?_, by simpa using inv.setAside live assigned, rfl, Keeps.refl s⟩
    simp [Core.loseTo, lostTo, assigned, List.isEmpty_iff]
  | some loser =>
    have loser_ne : loser ≠ wid := fun same => other (same ▸ assigned)
    obtain ⟨s', released, s'_inv, s'_entry, s'_keeps⟩ := inv.release live assigned (Set.notMem_empty drv)
    refine ⟨s', ?_, by simpa using s'_inv, s'_entry, s'_keeps⟩
    simp only [Core.loseTo, lostTo, assigned, if_neg loser_ne]
    exact bind_of_ok released _

section Adopt

variable {path : String} {assignId : ℕ}

section Adopting

variable (inv : InvOff s ∅ {wid}) (get_eq : s.workers[wid]? = some wkr) (up : wkr.up = true)
include inv get_eq up

/-- A worker reports again what it holds already. -/
theorem InvOff.adopt_held (live : s.entry drv = some ent) (found : drvId path s = .ok drv s)
    (path_eq : ent.pathKey = PathKey.ofPath path) (assigned : ent.worker = some wid) :
    ∃ s', Core.adopt wid path assignId s = .ok (lostTo wid drv ent) s' ∧ InvOff s' ∅ {wid} ∧
      Adopted s s' wid path assignId drv := by
  have written := inv.setEntry { ent with worker := some wid, assignId } (Set.notMem_empty drv) live
    rfl assigned.symm (fun name => by simp [queueKey, assigned]) (by simp)
    (inv.queues.named drv ent live)
  have written_entry := entry_set (lt_of_entry live) (some { ent with worker := some wid, assignId })
  have written_live := (congrFun written_entry drv).trans (Function.update_self ..)
  obtain ⟨s', held, s'_inv, s'_entry, s'_keeps⟩ := written.hold written_live rfl get_eq up
  rw [Set.empty_sdiff] at s'_inv
  refine ⟨s', ?_, s'_inv, .inl ?_, ?_, ?_⟩
  · have kept : Core.loseTo wid drv ent s = .ok (lostTo wid drv ent) s := by
      simp [Core.loseTo, lostTo, assigned]
    rw [Core.adopt, bind_of_ok found, bind_of_ok (entryAt_of_entry live), Option.getD_some,
      bind_of_ok kept, Core.setEntry, bind_modify_apply, bind_of_ok held, pure_apply]
  · exact (inv.findDrv_iff path drv).mpr ⟨ent, live, path_eq⟩
  · rw [s'_entry, written_entry, live, Option.getD_some]
  · exact ⟨s'_keeps.cfg, s'_keeps.roster, s'_keeps.follows, s'_keeps.lastAssignId⟩

/-- A worker reports a derivation that waits or that another worker has. -/
theorem InvOff.adopt_other (live : s.entry drv = some ent) (found : drvId path s = .ok drv s)
    (path_eq : ent.pathKey = PathKey.ofPath path) (other : ent.worker ≠ some wid) :
    ∃ s', Core.adopt wid path assignId s = .ok (lostTo wid drv ent) s' ∧ InvOff s' ∅ {wid} ∧
      Adopted s s' wid path assignId drv := by
  obtain ⟨mid, lost, mid_inv, mid_entry, mid_keeps⟩ := inv.loseTo live other
  obtain ⟨midWkr, mid_get, mid_same⟩ := get_of_roster mid_keeps.roster get_eq
  have mid_up : midWkr.up = true := (congrArg Worker.up mid_same).trans up
  have mid_live : mid.entry drv = some ent := mid_entry ▸ live
  have written := mid_inv.setEntry_aside { ent with worker := some wid, assignId }
    (Set.mem_singleton drv) mid_live rfl rfl (mid_inv.queues.named drv ent mid_live)
  have written_entry := entry_set (lt_of_entry mid_live) (some { ent with worker := some wid, assignId })
  have written_live := (congrFun written_entry drv).trans (Function.update_self ..)
  obtain ⟨s', held, s'_inv, s'_entry, s'_keeps⟩ := written.hold written_live rfl mid_get mid_up
  rw [Set.sdiff_self] at s'_inv
  refine ⟨s', ?_, s'_inv, .inl ?_, ?_, mid_keeps.trans ?_⟩
  · rw [Core.adopt, bind_of_ok found, bind_of_ok (entryAt_of_entry live), Option.getD_some,
      bind_of_ok lost, Core.setEntry, bind_modify_apply, bind_of_ok held, pure_apply]
  · exact (inv.findDrv_iff path drv).mpr ⟨ent, live, path_eq⟩
  · rw [s'_entry, written_entry, live, Option.getD_some, mid_entry]
  · exact ⟨s'_keeps.cfg, s'_keeps.roster, s'_keeps.follows, s'_keeps.lastAssignId⟩

/-- A worker reports a derivation the core does not know. -/
theorem InvOff.adopt_new {entries : List (Option Entry)} {freeIds : List DrvId}
    {drvIds : AList fun _ : PathKey => DrvId} (unknown : s.findDrv path = none)
    (alloc : Allocated s path drv entries freeIds drvIds)
    (found : drvId path s = .ok drv { s with entries, freeIds, drvIds }) :
    ∃ s', Core.adopt wid path assignId s = .ok none s' ∧ InvOff s' ∅ {wid} ∧
      Adopted s s' wid path assignId drv := by
  obtain ⟨written, written_entry⟩ := inv.create
    { drvPath := path, worker := some wid, assignId } alloc rfl (by simp)
  have written_live := (congrFun written_entry drv).trans (Function.update_self ..)
  obtain ⟨s', held, s'_inv, s'_entry, s'_keeps⟩ := written.hold written_live rfl get_eq up
  rw [insert_diff_eq] at s'_inv
  refine ⟨s', ?_, s'_inv, .inr ⟨unknown, alloc.unused⟩, ?_, ?_⟩
  · have slot_at : entryAt drv { s with entries, freeIds, drvIds } =
        .ok none { s with entries, freeIds, drvIds } := by
      simp [entryAt, alloc.slot_eq]
    rw [Core.adopt, bind_of_ok found, bind_of_ok slot_at, Option.getD_none]
    simp only [Core.loseTo, List.isEmpty_nil, if_true, bind_pure_apply]
    exact bind_of_ok held _
  · rw [s'_entry, written_entry, alloc.unused, Option.getD_none]
  · exact ⟨s'_keeps.cfg, s'_keeps.roster, s'_keeps.follows, s'_keeps.lastAssignId⟩

/-- A worker keeps each derivation it reports, unless the table is full. -/
theorem InvOff.adopt (path : String) (assignId : ℕ) :
    (∃ drv s', Core.adopt wid path assignId s = .ok ((s.entry drv).bind (lostTo wid drv)) s' ∧
      InvOff s' ∅ {wid} ∧ Adopted s s' wid path assignId drv) ∨
    Core.adopt wid path assignId s = .error .tableFull s ∧ s.findDrv path = none ∧ maxEntries ≤ s.liveCount := by
  rcases inv.drvId_cases path with
    ⟨drv, ent, live, path_eq, found⟩ |
    ⟨unknown, ⟨drv, entries, freeIds, drvIds, alloc, found⟩ | ⟨full, most⟩⟩
  · refine .inl ⟨drv, ?_⟩
    rw [live, Option.bind_some]
    by_cases assigned : ent.worker = some wid
    · exact inv.adopt_held get_eq up live found path_eq assigned
    · exact inv.adopt_other get_eq up live found path_eq assigned
  · refine .inl ⟨drv, ?_⟩
    rw [alloc.unused, Option.bind_none]
    exact inv.adopt_new get_eq up unknown alloc found
  · exact .inr ⟨by rw [Core.adopt, bind_of_error full], unknown, most⟩

end Adopting

end Adopt

/-! ## All reported derivations -/

/-- The assignment a worker reports for a path; of two reports the later one counts. -/
def reported : List (String × ℕ) → PathKey → Option ℕ
  | [], _ => none
  | (path, assignId) :: running, key =>
    (reported running key).or (if PathKey.ofPath path = key then some assignId else none)

variable {running : List (String × ℕ)}

/-- What is reported is in the list. -/
theorem mem_of_reported {key : PathKey} {assignId : ℕ}
    (report_eq : reported running key = some assignId) :
    ∃ path, (path, assignId) ∈ running ∧ PathKey.ofPath path = key := by
  induction running with
  | nil => simp [reported] at report_eq
  | cons report running ih =>
    obtain ⟨path, first⟩ := report
    rw [reported, Option.or_eq_some_iff] at report_eq
    rcases report_eq with later | ⟨-, here⟩
    · obtain ⟨path', mem, key_eq⟩ := ih later
      exact ⟨path', List.mem_cons_of_mem _ mem, key_eq⟩
    · split_ifs at here with key_eq
      exact ⟨path, by simp [Option.some.inj here], key_eq⟩

/-- What becomes of an entry when a worker reports what it holds. -/
def adoptEntry (wid : WorkerId) (running : List (String × ℕ)) (ent : Entry) : Entry :=
  match reported running ent.pathKey with
  | some assignId => { ent with worker := some wid, assignId }
  | none => ent

/-- What a list of reported derivations does to the core. -/
structure AdoptedAll (s s' : Core) (wid : WorkerId) (running : List (String × ℕ))
    (superseded : List Superseded) : Prop where
  known : ∀ drv ent, s.entry drv = some ent → s'.entry drv = some (adoptEntry wid running ent)
  created : ∀ drv ent, s.entry drv = none → s'.entry drv = some ent →
    ∃ path assignId, reported running (PathKey.ofPath path) = some assignId ∧
      s.findDrv path = none ∧ ent = { drvPath := path, worker := some wid, assignId }
  complete : ∀ path, (reported running (PathKey.ofPath path)).isSome → (s'.findDrv path).isSome
  superseded_iff : ∀ sup, sup ∈ superseded ↔ ∃ ent, s.entry sup.drv = some ent ∧
    (reported running ent.pathKey).isSome ∧ lostTo wid sup.drv ent = some sup
  keeps : Keeps s s'

theorem adoptEntry_pathKey (wid : WorkerId) (running : List (String × ℕ)) (ent : Entry) :
    (adoptEntry wid running ent).pathKey = ent.pathKey := by
  unfold adoptEntry
  split <;> rfl

theorem adoptEntry_cons {path : String} {assignId : ℕ} {ent : Entry}
    (path_eq : ent.pathKey = PathKey.ofPath path) :
    adoptEntry wid running { ent with worker := some wid, assignId } =
      adoptEntry wid ((path, assignId) :: running) ent := by
  have path_eq' : Entry.pathKey { ent with worker := some wid, assignId } = PathKey.ofPath path := path_eq
  simp only [adoptEntry, path_eq, path_eq', reported, if_true]
  cases reported running (PathKey.ofPath path) <;> rfl

theorem adoptEntry_cons_other {path : String} {assignId : ℕ}
    {ent : Entry} (path_ne : ent.pathKey ≠ PathKey.ofPath path) :
    adoptEntry wid running ent = adoptEntry wid ((path, assignId) :: running) ent := by
  simp [adoptEntry, reported, Ne.symm path_ne]

theorem lostTo_drv {sup : Superseded} (lost : lostTo wid drv ent = some sup) : sup.drv = drv := by
  unfold lostTo at lost
  split at lost
  · split at lost
    · simp at lost
    · exact (congrArg Superseded.drv (Option.some.inj lost)).symm
  · split at lost
    · simp at lost
    · exact (congrArg Superseded.drv (Option.some.inj lost)).symm

section AdoptedAll

variable {mid s' : Core} {path : String} {assignId : ℕ} {running : List (String × ℕ)}
  {rest : List Superseded}

theorem reported_cons_other {key : PathKey} (other : key ≠ PathKey.ofPath path) :
    reported ((path, assignId) :: running) key = reported running key := by
  simp [reported, Ne.symm other]

theorem reported_cons_of_isSome {key : PathKey} (some_report : (reported running key).isSome) :
    reported ((path, assignId) :: running) key = reported running key := by
  obtain ⟨id, report_eq⟩ := Option.isSome_iff_exists.mp some_report
  simp [reported, report_eq]

theorem reported_cons_self_isSome : (reported ((path, assignId) :: running) (PathKey.ofPath path)).isSome := by
  simp [reported]

section Adopted

variable (adopted : Adopted s mid wid path assignId drv)
include adopted

/-- The entry of a reported derivation before the report. -/
theorem Adopted.pathKey_eq (inv : InvOff s ∅ {wid}) :
    ((s.entry drv).getD { drvPath := path }).pathKey = PathKey.ofPath path := by
  rcases adopted.place with found | ⟨-, unused⟩
  · obtain ⟨ent, live, path_eq⟩ := (inv.findDrv_iff path drv).mp found
    rw [live]
    exact path_eq
  · rw [unused]
    rfl

theorem Adopted.entry_ne {other : DrvId}
    (other_ne : other ≠ drv) : mid.entry other = s.entry other := by
  rw [adopted.entry_eq, Function.update_of_ne other_ne]

theorem Adopted.path_ne (inv : InvOff s ∅ {wid}) {other : DrvId} (other_ne : other ≠ drv)
    (live : s.entry other = some ent) : ent.pathKey ≠ PathKey.ofPath path := by
  intro path_eq
  have found := (inv.findDrv_iff path other).mpr ⟨ent, live, path_eq⟩
  rcases adopted.place with place | ⟨place, -⟩
  · exact other_ne (Option.some.inj (found.symm.trans place))
  · simp [found] at place

/-- A report makes no path unknown. -/
theorem Adopted.findDrv_of_some
    (inv : InvOff s ∅ {wid}) (mid_inv : InvOff mid ∅ {wid}) {other : String} {id : DrvId}
    (found : s.findDrv other = some id) : mid.findDrv other = some id := by
  obtain ⟨ent, live, path_eq⟩ := (inv.findDrv_iff other id).mp found
  rw [mid_inv.findDrv_iff]
  by_cases id_drv : id = drv
  · subst id_drv
    refine ⟨{ ent with worker := some wid, assignId }, ?_, path_eq⟩
    rw [adopted.entry_eq, Function.update_self, live]
    rfl
  · exact ⟨ent, (adopted.entry_ne id_drv).trans live, path_eq⟩

end Adopted

theorem AdoptedAll.cons (inv : InvOff s ∅ {wid}) (mid_inv : InvOff mid ∅ {wid})
    (s'_inv : InvOff s' ∅ {wid}) (adopted : Adopted s mid wid path assignId drv)
    (tail : AdoptedAll mid s' wid running rest) :
    AdoptedAll s s' wid ((path, assignId) :: running)
      (((s.entry drv).bind (lostTo wid drv)).toList ++ rest) := by
  have base_path := adopted.pathKey_eq inv
  have mid_live := congrFun adopted.entry_eq drv
  rw [Function.update_self] at mid_live
  have last_live := tail.known drv _ mid_live
  rw [adoptEntry_cons base_path] at last_live
  refine ⟨fun other ent live => ?_, fun other ent unused live => ?_, fun other some_report => ?_,
    fun sup => ?_, adopted.keeps.trans tail.keeps⟩
  · by_cases other_drv : other = drv
    · subst other_drv
      rwa [live] at last_live
    · rw [tail.known other ent ((adopted.entry_ne other_drv).trans live),
        adoptEntry_cons_other (adopted.path_ne inv other_drv live)]
  · by_cases other_drv : other = drv
    · subst other_drv
      rw [unused, Option.getD_none, live] at last_live
      have unknown : s.findDrv path = none := by
        rcases adopted.place with found | ⟨unknown, -⟩
        · obtain ⟨old, old_live, -⟩ := (inv.findDrv_iff path other).mp found
          simp [unused] at old_live
        · exact unknown
      have some_report : (reported ((path, assignId) :: running) (PathKey.ofPath path)).isSome :=
        reported_cons_self_isSome
      obtain ⟨id, report_eq⟩ := Option.isSome_iff_exists.mp some_report
      refine ⟨path, id, report_eq, unknown, ?_⟩
      have key_eq : Entry.pathKey { drvPath := path } = PathKey.ofPath path := rfl
      simpa [adoptEntry, key_eq, report_eq] using last_live
    · have mid_unused : mid.entry other = none := (adopted.entry_ne other_drv).trans unused
      obtain ⟨otherPath, id, report_eq, unknown, ent_eq⟩ := tail.created other ent mid_unused live
      refine ⟨otherPath, id, ?_, ?_, ent_eq⟩
      · rw [reported_cons_of_isSome (by simp [report_eq]), report_eq]
      · by_contra known
        obtain ⟨id, found⟩ := Option.ne_none_iff_exists'.mp known
        simp [adopted.findDrv_of_some inv mid_inv found] at unknown
  · by_cases same : PathKey.ofPath other = PathKey.ofPath path
    · have last_found : s'.findDrv other = some drv :=
        (s'_inv.findDrv_iff other drv).mpr ⟨_, last_live, by rw [adoptEntry_pathKey, base_path, same]⟩
      simp [last_found]
    · exact tail.complete other (reported_cons_other same ▸ some_report)
  · rw [List.mem_append, Option.mem_toList, tail.superseded_iff]
    constructor
    · rintro (lost | ⟨ent, live, some_report, lost⟩)
      · obtain ⟨ent, live, lost⟩ := Option.bind_eq_some_iff.mp lost
        rw [lostTo_drv lost]
        refine ⟨ent, live, ?_, lost⟩
        rw [live, Option.getD_some] at base_path
        exact base_path ▸ reported_cons_self_isSome
      · have other_drv : sup.drv ≠ drv := by
          intro same
          rw [same, mid_live] at live
          cases live
          simp [lostTo] at lost
        rw [adopted.entry_ne other_drv] at live
        exact ⟨ent, live, by rwa [reported_cons_of_isSome some_report], lost⟩
    · rintro ⟨ent, live, some_report, lost⟩
      by_cases other_drv : sup.drv = drv
      · rw [other_drv] at live lost
        exact .inl (by rw [live]; exact lost)
      · rw [reported_cons_other (adopted.path_ne inv other_drv live)] at some_report
        exact .inr ⟨ent, (adopted.entry_ne other_drv).trans live, some_report, lost⟩

end AdoptedAll

variable {superseded : List Superseded}

/-- A worker keeps everything it reports. -/
theorem InvOff.adoptAll (inv : InvOff s ∅ {wid}) (get_eq : s.workers[wid]? = some wkr)
    (up : wkr.up = true) {s' : Core} (ok : Core.adoptAll wid running s = .ok superseded s') :
    InvOff s' ∅ {wid} ∧ AdoptedAll s s' wid running superseded := by
  induction running generalizing s superseded wkr with
  | nil =>
    obtain ⟨rfl, rfl⟩ : [] = superseded ∧ s = s' := by simpa [Core.adoptAll] using ok
    refine ⟨inv, fun drv ent live => ?_, fun drv ent unused live => ?_, by simp [reported],
      by simp [reported], Keeps.refl s⟩
    · rw [live]
      rfl
    · simp [unused] at live
  | cons report running ih =>
    obtain ⟨path, assignId⟩ := report
    rw [Core.adoptAll, bind_eq_ok] at ok
    obtain ⟨first, mid, first_ok, ok⟩ := ok
    obtain ⟨rest, last, rest_ok, ok⟩ := bind_eq_ok.mp ok
    obtain ⟨rfl, rfl⟩ : first.toList ++ rest = superseded ∧ last = s' := by simpa using ok
    rcases inv.adopt get_eq up path assignId with ⟨drv, mid', adopt_ok, mid_inv, adopted⟩ | ⟨full, -⟩
    swap
    · simp [full] at first_ok
    obtain ⟨rfl, rfl⟩ : (s.entry drv).bind (lostTo wid drv) = first ∧ mid' = mid := by
      simpa [adopt_ok] using first_ok
    obtain ⟨midWkr, mid_get, mid_same⟩ := get_of_roster adopted.keeps.roster get_eq
    have mid_up : midWkr.up = true := (congrArg Worker.up mid_same).trans up
    obtain ⟨last_inv, tail⟩ := ih mid_inv mid_get mid_up rest_ok
    exact ⟨last_inv, AdoptedAll.cons inv mid_inv last_inv adopted tail⟩

/-- A table that has room for all of them, or has them all, takes everything a worker reports. -/
theorem InvOff.adoptAll_ok (inv : InvOff s ∅ {wid}) (get_eq : s.workers[wid]? = some wkr)
    (up : wkr.up = true)
    (room : s.liveCount + running.length ≤ maxEntries ∨ ∀ report ∈ running, (s.findDrv report.1).isSome) :
    ∃ superseded s', Core.adoptAll wid running s = .ok superseded s' := by
  induction running generalizing s wkr with
  | nil => exact ⟨[], s, rfl⟩
  | cons report running ih =>
    obtain ⟨path, assignId⟩ := report
    rw [List.length_cons, List.forall_mem_cons] at room
    rcases inv.adopt get_eq up path assignId with ⟨drv, mid, adopt_ok, mid_inv, adopted⟩ | ⟨-, unknown, most⟩
    · obtain ⟨midWkr, mid_get, mid_same⟩ := get_of_roster adopted.keeps.roster get_eq
      have mid_count : mid.liveCount ≤ s.liveCount + 1 := liveCount_le_succ drv (by
        intro other other_ne live
        rwa [adopted.entry_eq, Function.update_of_ne other_ne] at live)
      have rest_room : mid.liveCount + running.length ≤ maxEntries ∨
          ∀ report ∈ running, (mid.findDrv report.1).isSome := by
        refine room.imp (fun room => by omega) fun known report mem => ?_
        obtain ⟨id, found⟩ := Option.isSome_iff_exists.mp (known.2 report mem)
        rw [adopted.findDrv_of_some inv mid_inv found]
        rfl
      obtain ⟨superseded, s', rest_ok⟩ := ih mid_inv mid_get ((congrArg Worker.up mid_same).trans up) rest_room
      exact ⟨_, s', by rw [Core.adoptAll, bind_of_ok adopt_ok, bind_of_ok rest_ok]; rfl⟩
    · rcases room with room | known
      · omega
      · simp [unknown] at known

/-! ## The whole Hello -/

/-- The slot of an address, new or not. -/
theorem Inv.workerId (inv : Inv s) (addr : String) :
    ∃ wid wkr s', Core.workerId addr s = .ok wid s' ∧ Inv s' ∧ s'.workers[wid]? = some wkr ∧
      wkr.addr = addr ∧ s'.entry = s.entry ∧ s'.cfg = s.cfg ∧ s'.follows = s.follows ∧
      s'.lastAssignId = s.lastAssignId ∧
      (s'.workers = s.workers ∨
        wid = s.workers.length ∧ s'.workers = s.workers ++ [({ addr } : Worker)] ∧
          ∀ wkr ∈ s.workers, wkr.addr ≠ addr) := by
  cases found : s.workerIds.lookup addr with
  | some wid =>
    obtain ⟨wkr, get_eq, addr_eq⟩ := (inv.addrs addr wid).mp found
    refine ⟨wid, wkr, s, ?_, inv, get_eq, addr_eq, rfl, rfl, rfl, rfl, .inl rfl⟩
    simp [Core.workerId, found]
  | none =>
    refine ⟨s.workers.length, { addr },
      { s with
        workers := s.workers ++ [({ addr } : Worker)]
        workerIds := s.workerIds.insert addr s.workers.length }, ?_,
      ⟨inv.ids, inv.queues, inv.runs.append addr, inv.counts.append addr, inv.addrs.append found⟩,
      by simp, rfl, rfl, rfl, rfl, rfl, .inr ⟨rfl, rfl, fun wkr mem addr_eq => ?_⟩⟩
    · simp [Core.workerId, found]
    · obtain ⟨wid, get_eq⟩ := List.getElem?_of_mem mem
      simpa [found] using (inv.addrs addr wid).mpr ⟨wkr, get_eq, addr_eq⟩

variable {info : HelloInfo}

/-- A worker that comes up is known to all its systems, with counts that are still to be made. -/
theorem Inv.register (inv : Inv s) (get_eq : s.workers[wid]? = some wkr) (down : wkr.up = false)
    (addr_eq : wkr.addr = info.addr) :
    ∃ s', Core.register wid info s = .ok () s' ∧ InvOff s' ∅ {wid} ∧ s'.entry = s.entry ∧
      s'.workers = s.workers.set wid info.worker ∧ s'.cfg = s.cfg ∧ s'.follows = s.follows ∧
      s'.lastAssignId = s.lastAssignId := by
  have wkr_mem := mem_of_getElem? get_eq
  have idle : wkr.running = [] := inv.runs.down_idle wkr wkr_mem down
  obtain ⟨next, pushed, counted⟩ := s.systems.pushAll_ok wid info.systems
  have key_eq : next.key = s.systems.key := funext₂ counted.key_eq
  have worker_eq : ({ wkr with
      up := true
      draining := false
      systems := info.systems
      features := info.features
      maxJobs := (min info.maxJobs FreeIndex.maxSlots : ℕ) } : Worker) = info.worker := by
    simp [HelloInfo.worker, addr_eq, idle]
  let up : Core :=
    { s with workersUp := s.workersUp + 1, workers := s.workers.set wid info.worker }
  refine ⟨{ up with systems := next }, ?_, ⟨inv.ids, key_eq ▸ inv.queues, ?_, ?_, ?_⟩, rfl, rfl, rfl, rfl, rfl⟩
  · rw [Core.register, bind_of_ok (workerAt_of_get get_eq), bind_modify_apply, worker_eq]
    exact onSystems_of_ok (s := up) pushed
  · refine inv.runs.setWorker get_eq List.nodup_nil (fun _ => rfl) ?_ fun _ _ _ _ => Iff.rfl
    have running_iff := inv.runs.running_iff wid wkr get_eq
    rwa [idle] at running_iff
  · rw [← insert_empty_eq]
    refine inv.counts.relist get_eq (Set.notMem_empty wid) down ?_ counted.free_eq
    change ((min info.maxJobs FreeIndex.maxSlots : ℕ) : ℤ) ≤ FreeIndex.maxSlots
    exact_mod_cast min_le_right info.maxJobs FreeIndex.maxSlots
  · exact inv.addrs.set get_eq addr_eq.symm

/-- What a Hello does, in terms of the entries that are left when the sender's old session is
gone. -/
structure Greeted (s s' : Core) (info : HelloInfo) (wid : WorkerId) (superseded : List Superseded) :
    Prop where
  addr_ne : info.addr ≠ ""
  slot : (∃ wkr, s.workers[wid]? = some wkr ∧ wkr.addr = info.addr) ∨
    wid = s.workers.length ∧ ∀ wkr ∈ s.workers, wkr.addr ≠ info.addr
  roster_self : s'.roster[wid]? = some info.worker
  roster_other : ∀ other ≠ wid, s'.roster[other]? = s.roster[other]?
  known : ∀ drv ent, (s.entry drv).bind (leave wid) = some ent →
    s'.entry drv = some (adoptEntry wid info.running ent)
  created : ∀ drv ent, (s.entry drv).bind (leave wid) = none → s'.entry drv = some ent →
    ∃ path assignId, reported info.running (PathKey.ofPath path) = some assignId ∧
      ent = { drvPath := path, worker := some wid, assignId }
  complete : ∀ path, (reported info.running (PathKey.ofPath path)).isSome → (s'.findDrv path).isSome
  superseded_iff : ∀ sup, sup ∈ superseded ↔ ∃ ent, (s.entry sup.drv).bind (leave wid) = some ent ∧
    (reported info.running ent.pathKey).isSome ∧ lostTo wid sup.drv ent = some sup
  cfg_eq : s'.cfg = s.cfg
  follows_eq : s'.follows = s.follows
  lastAssignId_eq : s'.lastAssignId = s.lastAssignId

/-- A worker that is down holds nothing, so nothing changes when it leaves. -/
theorem Inv.bind_leave_of_down (inv : Inv s) (get_eq : s.workers[wid]? = some wkr)
    (down : wkr.up = false) (drv : DrvId) : (s.entry drv).bind (leave wid) = s.entry drv := by
  cases live : s.entry drv with
  | none => rfl
  | some ent =>
    have not_assigned : ent.worker ≠ some wid := by
      intro assigned
      have running := (inv.runs.running_iff wid wkr get_eq drv).mpr ⟨Set.notMem_empty drv, ent, live, assigned⟩
      rw [inv.runs.down_idle wkr (mem_of_getElem? get_eq) down] at running
      simp at running
    simp [leave, not_assigned]

/-- The old session of a worker that says Hello again ends first. -/
theorem Inv.endOldSession (inv : Inv s) (get_eq : s.workers[wid]? = some wkr) :
    ∃ s', Core.endOldSession wid s = .ok () s' ∧ Inv s' ∧
      (∀ drv, s'.entry drv = (s.entry drv).bind (leave wid)) ∧
      s'.workers = s.workers.set wid { wkr with up := false, running := [] } ∧
      s'.cfg = s.cfg ∧ s'.follows = s.follows ∧ s'.lastAssignId = s.lastAssignId := by
  rw [Core.endOldSession, bind_of_ok (workerAt_of_get get_eq)]
  cases up : wkr.up with
  | true => simpa using inv.workerGone get_eq
  | false =>
    refine ⟨s, rfl, inv, fun drv => (inv.bind_leave_of_down get_eq up drv).symm, ?_, rfl, rfl, rfl⟩
    have idle := inv.runs.down_idle wkr (mem_of_getElem? get_eq) up
    have same : ({ wkr with up := false, running := [] } : Worker) = wkr := by
      rw [← up, ← idle]
    rw [same, Tally.set_found get_eq]

/-- A Hello with an address ends the old session of its worker and brings it up, and then looks at what
is reported. -/
theorem Inv.greet (inv : Inv s) (addr_ne : info.addr ≠ "") :
    ∃ slot up, Core.hello info s = (do
        let superseded ← Core.adoptAll slot info.running
        Core.refreshFree slot
        pure (slot, superseded)) up ∧
      InvOff up ∅ {slot} ∧ up.workers[slot]? = some info.worker ∧
      (∀ drv, up.entry drv = (s.entry drv).bind (leave slot)) ∧
      ((∃ wkr, s.workers[slot]? = some wkr ∧ wkr.addr = info.addr) ∨
        slot = s.workers.length ∧ ∀ wkr ∈ s.workers, wkr.addr ≠ info.addr) ∧
      (∀ other ≠ slot, up.roster[other]? = s.roster[other]?) ∧
      up.cfg = s.cfg ∧ up.follows = s.follows ∧ up.lastAssignId = s.lastAssignId := by
  obtain ⟨slot, wkr, known, known_ok, known_inv, known_get, addr_eq, known_entry, known_cfg,
    known_follows, known_last, known_workers⟩ := inv.workerId info.addr
  obtain ⟨left, left_ok, left_inv, left_entry, left_workers, left_cfg, left_follows, left_last⟩ :=
    known_inv.endOldSession known_get
  have slot_lt : slot < known.workers.length := (List.getElem?_eq_some_iff.mp known_get).1
  have left_get : left.workers[slot]? = some { wkr with up := false, running := [] } := by
    rw [left_workers]
    exact getElem?_set_self slot_lt
  obtain ⟨up, up_ok, up_inv, up_entry, up_workers, up_cfg, up_follows, up_last⟩ :=
    left_inv.register left_get rfl addr_eq
  have workers_eq : up.workers = known.workers.set slot info.worker := by
    rw [up_workers, left_workers, set_set]
  refine ⟨slot, up, ?_, up_inv, ?_, fun drv => ?_, ?_, fun other other_ne => ?_,
    up_cfg.trans (left_cfg.trans known_cfg), up_follows.trans (left_follows.trans known_follows),
    up_last.trans (left_last.trans known_last)⟩
  · rw [Core.hello, if_neg addr_ne, bind_of_ok known_ok, bind_of_ok left_ok, bind_of_ok up_ok]
  · rw [workers_eq]
    exact getElem?_set_self slot_lt
  · rw [up_entry, left_entry, known_entry]
  · rcases known_workers with same | ⟨slot_eq, -, others⟩
    · exact .inl ⟨wkr, same ▸ known_get, addr_eq⟩
    · exact .inr ⟨slot_eq, others⟩
  · rw [roster, roster, getElem?_map, getElem?_map, workers_eq, List.getElem?_set_ne (Ne.symm other_ne)]
    rcases known_workers with same | ⟨rfl, added, -⟩
    · rw [same]
    · rcases lt_or_gt_of_ne other_ne with before | beyond
      · rw [added, List.getElem?_append_left before]
      · rw [List.getElem?_eq_none beyond.le, List.getElem?_eq_none (by simpa [added] using beyond)]

/-- Once all that is reported is taken over, the Hello goes through. -/
theorem InvOff.greeted {slot : WorkerId} {up held : Core} {lost : List Superseded}
    (inv : InvOff up ∅ {slot}) (get_eq : up.workers[slot]? = some info.worker)
    (ok : Core.adoptAll slot info.running up = .ok lost held) :
    ∃ next, (do
        let superseded ← Core.adoptAll slot info.running
        Core.refreshFree slot
        pure (slot, superseded)) up = .ok (slot, lost) { held with systems := next } ∧
      Inv { held with systems := next } ∧ AdoptedAll up held slot info.running lost := by
  obtain ⟨held_inv, adopted⟩ := inv.adoptAll get_eq rfl ok
  obtain ⟨heldWkr, held_get, -⟩ := get_of_roster adopted.keeps.roster get_eq
  obtain ⟨next, counted_ok, counted_inv, -⟩ := held_inv.refreshFree held_get
  rw [Set.sdiff_self] at counted_inv
  refine ⟨next, ?_, counted_inv, adopted⟩
  rw [bind_of_ok ok, bind_of_ok counted_ok]
  rfl

/-- A Hello with an address goes through if the table has room for what it reports. -/
theorem Inv.hello_ok (inv : Inv s) (addr_ne : info.addr ≠ "")
    (room : s.liveCount + info.running.length ≤ maxEntries) :
    ∃ wid superseded s', Core.hello info s = .ok (wid, superseded) s' := by
  obtain ⟨slot, up, hello_eq, up_inv, up_get, up_entry, -⟩ := inv.greet addr_ne
  have fewer : up.liveCount ≤ s.liveCount := liveCount_le_of_bind up_entry
  have up_room : up.liveCount + info.running.length ≤ maxEntries := by omega
  obtain ⟨lost, held, held_ok⟩ := up_inv.adoptAll_ok up_get rfl (.inl up_room)
  obtain ⟨next, ran, -⟩ := up_inv.greeted up_get held_ok
  exact ⟨slot, lost, _, hello_eq.trans ran⟩

/-- A Hello that goes through keeps the books and takes over everything it reports. -/
theorem Inv.hello (inv : Inv s) {s' : Core} (ok : Core.hello info s = .ok (wid, superseded) s') :
    Inv s' ∧ Greeted s s' info wid superseded := by
  have addr_ne : info.addr ≠ "" := by
    intro addr_eq
    simp [Core.hello, addr_eq] at ok
  obtain ⟨slot, up, hello_eq, up_inv, up_get, up_entry, slot_eq, others, up_cfg, up_follows, up_last⟩ :=
    inv.greet addr_ne
  obtain ⟨lost, held, held_ok, -⟩ := bind_eq_ok.mp (hello_eq.symm.trans ok)
  obtain ⟨next, ran, next_inv, adopted⟩ := up_inv.greeted up_get held_ok
  obtain ⟨⟨rfl, rfl⟩, rfl⟩ : (slot = wid ∧ lost = superseded) ∧ { held with systems := next } = s' := by
    simpa using (hello_eq.trans ran).symm.trans ok
  have roster_eq : roster { held with systems := next } = up.roster := adopted.keeps.roster
  refine ⟨next_inv, addr_ne, slot_eq, ?_, fun other other_ne => ?_, fun drv ent live => ?_,
    fun drv ent unused live => ?_, adopted.complete, fun sup => ?_, adopted.keeps.cfg.trans up_cfg,
    adopted.keeps.follows.trans up_follows, adopted.keeps.lastAssignId.trans up_last⟩
  · rw [roster_eq, roster, getElem?_map, up_get]
    rfl
  · rw [roster_eq, others other other_ne]
  · exact adopted.known drv ent ((up_entry drv).trans live)
  · obtain ⟨path, assignId, report_eq, -, ent_eq⟩ :=
      adopted.created drv ent ((up_entry drv).trans unused) live
    exact ⟨path, assignId, report_eq, ent_eq⟩
  · rw [adopted.superseded_iff, up_entry]

/-- A Hello adds at most the derivations it reports. -/
theorem Greeted.liveCount_le {s' : Core}
    (greeted : Greeted s s' info wid superseded) (inv : Inv s') :
    s'.liveCount ≤ s.liveCount + info.running.length := by
  let found : List DrvId := info.running.filterMap fun report => s'.findDrv report.1
  have found_le : found.toFinset.card ≤ info.running.length :=
    (List.toFinset_card_le found).trans (List.length_filterMap_le _ _)
  rw [s.liveCount_eq_card (le_max_left s.entries.length s'.entries.length),
    s'.liveCount_eq_card (le_max_right s.entries.length s'.entries.length)]
  refine le_trans (Finset.card_le_card fun drv mem => ?_)
    ((Finset.card_union_le _ found.toFinset).trans (Nat.add_le_add_left found_le _))
  simp only [Finset.mem_union, Finset.mem_filter, List.mem_toFinset] at mem ⊢
  obtain ⟨ent, live⟩ := Option.isSome_iff_exists.mp mem.2
  cases old : s.entry drv with
  | some _ => exact .inl ⟨mem.1, rfl⟩
  | none =>
    obtain ⟨path, assignId, report_eq, rfl⟩ := greeted.created drv ent (by rw [old]; rfl) live
    obtain ⟨listed, listed_mem, key_eq⟩ := mem_of_reported report_eq
    exact .inr (List.mem_filterMap.mpr ⟨_, listed_mem, (inv.findDrv_iff listed drv).mpr ⟨_, live, key_eq.symm⟩⟩)

end Core

end NixGrpcStore.Sched
