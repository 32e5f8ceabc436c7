import NixGrpcStore.Lib.Run
import NixGrpcStore.Sched.Dispatch
import NixGrpcStore.Sched.Hello
import NixGrpcStore.Sched.Placeability

/-!
# Runs of the core

A run starts from an empty core and applies operations that do not throw.  Every state of every run
keeps its books, and assignment ids grow.
-/

namespace NixGrpcStore.Sched

open StateExcept

namespace Core

/-- The operations of the core that change it. -/
inductive Op
  | want (client : ClientId) (info : WantInfo) (nowMs : ℚ)
  | cancel (client : ClientId) (drvPath : String)
  | cancelId (client : ClientId) (drv : DrvId)
  | clientGone (client : ClientId)
  | hello (info : HelloInfo)
  | done (wid : WorkerId) (drvPath : String) (outputs : List (String × ℕ))
  | giveBack (wid : WorkerId) (drvPath : String)
  | setDraining (wid : WorkerId) (draining : Bool)
  | workerGone (wid : WorkerId)
  | dispatch (order : VisitOrder)
  | placeabilityChanges
  | markUnplaceable (drv : DrvId) (unplaceable : Bool)

/-- Run an operation; what it emits are the assignments of a dispatch. -/
def Op.run : Op → CoreM (List Assign)
  | .want client info nowMs => do let _ ← Core.want client info nowMs; pure []
  | .cancel client drvPath => do let _ ← Core.cancel client drvPath; pure []
  | .cancelId client drv => do let _ ← Core.cancelId client drv; pure []
  | .clientGone client => do let _ ← Core.clientGone client; pure []
  | .hello info => do let _ ← Core.hello info; pure []
  | .done wid drvPath outputs => do Core.done wid drvPath outputs; pure []
  | .giveBack wid drvPath => do Core.giveBack wid drvPath; pure []
  | .setDraining wid draining => do Core.setDraining wid draining; pure []
  | .workerGone wid => do Core.workerGone wid; pure []
  | .dispatch order => Core.dispatch order
  | .placeabilityChanges => do let _ ← Core.placeabilityChanges; pure []
  | .markUnplaceable drv unplaceable => do Core.markUnplaceable drv unplaceable; pure []

/-- A Want names a system. -/
def Op.Named : Op → Prop
  | .want _ info _ => info.system ≠ ""
  | _ => True

/-- A core no operation was applied to. -/
def Fresh (s : Core) : Prop := ∃ cfg, s = { cfg }

/-- One operation that does not throw. -/
def Step (s : Core) (out : List Assign) (s' : Core) : Prop :=
  ∃ op : Op, op.Named ∧ op.run s = .ok out s'

/-- The states of all runs, with all assignments made so far. -/
abbrev Reached (s : Core) (log : List Assign) : Prop := Run.Reached Fresh Step s log

/-- Run operations one after the other and collect the assignments. -/
def runAll : List Op → CoreM (List Assign)
  | [] => pure []
  | op :: ops => do
    let out ← op.run
    let rest ← runAll ops
    pure (out ++ rest)

variable {s s' : Core} {wid : WorkerId}

theorem Reached.runAll {ops : List Op} {log out : List Assign} (reached : Reached s log)
    (named : ∀ op ∈ ops, op.Named) (ok : Core.runAll ops s = .ok out s') :
    Reached s' (log ++ out) := by
  induction ops generalizing s log out with
  | nil =>
    obtain ⟨rfl, rfl⟩ : [] = out ∧ s = s' := by simpa [Core.runAll] using ok
    simpa using reached
  | cons op ops ih =>
    obtain ⟨first, mid, first_ok, ok⟩ := bind_eq_ok.mp ok
    obtain ⟨rest, last, rest_ok, ok⟩ := bind_eq_ok.mp ok
    obtain ⟨rfl, rfl⟩ : first ++ rest = out ∧ last = s' := by simpa using ok
    rw [← List.append_assoc]
    exact ih (.step reached ⟨op, named op List.mem_cons_self, first_ok⟩)
      (fun other mem => named other (List.mem_cons_of_mem op mem)) rest_ok

theorem workerAt_eq_ok {wkr : Worker} (ok : workerAt wid s = .ok wkr s') :
    s.workers[wid]? = some wkr ∧ s' = s := by
  cases get_eq : s.workers[wid]? with
  | none => simp [workerAt, get_eq] at ok
  | some other =>
    obtain ⟨rfl, rfl⟩ : other = wkr ∧ s = s' := by simpa [workerAt, get_eq] using ok
    exact ⟨rfl, rfl⟩

/-- What every operation does to the books and to the assignment ids. -/
structure StepKeeps (s : Core) (out : List Assign) (s' : Core) : Prop where
  inv : Inv s'
  last_le : s.lastAssignId ≤ s'.lastAssignId
  ids : ∀ asg ∈ out, s.lastAssignId < asg.assignId ∧ asg.assignId ≤ s'.lastAssignId

/-- An operation that emits nothing. -/
theorem StepKeeps.quiet (inv : Inv s') (last_eq : s'.lastAssignId = s.lastAssignId) : StepKeeps s [] s' :=
  ⟨inv, last_eq.ge, by simp⟩

theorem discard_eq_ok {α : Type} {m : CoreM α} {out : List Assign}
    (ok : (do let _ ← m; pure []) s = EStateM.Result.ok out s') :
    out = [] ∧ ∃ a, m s = .ok a s' := by
  obtain ⟨a, mid, m_ok, rest⟩ := bind_eq_ok.mp ok
  obtain ⟨rfl, rfl⟩ : [] = out ∧ mid = s' := by simpa using rest
  exact ⟨rfl, a, m_ok⟩

/-- Every operation keeps the books. -/
theorem Inv.step {out : List Assign} (inv : Inv s) (step : Step s out s') : StepKeeps s out s' := by
  obtain ⟨op, named, ok⟩ := step
  cases op with
  | want client info nowMs =>
    obtain ⟨rfl, result, ok⟩ := discard_eq_ok ok
    rcases inv.want client named nowMs with ⟨drv, next, next_ok, next_inv, wanted⟩ | ⟨full, -⟩
    · cases next_ok.symm.trans ok
      exact .quiet next_inv wanted.lastAssignId_eq
    · simp [full] at ok
  | cancel client drvPath =>
    obtain ⟨rfl, result, ok⟩ := discard_eq_ok ok
    obtain ⟨revoke, next, next_ok, next_inv, -, keeps, -⟩ := inv.cancel client drvPath
    cases next_ok.symm.trans ok
    exact .quiet next_inv keeps.lastAssignId
  | cancelId client drv =>
    obtain ⟨rfl, result, ok⟩ := discard_eq_ok ok
    obtain ⟨next, next_ok, next_inv, -, keeps, -⟩ := inv.cancelId client drv
    cases next_ok.symm.trans ok
    exact .quiet next_inv keeps.lastAssignId
  | clientGone client =>
    obtain ⟨rfl, result, ok⟩ := discard_eq_ok ok
    obtain ⟨next, revokes, next_ok, next_inv, -, -, -, -, -, last_eq⟩ := inv.clientGone client
    cases next_ok.symm.trans ok
    exact .quiet next_inv last_eq
  | hello info =>
    obtain ⟨rfl, ⟨wid, superseded⟩, ok⟩ := discard_eq_ok ok
    obtain ⟨next_inv, greeted⟩ := inv.hello ok
    exact .quiet next_inv greeted.lastAssignId_eq
  | done wid drvPath outputs =>
    obtain ⟨rfl, ⟨⟩, ok⟩ := discard_eq_ok ok
    obtain ⟨wkr, mid, at_wid, -⟩ := bind_eq_ok.mp ok
    obtain ⟨next, next_ok, next_inv, -, keeps⟩ := inv.done (workerAt_eq_ok at_wid).1 drvPath outputs
    cases next_ok.symm.trans ok
    exact .quiet next_inv keeps.lastAssignId
  | giveBack wid drvPath =>
    obtain ⟨rfl, ⟨⟩, ok⟩ := discard_eq_ok ok
    cases found : s.findDrv drvPath with
    | none =>
      obtain rfl : s = s' := by simpa [Core.giveBack, found] using ok
      exact .quiet inv rfl
    | some drv =>
      obtain ⟨wkr, get_eq⟩ : ∃ wkr, s.workers[wid]? = some wkr := by
        rw [Core.giveBack, bind_get_apply, found] at ok
        obtain ⟨_, _, released, -⟩ := bind_eq_ok.mp ok
        obtain ⟨wkr, _, at_wid, -⟩ := bind_eq_ok.mp released
        exact ⟨wkr, (workerAt_eq_ok at_wid).1⟩
      obtain ⟨next, next_ok, next_inv, -, keeps⟩ := inv.giveBack get_eq drvPath
      cases next_ok.symm.trans ok
      exact .quiet next_inv keeps.lastAssignId
  | setDraining wid draining =>
    obtain ⟨rfl, ⟨⟩, ok⟩ := discard_eq_ok ok
    obtain ⟨wkr, mid, at_wid, -⟩ := bind_eq_ok.mp ok
    obtain ⟨next, next_ok, next_inv, -, -, -, -, last_eq⟩ := inv.setDraining (workerAt_eq_ok at_wid).1 draining
    cases next_ok.symm.trans ok
    exact .quiet next_inv last_eq
  | workerGone wid =>
    obtain ⟨rfl, ⟨⟩, ok⟩ := discard_eq_ok ok
    obtain ⟨wkr, mid, at_wid, -⟩ := bind_eq_ok.mp ok
    obtain ⟨next, next_ok, next_inv, -, -, -, -, last_eq⟩ := inv.workerGone (workerAt_eq_ok at_wid).1
    cases next_ok.symm.trans ok
    exact .quiet next_inv last_eq
  | dispatch order =>
    obtain ⟨out', skipped, last, next, next_ok, next_inv, served, -⟩ := inv.dispatch order
    cases next_ok.symm.trans ok
    obtain ⟨last_ge, ids, -⟩ := served.ids
    exact ⟨next_inv, last_ge, ids⟩
  | placeabilityChanges =>
    obtain ⟨rfl, result, ok⟩ := discard_eq_ok ok
    obtain ⟨changed, next, next_ok, next_inv, next_eq, -⟩ := inv.placeabilityChanges
    cases next_ok.symm.trans ok
    exact .quiet next_inv (by rw [next_eq])
  | markUnplaceable drv unplaceable =>
    obtain ⟨rfl, ⟨⟩, ok⟩ := discard_eq_ok ok
    obtain ⟨next_inv, next_eq, -⟩ := inv.markUnplaceable ok
    exact .quiet next_inv (by rw [next_eq])

/-- In every run the books are kept, and no assignment id was given beyond the last one. -/
theorem Reached.inv {log : List Assign} (reached : Reached s log) :
    Inv s ∧ ∀ asg ∈ log, asg.assignId ≤ s.lastAssignId := by
  refine Run.Reached.invariant (P := fun s log => Inv s ∧ ∀ asg ∈ log, asg.assignId ≤ s.lastAssignId)
    ?_ ?_ reached
  · rintro s ⟨cfg, rfl⟩
    exact ⟨inv_empty cfg, by simp⟩
  · rintro s log out s' ⟨inv, log_le⟩ step
    have keeps := inv.step step
    refine ⟨keeps.inv, fun asg mem => ?_⟩
    rcases List.mem_append.mp mem with mem | mem
    · exact (log_le asg mem).trans keeps.last_le
    · exact (keeps.ids asg mem).2

/-! ## The books, as a reader of the state sees them -/

/-- The bookkeeping of the core, without reference to how it is kept. -/
structure Bookkeeping (s : Core) : Prop where
  /-- Every slot is free exactly once or live, never both. -/
  free_or_live : ∀ drv < s.entries.length,
    (s.freeIds.count drv = 1 ∧ s.entry drv = none) ∨ (drv ∉ s.freeIds ∧ (s.entry drv).isSome)
  free_lt : ∀ drv ∈ s.freeIds, drv < s.entries.length
  /-- The id table is a bijection between the paths of live entries and their slots. -/
  id_iff : ∀ key drv, s.drvIds.lookup key = some drv ↔
    ∃ ent, s.entry drv = some ent ∧ PathKey.ofPath ent.drvPath = key
  followed : ∀ drv ent, s.entry drv = some ent → ent.worker = none → ent.followers ≠ []
  /-- An entry is queued if it has no worker, under its system and with its priority. -/
  queued_iff : ∀ name drv key, s.systems.key name drv = some key ↔
    ∃ ent, s.entry drv = some ent ∧ ent.worker = none ∧ ent.system = name ∧ prio s.cfg ent = key
  /-- A worker runs what is assigned to it. -/
  running_iff : ∀ wid drv, (∃ wkr, s.workers[wid]? = some wkr ∧ drv ∈ wkr.running) ↔
    ∃ ent, s.entry drv = some ent ∧ ent.worker = some wid
  running_nodup : ∀ wkr ∈ s.workers, wkr.running.Nodup
  down_idle : ∀ wkr ∈ s.workers, wkr.up = false → wkr.running = []
  /-- A worker is tracked with its free slots in every system it lists. -/
  counted : ∀ wid wkr, s.workers[wid]? = some wkr → ∀ name ∈ wkr.systems,
    ∃ st, s.systems.lookup name = some st ∧ st.free.value wid =
      some (if wkr.takesWork then wkr.maxJobs - (min wkr.running.length 63 : ℕ) else 0)

theorem Inv.bookkeeping (inv : Inv s) : Bookkeeping s where
  free_or_live drv drv_lt := by
    obtain ⟨slot, slot_eq⟩ : ∃ slot, s.entries[drv]? = some slot := ⟨_, List.getElem?_eq_getElem drv_lt⟩
    have free_iff := inv.ids.free_iff drv
    rw [slotKeys, List.getElem?_map, slot_eq, Option.map_some, Option.some.injEq,
      Option.map_eq_none_iff] at free_iff
    rw [entry, slot_eq, Option.join_some]
    cases slot with
    | none =>
      exact .inl ⟨List.count_eq_one_of_mem inv.ids.free_nodup (free_iff.mpr rfl), rfl⟩
    | some ent => exact .inr ⟨by simp [free_iff], rfl⟩
  free_lt drv mem := by
    have slot_eq := (inv.ids.free_iff drv).mp mem
    simpa [slotKeys] using (List.getElem?_eq_some_iff.mp slot_eq).1
  id_iff key drv := by
    rw [inv.ids.id_iff, slotKeys, List.getElem?_map]
    simp only [Option.map_eq_some_iff, entry, Option.join_eq_some_iff]
    constructor
    · rintro ⟨slot, slot_eq, ent, rfl, key_eq⟩
      exact ⟨ent, slot_eq, key_eq⟩
    · rintro ⟨ent, slot_eq, key_eq⟩
      exact ⟨some ent, slot_eq, ent, rfl, key_eq⟩
  followed drv := inv.queues.followed drv (Set.notMem_empty drv)
  queued_iff name drv key := by
    rw [inv.queues.key_eq drv (Set.notMem_empty drv), Option.bind_eq_some_iff]
    refine exists_congr fun ent => and_congr_right fun _ => ?_
    rw [queueKey, Option.ite_none_right_eq_some, Option.some.injEq, and_assoc]
  running_iff wid drv := by
    constructor
    · rintro ⟨wkr, get_eq, running⟩
      exact ((inv.runs.running_iff wid wkr get_eq drv).mp running).2
    · rintro ⟨ent, live, assigned⟩
      have wid_lt := inv.runs.worker_lt drv (Set.notMem_empty drv) ent wid live assigned
      have get_eq := List.getElem?_eq_getElem wid_lt
      exact ⟨_, get_eq, (inv.runs.running_iff wid _ get_eq drv).mpr ⟨Set.notMem_empty drv, ent, live, assigned⟩⟩
  running_nodup := inv.runs.running_nodup
  down_idle := inv.runs.down_idle
  counted wid wkr get_eq name listed :=
    Option.bind_eq_some_iff.mp (inv.counts.free_eq wid (Set.notMem_empty wid) wkr get_eq name listed)

/-- Every state of every run keeps its books. -/
theorem bookkeeping_of_reached {log : List Assign} (reached : Reached s log) : Bookkeeping s :=
  reached.inv.1.bookkeeping

/-- One worker, a derivation for its system and a more urgent one for another system. -/
def twoSystems : List Op :=
  [.hello { addr := "w0", systems := ["x86_64-linux"], maxJobs := 1 },
    .want 7 { drvPath := "a.drv", system := "aarch64-darwin", cpHintMs := 10 } 0,
    .want 8 { drvPath := "b.drv", system := "x86_64-linux" } 0]

theorem twoSystems_reached : ∃ s, Core.runAll twoSystems {} = .ok [] s ∧ Reached s [] := by
  have value_eq : value (Core.runAll twoSystems {}) = some [] := by decide +kernel
  obtain ⟨s, ok⟩ := eq_ok_of_value value_eq
  refine ⟨s, ok, Reached.runAll (.start ⟨{}, rfl⟩) (fun op mem => ?_) ok⟩
  simp only [twoSystems, List.mem_cons, List.not_mem_nil, or_false] at mem
  rcases mem with rfl | rfl | rfl <;> simp [Op.Named]

theorem bookkeeping_of_twoSystems : ∃ s, Core.runAll twoSystems {} = .ok [] s ∧ Bookkeeping s := by
  obtain ⟨s, ok, reached⟩ := twoSystems_reached
  exact ⟨s, ok, bookkeeping_of_reached reached⟩

end Core

end NixGrpcStore.Sched
