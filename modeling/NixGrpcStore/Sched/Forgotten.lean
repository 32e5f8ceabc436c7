import NixGrpcStore.Sched.InUse
import NixGrpcStore.Sched.Placement

/-!
# Systems nobody uses are forgotten

In every run whose Hellos drop no system in use, and whose Wants leave an entry or a worker with every
system the core keeps, a system that is kept is listed by a worker or asked for.  The count that refuses
new systems then counts no more than what is asked for.  It counts all of that if, moreover, no worker
reports a derivation nobody asked for or one of a system that no worker lists.
-/

namespace NixGrpcStore.Sched

open StateExcept

namespace Core

/-- The systems the core keeps and no worker lists, as `admitsSystem` counts them. -/
def unofferedKept (s : Core) : ℕ := s.systems.keys.countP fun name => !s.offered name

/-- The systems live entries ask for and no worker lists. -/
def unofferedAsked (s : Core) : Finset String :=
  ((s.entries.filterMap id).map Entry.system).toFinset.filter fun name => s.offered name = false

/-- An operation leaves every system it finds in use. -/
def Op.Tidy (s : Core) : Op → Prop
  | .want _ info _ => info.system ≠ "" ∧
      ∀ drv mid ent, drvId info.drvPath s = .ok drv mid → s.entry drv = some ent → ent.system = "" →
        s.offered "" = true ∨ ∃ other ≠ drv, ∃ ent, s.entry other = some ent ∧ ent.system = ""
  | .hello info =>
    ∀ wkr, s.workers[s.slotOf info.addr]? = some wkr → ∀ name ∈ wkr.systems,
      name ∈ info.systems ∨ s.ListedBeside (s.slotOf info.addr) name ∨ s.AskedBeside (s.slotOf info.addr) name
  | _ => True

/-- A Hello drops no system, and reports only what was asked for and some worker can build. -/
def Op.Exact (s : Core) : Op → Prop
  | .hello info =>
    (∀ wkr, s.workers[s.slotOf info.addr]? = some wkr → ∀ name ∈ wkr.systems,
      name ∈ info.systems ∨ s.ListedBeside (s.slotOf info.addr) name) ∧
    ∀ report ∈ info.running, ∃ drv ent, s.findDrv report.1 = some drv ∧ s.entry drv = some ent ∧
      (ent.worker ≠ some (s.slotOf info.addr) ∨ ent.followers ≠ []) ∧
      (ent.system ∈ info.systems ∨ s.ListedBeside (s.slotOf info.addr) ent.system)
  | _ => True

/-- The states of all tidy runs, whether or not an operation throws.  In an exact run every operation is
exact. -/
inductive Tended (exact : Bool) : Core → Prop
  | start (cfg : Config) : Tended exact { cfg }
  | step {s : Core} (op : Op) (run : Tended exact s) (tidy : op.Tidy s) (precise : exact = true → op.Exact s) :
    Tended exact (after (op.run s))

variable {s s' : Core} {exact : Bool} {wid : WorkerId} {name : String}

theorem mem_unofferedAsked :
    name ∈ s.unofferedAsked ↔ s.Asked name ∧ s.offered name = false := by
  simp only [unofferedAsked, Finset.mem_filter, List.mem_toFinset, List.mem_map, List.mem_filterMap, id]
  refine and_congr_left fun _ => ⟨?_, ?_⟩
  · rintro ⟨ent, ⟨slot, mem, is_live⟩, own⟩
    obtain ⟨drv, slot_eq⟩ := List.getElem?_of_mem mem
    exact ⟨drv, ent, by simp [entry, slot_eq, is_live], own⟩
  · rintro ⟨drv, ent, live, own⟩
    exact ⟨ent, ⟨some ent, List.mem_of_getElem? (getElem?_of_entry live), rfl⟩, own⟩

theorem unofferedKept_eq_card (s : Core) :
    s.unofferedKept = (s.systems.keys.toFinset.filter fun name => s.offered name = false).card := by
  rw [unofferedKept, List.countP_eq_length_filter, ← List.toFinset_card_of_nodup (s.systems.keys_nodup.filter _),
    List.toFinset_filter]
  simp

theorem kept_empty (cfg : Config) : Kept { cfg } :=
  ⟨by simp, by simp, by simp [entry], fun name mem => absurd mem (AList.notMem_empty name)⟩

/-- A tidy operation leaves every system in use, also if it throws. -/
theorem Kept.step (kept : Kept s) {op : Op} (tidy : op.Tidy s) : Kept (after (op.run s)) := by
  have discard : ∀ {α : Type} {m : CoreM α}, Kept (after (m s)) →
      Kept (after ((do let _ ← m; pure ([] : List Assign)) s)) := fun last_kept =>
    after_bind (P := Kept) last_kept fun _ _ still => still
  cases op with
  | want client info nowMs => exact discard (kept.want client nowMs tidy.1 tidy.2)
  | cancel client drvPath => exact discard ((tends_cancel client drvPath s).kept kept)
  | cancelId client drv => exact discard ((tends_cancelId client drv s).kept kept)
  | clientGone client => exact discard ((tends_clientGone client s).kept kept)
  | hello info => exact discard (kept.hello tidy)
  | done wid drvPath outputs => exact discard ((tends_allows.done wid drvPath outputs s).kept kept)
  | giveBack wid drvPath => exact discard ((tends_allows.giveBack wid drvPath s).kept kept)
  | setDraining wid draining => exact discard ((tends_setDraining wid draining s).kept kept)
  | workerGone wid => exact discard ((tends_workerGone wid s).kept kept)
  | dispatch order => exact kept.dispatch order
  | placeabilityChanges => exact discard kept.placeabilityChanges
  | markUnplaceable drv unplaceable => exact discard (kept.markUnplaceable drv unplaceable)

theorem Tended.kept (run : Tended exact s) : Kept s := by
  induction run with
  | start cfg => exact kept_empty cfg
  | step op run tidy precise ih => exact ih.step tidy

/-! ## Exact runs -/

/-- Every entry names its system, and what is assigned is in a system that is listed. -/
def Settled (s : Core) : Prop :=
  ∀ drv ent, s.entry drv = some ent → ent.system ≠ "" ∧ (ent.worker ≠ none → s.offered ent.system = true)

/-- No entry is new, none changes its system or gets a worker. -/
structure Lasts (s s' : Core) : Prop where
  listings_eq : s'.workers.map Worker.systems = s.workers.map Worker.systems
  entry : ∀ drv new, s'.entry drv = some new →
    ∃ ent, s.entry drv = some ent ∧ new.system = ent.system ∧ (new.worker = none ∨ new.worker = ent.worker)

theorem Settled.lasts (settled : Settled s) (lasts : Lasts s s') : Settled s' := by
  intro drv new live
  obtain ⟨ent, ent_live, system_eq, worker_eq⟩ := lasts.entry drv new live
  obtain ⟨named, listed⟩ := settled drv ent ent_live
  rw [system_eq, offered_congr lasts.listings_eq]
  refine ⟨named, fun assigned => listed ?_⟩
  rcases worker_eq with idle | same
  · exact absurd idle assigned
  · rwa [← same]

theorem listings_of_roster (roster_eq : s'.roster = s.roster) :
    s'.workers.map Worker.systems = s.workers.map Worker.systems := by
  have from_roster : ∀ s : Core, s.workers.map Worker.systems = s.roster.map Worker.systems := by
    intro s
    rw [roster, List.map_map]
    rfl
  rw [from_roster, from_roster, roster_eq]

theorem lasts_of_bind {change : DrvId → Entry → Option Entry}
    (listings_eq : s'.workers.map Worker.systems = s.workers.map Worker.systems)
    (entry_eq : ∀ drv, s'.entry drv = (s.entry drv).bind (change drv))
    (keeps : ∀ drv ent new, change drv ent = some new →
      new.system = ent.system ∧ (new.worker = none ∨ new.worker = ent.worker)) : Lasts s s' := by
  refine ⟨listings_eq, fun drv new live => ?_⟩
  rw [entry_eq] at live
  obtain ⟨ent, ent_live, changed⟩ := Option.bind_eq_some_iff.mp live
  exact ⟨ent, ent_live, keeps drv ent new changed⟩

theorem unfollow_lasts {client : ClientId} {ent new : Entry} (left : unfollow client ent = some new) :
    new.system = ent.system ∧ (new.worker = none ∨ new.worker = ent.worker) := by
  unfold unfollow at left
  split_ifs at left
  · cases left
    exact ⟨rfl, .inr rfl⟩
  · cases left
    exact ⟨rfl, .inr rfl⟩

theorem offered_iff_roster :
    s.offered name = true ↔ ∃ (wid : WorkerId) (wkr : Worker), s.roster[wid]? = some wkr ∧ name ∈ wkr.systems := by
  constructor
  · intro listed
    obtain ⟨wkr, mem, lists⟩ := List.any_eq_true.mp listed
    obtain ⟨wid, get_eq⟩ := List.getElem?_of_mem mem
    exact ⟨wid, { wkr with running := [] }, by simp [roster, get_eq], by simpa using lists⟩
  · rintro ⟨wid, wkr, get_eq, lists⟩
    rw [roster, List.getElem?_map] at get_eq
    obtain ⟨full, full_get, rfl⟩ := Option.map_eq_some_iff.mp get_eq
    exact offered_of_listed full_get lists

theorem Settled.want (settled : Settled s) {client : ClientId} {info : WantInfo} {nowMs : ℚ} {drv : DrvId}
    (named : info.system ≠ "") (wanted : Wanted s s' client info nowMs drv) : Settled s' := by
  have listed_eq : ∀ name, s'.offered name = s.offered name := by
    intro name
    rw [offered, offered, wanted.workers_eq]
  intro id new live
  rw [wanted.entry_eq] at live
  rw [listed_eq]
  by_cases id_drv : id = drv
  · subst id_drv
    rw [Function.update_self] at live
    obtain rfl := Option.some.inj live
    refine ⟨wantEntry_system_ne client nowMs named _, fun assigned => ?_⟩
    rw [wantEntry_worker] at assigned
    cases slot : s.entry id with
    | none => simp [slot] at assigned
    | some ent =>
      obtain ⟨ent_named, listed⟩ := settled id ent slot
      rw [wantEntry_system, if_neg ent_named]
      exact listed (by simpa [slot] using assigned)
  · rw [Function.update_of_ne id_drv] at live
    exact settled id new live

theorem Settled.dispatch (settled : Settled s) (inv : Inv s) {order : VisitOrder} {out : List Assign}
    (ok : Core.dispatch order s = .ok out s') : Settled s' := by
  obtain ⟨placed, skipped, last, next, ran, -, served, -⟩ := inv.dispatch order
  obtain ⟨rfl, rfl⟩ := EStateM.Result.ok.inj (ran.symm.trans ok)
  have listed_eq : ∀ name, offered { last with systems := next } name = s.offered name :=
    offered_congr (listings_of_roster served.keeps.2.1)
  intro drv new live
  have live : last.entry drv = some new := live
  rw [listed_eq]
  by_cases is_placed : ∃ asg ∈ placed, asg.drv = drv
  · obtain ⟨asg, mem, rfl⟩ := is_placed
    obtain ⟨ent, wkr, old, -, can, -, -, new_live⟩ := served.placed mem
    cases new_live.symm.trans live
    refine ⟨(settled asg.drv ent old).1, fun _ => ?_⟩
    obtain ⟨wid, server, get_eq, -, offers⟩ := placeable_iff.mp can
    exact offered_of_listed get_eq (mem_systems_of_offers offers)
  · rw [served.entry_other fun asg mem is_drv => is_placed ⟨asg, mem, is_drv⟩] at live
    exact settled drv new live

theorem Inv.slotOf_eq (inv : Inv s) {addr : String}
    (slot : (∃ wkr, s.workers[wid]? = some wkr ∧ wkr.addr = addr) ∨
      wid = s.workers.length ∧ ∀ wkr ∈ s.workers, wkr.addr ≠ addr) : s.slotOf addr = wid := by
  unfold slotOf
  rcases slot with ⟨wkr, get_eq, addr_eq⟩ | ⟨rfl, unknown⟩
  · rw [(inv.addrs addr wid).mpr ⟨wkr, get_eq, addr_eq⟩, Option.getD_some]
  · cases found : s.workerIds.lookup addr with
    | none => rfl
    | some known =>
      obtain ⟨wkr, get_eq, addr_eq⟩ := (inv.addrs addr known).mp found
      exact absurd addr_eq (unknown wkr (List.mem_of_getElem? get_eq))

variable {info : HelloInfo}

/-- The entry of a derivation that an exact Hello reports outlives the old session. -/
theorem Op.Exact.outlives (inv : Inv s) (exact_op : (Op.hello info).Exact s)
    (slot_eq : s.slotOf info.addr = wid) {report : String × ℕ} (mem : report ∈ info.running) :
    ∃ drv ent left, s.entry drv = some ent ∧ ent.pathKey = PathKey.ofPath report.1 ∧ leave wid ent = some left ∧
      left.pathKey = ent.pathKey ∧ (ent.system ∈ info.systems ∨ s.ListedBeside wid ent.system) := by
  obtain ⟨drv, ent, found, live, outlives, builds⟩ := exact_op.2 report mem
  rw [slot_eq] at outlives builds
  obtain ⟨other, other_live, key_eq⟩ := (inv.findDrv_iff report.1 drv).mp found
  cases live.symm.trans other_live
  obtain ⟨left, left_eq, left_key⟩ : ∃ left, leave wid ent = some left ∧ left.pathKey = ent.pathKey := by
    unfold leave
    split_ifs with held alone
    · exact absurd alone (outlives.resolve_left (not_not.mpr held))
    · exact ⟨_, rfl, rfl⟩
    · exact ⟨_, rfl, rfl⟩
  exact ⟨drv, ent, left, live, key_eq, left_eq, left_key, builds⟩

/-- An exact Hello with an address goes through: nothing it reports is new. -/
theorem Inv.hello_exact (inv : Inv s) (addr_ne : info.addr ≠ "")
    (exact_op : (Op.hello info).Exact s) :
    ∃ wid superseded s', Core.hello info s = .ok (wid, superseded) s' := by
  obtain ⟨slot, up, hello_eq, up_inv, up_get, up_entry, slot_or, -⟩ := inv.greet addr_ne
  have known : ∀ report ∈ info.running, (up.findDrv report.1).isSome := by
    intro report mem
    obtain ⟨drv, ent, left, live, key_eq, left_eq, left_key, -⟩ :=
      exact_op.outlives inv (inv.slotOf_eq slot_or) mem
    have left_live : up.entry drv = some left := by rw [up_entry, live, Option.bind_some, left_eq]
    rw [(up_inv.findDrv_iff report.1 drv).mpr ⟨left, left_live, left_key.trans key_eq⟩]
    rfl
  obtain ⟨lost, held, held_ok⟩ := up_inv.adoptAll_ok up_get rfl (.inr known)
  obtain ⟨next, ran, -⟩ := up_inv.greeted up_get held_ok
  exact ⟨slot, lost, _, hello_eq.trans ran⟩

theorem Settled.hello (settled : Settled s) (inv : Inv s) {superseded : List Superseded}
    (exact_op : (Op.hello info).Exact s) (inv' : Inv s')
    (greeted : Greeted s s' info wid superseded) : Settled s' := by
  have slot_eq := inv.slotOf_eq greeted.slot
  have relists := exact_op.1
  rw [slot_eq] at relists
  have own : ∀ name ∈ info.systems, s'.offered name = true := fun name lists =>
    offered_iff_roster.mpr ⟨wid, info.worker, greeted.roster_self, lists⟩
  have beside : ∀ name, s.ListedBeside wid name → s'.offered name = true := by
    rintro name ⟨other, wkr, other_ne, get_eq, lists⟩
    refine offered_iff_roster.mpr ⟨other, { wkr with running := [] }, ?_, lists⟩
    rw [greeted.roster_other other other_ne]
    simp [roster, get_eq]
  have still : ∀ name, s.offered name = true → s'.offered name = true := by
    intro name listed
    obtain ⟨wkr, mem, lists⟩ := List.any_eq_true.mp listed
    obtain ⟨other, get_eq⟩ := List.getElem?_of_mem mem
    have lists : name ∈ wkr.systems := by simpa using lists
    by_cases other_wid : other = wid
    · subst other_wid
      exact (relists wkr get_eq name lists).elim (own name) (beside name)
    · exact beside name ⟨other, wkr, other_wid, get_eq, lists⟩
  -- the entry of a reported path outlives the old session
  have reported_live : ∀ path assignId, reported info.running (PathKey.ofPath path) = some assignId →
      ∃ drv ent left, s.entry drv = some ent ∧ ent.pathKey = PathKey.ofPath path ∧ leave wid ent = some left ∧
        left.pathKey = ent.pathKey ∧ s'.offered ent.system = true := by
    intro path assignId report_eq
    obtain ⟨listed, listed_mem, key_eq⟩ := mem_of_reported report_eq
    obtain ⟨drv, ent, left, live, ent_key, left_eq, left_key, builds⟩ :=
      exact_op.outlives inv slot_eq listed_mem
    exact ⟨drv, ent, left, live, ent_key.trans key_eq, left_eq, left_key,
      builds.elim (own ent.system) (beside ent.system)⟩
  intro drv new live
  cases before : (s.entry drv).bind (leave wid) with
  | none =>
    obtain ⟨path, assignId, report_eq, rfl⟩ := greeted.created drv new before live
    obtain ⟨known, ent, left, ent_live, ent_key, left_eq, left_key, -⟩ := reported_live path assignId report_eq
    have known_left : (s.entry known).bind (leave wid) = some left := by
      rw [ent_live, Option.bind_some, left_eq]
    have known_live := greeted.known known left known_left
    have found := (inv'.findDrv_iff path known).mpr
      ⟨_, known_live, by rw [adoptEntry_pathKey, left_key, ent_key]⟩
    cases found.symm.trans ((inv'.findDrv_iff path drv).mpr ⟨_, live, rfl⟩)
    simp [known_left] at before
  | some left =>
    obtain ⟨ent, ent_live, left_eq⟩ := Option.bind_eq_some_iff.mp before
    obtain ⟨left_system, left_key, left_worker⟩ : left.system = ent.system ∧ left.pathKey = ent.pathKey ∧
        (left.worker ≠ none → ent.worker ≠ none) := by
      unfold leave at left_eq
      split_ifs at left_eq <;> cases left_eq <;> exact ⟨rfl, rfl, by simp⟩
    obtain ⟨named, listed⟩ := settled drv ent ent_live
    cases (greeted.known drv left before).symm.trans live
    unfold adoptEntry
    split
    · rename_i assignId report_eq
      refine ⟨left_system ▸ named, fun _ => ?_⟩
      have key_eq : left.pathKey = PathKey.ofPath left.drvPath := rfl
      obtain ⟨known, held, -, held_live, held_key, -, -, builds⟩ :=
        reported_live left.drvPath assignId (key_eq ▸ report_eq)
      have found := (inv.findDrv_iff left.drvPath known).mpr ⟨held, held_live, held_key⟩
      cases (found.symm.trans
        ((inv.findDrv_iff left.drvPath drv).mpr ⟨ent, ent_live, left_key.symm.trans key_eq⟩))
      cases ent_live.symm.trans held_live
      exact left_system ▸ builds
    · rw [left_system]
      exact ⟨named, fun assigned => still ent.system (listed (left_worker assigned))⟩

/-- An operation, whether or not it throws, leaves the books kept and the systems of assigned entries listed. -/
def Settles {α : Type} (m : CoreM α) (s : Core) : Prop := Inv (after (m s)) ∧ Settled (after (m s))

section Steps

variable (inv : Inv s) (settled : Settled s)
include settled

theorem Settled.settles {α : Type} {m : CoreM α} {a : α} (ran : m s = .ok a s') (s'_inv : Inv s')
    (lasts : Lasts s s') : Settles m s := by
  rw [Settles, ran]
  exact ⟨s'_inv, settled.lasts lasts⟩

include inv

theorem Settled.idle {α : Type} {m : CoreM α} (same : after (m s) = s) : Settles m s := by
  rw [Settles, same]
  exact ⟨inv, settled⟩

/-- An operation on a worker, which throws at once if the worker is not known. -/
theorem Settled.of_known {m : CoreM Unit} (unknown : s.workers[wid]? = none → after (m s) = s)
    (lasts : ∀ wkr : Worker, s.workers[wid]? = some wkr → ∃ s', m s = .ok () s' ∧ Inv s' ∧ Lasts s s') :
    Settles m s := by
  cases get_eq : s.workers[wid]? with
  | none => exact settled.idle inv (unknown get_eq)
  | some wkr =>
    obtain ⟨s', ran, s'_inv, lasts⟩ := lasts wkr get_eq
    exact settled.settles ran s'_inv lasts

theorem Settled.after_want (client : ClientId) {info : WantInfo} (named : info.system ≠ "")
    (nowMs : ℚ) : Settles (Core.want client info nowMs) s := by
  rcases inv.want client named nowMs with ⟨drv, s', ran, s'_inv, wanted⟩ | ⟨full, -⟩
  · rw [Settles, ran]
    exact ⟨s'_inv, settled.want named wanted⟩
  · exact settled.idle inv (by rw [full, after_error])

theorem Settled.after_cancel (client : ClientId) (path : String) :
    Settles (Core.cancel client path) s := by
  obtain ⟨revoke, s', ran, s'_inv, entry_eq, keeps, -⟩ := inv.cancel client path
  refine settled.settles ran s'_inv
    (lasts_of_bind (listings_of_roster keeps.roster) entry_eq fun _ ent new changed => ?_)
  unfold cancelled at changed
  split_ifs at changed
  · exact unfollow_lasts changed
  · cases changed
    exact ⟨rfl, .inr rfl⟩

theorem Settled.after_cancelId (client : ClientId) (drv : DrvId) :
    Settles (Core.cancelId client drv) s := by
  obtain ⟨s', ran, s'_inv, entry_eq, keeps, -⟩ := inv.cancelId client drv
  refine settled.settles ran s'_inv ⟨listings_of_roster keeps.roster, fun id new live => ?_⟩
  rw [entry_eq] at live
  by_cases id_drv : id = drv
  · subst id_drv
    rw [Function.update_self] at live
    obtain ⟨ent, ent_live, left⟩ := Option.bind_eq_some_iff.mp live
    exact ⟨ent, ent_live, unfollow_lasts left⟩
  · rw [Function.update_of_ne id_drv] at live
    exact ⟨new, live, rfl, .inr rfl⟩

theorem Settled.after_clientGone (client : ClientId) : Settles (Core.clientGone client) s := by
  obtain ⟨s', revokes, ran, s'_inv, entry_eq, -, -, workers_eq, -⟩ := inv.clientGone client
  refine settled.settles ran s'_inv ⟨by rw [workers_eq], fun id new live => ?_⟩
  rw [entry_eq] at live
  split_ifs at live
  · obtain ⟨ent, ent_live, left⟩ := Option.bind_eq_some_iff.mp live
    exact ⟨ent, ent_live, unfollow_lasts left⟩
  · exact ⟨new, live, rfl, .inr rfl⟩

/-- An exact Hello without an address throws at once; every other goes through. -/
theorem Settled.after_hello (exact_op : (Op.hello info).Exact s) : Settles (Core.hello info) s := by
  by_cases nameless : info.addr = ""
  · exact settled.idle inv (by rw [Core.hello, if_pos nameless]; rfl)
  · obtain ⟨wid, superseded, s', ran⟩ := inv.hello_exact nameless exact_op
    obtain ⟨s'_inv, greeted⟩ := inv.hello ran
    rw [Settles, ran]
    exact ⟨s'_inv, settled.hello inv exact_op s'_inv greeted⟩

theorem Settled.after_done (wid : WorkerId) (path : String) (outputs : List (String × ℕ)) :
    Settles (Core.done wid path outputs) s := by
  refine settled.of_known inv after_done_of_none fun wkr get_eq => ?_
  obtain ⟨s', ran, s'_inv, entry_eq, keeps⟩ := inv.done get_eq path outputs
  refine ⟨s', ran, s'_inv, lasts_of_bind (listings_of_roster keeps.roster) entry_eq fun _ ent new changed => ?_⟩
  unfold finish at changed
  split_ifs at changed
  cases changed
  exact ⟨rfl, .inr rfl⟩

theorem Settled.after_giveBack (wid : WorkerId) (path : String) :
    Settles (Core.giveBack wid path) s := by
  refine settled.of_known inv after_giveBack_of_none fun wkr get_eq => ?_
  obtain ⟨s', ran, s'_inv, entry_eq, keeps⟩ := inv.giveBack get_eq path
  refine ⟨s', ran, s'_inv, lasts_of_bind (listings_of_roster keeps.roster) entry_eq fun _ ent new changed => ?_⟩
  unfold returned at changed
  split_ifs at changed
  · cases changed
    exact ⟨rfl, .inl rfl⟩
  · cases changed
    exact ⟨rfl, .inr rfl⟩

theorem Settled.after_setDraining (wid : WorkerId) (draining : Bool) :
    Settles (Core.setDraining wid draining) s := by
  refine settled.of_known inv (fun get_eq => congrArg after (bind_of_error (workerAt_of_none get_eq) _))
    fun wkr get_eq => ?_
  obtain ⟨s', ran, s'_inv, entry_eq, workers_eq, -⟩ := inv.setDraining get_eq draining
  refine ⟨s', ran, s'_inv, ?_, fun id new live => ⟨new, entry_eq ▸ live, rfl, .inr rfl⟩⟩
  rw [workers_eq]
  exact Tally.map_set_of_eq _ get_eq rfl

theorem Settled.after_workerGone (wid : WorkerId) : Settles (Core.workerGone wid) s := by
  refine settled.of_known inv (fun get_eq => congrArg after (bind_of_error (workerAt_of_none get_eq) _))
    fun wkr get_eq => ?_
  obtain ⟨s', ran, s'_inv, entry_eq, workers_eq, -⟩ := inv.workerGone get_eq
  refine ⟨s', ran, s'_inv, lasts_of_bind ?_ entry_eq fun _ ent new changed => ?_⟩
  · rw [workers_eq]
    exact Tally.map_set_of_eq _ get_eq rfl
  · unfold leave at changed
    split_ifs at changed
    · cases changed
      exact ⟨rfl, .inl rfl⟩
    · cases changed
      exact ⟨rfl, .inr rfl⟩

theorem Settled.after_dispatch (order : VisitOrder) : Settles (Core.dispatch order) s := by
  obtain ⟨out, skipped, last, next, ran, next_inv, -⟩ := inv.dispatch order
  rw [Settles, ran]
  exact ⟨next_inv, settled.dispatch inv ran⟩

theorem Settled.after_placeabilityChanges : Settles Core.placeabilityChanges s := by
  obtain ⟨changed, s', ran, s'_inv, s'_eq, entry_eq, -⟩ := inv.placeabilityChanges
  refine settled.settles ran s'_inv ⟨by rw [s'_eq], fun id new live => ?_⟩
  rw [entry_eq] at live
  obtain ⟨ent, ent_live, rfl⟩ := Option.map_eq_some_iff.mp live
  obtain ⟨unplaceable, flag_eq⟩ := withFlag_eq s.placeable ent
  rw [flag_eq]
  exact ⟨ent, ent_live, rfl, .inr rfl⟩

theorem Settled.after_markUnplaceable (drv : DrvId) (unplaceable : Bool) :
    Settles (Core.markUnplaceable drv unplaceable) s := by
  cases slot_eq : s.entries[drv]? with
  | none => exact settled.idle inv (by simp [Core.markUnplaceable, entryAt, bind_apply, slot_eq])
  | some slot =>
    obtain ⟨s', ran⟩ : ∃ s', Core.markUnplaceable drv unplaceable s = .ok () s' := by
      cases slot <;> simp [Core.markUnplaceable, entryAt, bind_apply, slot_eq, setEntry]
    obtain ⟨s'_inv, s'_eq, entry_eq⟩ := inv.markUnplaceable ran
    refine settled.settles ran s'_inv ⟨by rw [s'_eq], fun id new live => ?_⟩
    rw [entry_eq] at live
    by_cases id_drv : id = drv
    · subst id_drv
      rw [Function.update_self] at live
      obtain ⟨ent, ent_live, rfl⟩ := Option.map_eq_some_iff.mp live
      exact ⟨ent, ent_live, rfl, .inr rfl⟩
    · rw [Function.update_of_ne id_drv] at live
      exact ⟨new, live, rfl, .inr rfl⟩

/-- An exact operation, whether or not it throws. -/
theorem Settled.step {op : Op} (tidy : op.Tidy s) (exact_op : op.Exact s) : Settles op.run s := by
  have discard : ∀ {α : Type} {m : CoreM α}, Settles m s →
      Settles (do let _ ← m; pure ([] : List Assign)) s := by
    intro α m still
    rwa [Settles, after_bind_pure]
  cases op with
  | want client info nowMs => exact discard (settled.after_want inv client tidy.1 nowMs)
  | cancel client path => exact discard (settled.after_cancel inv client path)
  | cancelId client drv => exact discard (settled.after_cancelId inv client drv)
  | clientGone client => exact discard (settled.after_clientGone inv client)
  | hello info => exact discard (settled.after_hello inv exact_op)
  | done wid path outputs => exact discard (settled.after_done inv wid path outputs)
  | giveBack wid path => exact discard (settled.after_giveBack inv wid path)
  | setDraining wid draining => exact discard (settled.after_setDraining inv wid draining)
  | workerGone wid => exact discard (settled.after_workerGone inv wid)
  | dispatch order => exact settled.after_dispatch inv order
  | placeabilityChanges => exact discard (settled.after_placeabilityChanges inv)
  | markUnplaceable drv flag => exact discard (settled.after_markUnplaceable inv drv flag)

end Steps

/-- In an exact run the books are kept, too. -/
theorem Tended.settled (run : Tended true s) : Inv s ∧ Settled s := by
  induction run with
  | start cfg => exact ⟨inv_empty cfg, by simp [Settled, entry]⟩
  | step op run tidy precise ih => exact ih.2.step ih.1 tidy (precise rfl)

/-- What is asked for and listed nowhere waits in a queue. -/
theorem Settled.mem_systems (settled : Settled s) (inv : Inv s) (asked : s.Asked name)
    (unlisted : s.offered name = false) : name ∈ s.systems := by
  obtain ⟨drv, ent, live, rfl⟩ := asked
  have waits : ent.worker = none := by
    by_contra assigned
    exact absurd ((settled drv ent live).2 assigned) (by simp [unlisted])
  have queued := (inv.bookkeeping.queued_iff ent.system drv (prio s.cfg ent)).mpr ⟨ent, live, waits, rfl, rfl⟩
  exact @Systems.mem_of_key s.systems ent.system drv (by simp [queued])

/-- A system that is refused leaves room for none: as many others are asked for and listed nowhere as the
core admits. -/
theorem Kept.refused (kept : Kept s) (refused : s.admitsSystem name = false) :
    maxUnofferedSystems ≤ (s.unofferedAsked.erase name).card := by
  simp only [admitsSystem, Bool.or_eq_false_iff, decide_eq_false_iff_not, not_lt] at refused
  refine refused.2.trans ((unofferedKept_eq_card s).le.trans (Finset.card_le_card fun other mem => ?_))
  simp only [Finset.mem_filter, List.mem_toFinset] at mem
  refine Finset.mem_erase.mpr ⟨fun same => refused.1 (same ▸ mem.1), mem_unofferedAsked.mpr ⟨?_, mem.2⟩⟩
  exact (kept.used other mem.1).resolve_left (by simp [mem.2])

/-- Systems nobody uses are forgotten. -/
theorem unused_systems_forgotten (run : Tended exact s) :
    (∀ name ∈ s.systems, s.offered name = true ∨ s.Asked name) ∧ s.unofferedKept ≤ s.unofferedAsked.card ∧
      (exact = true → s.unofferedKept = s.unofferedAsked.card) ∧
      ∀ name, s.admitsSystem name = false → maxUnofferedSystems ≤ (s.unofferedAsked.erase name).card := by
  have kept := run.kept
  have kept_sub : (s.systems.keys.toFinset.filter fun name => s.offered name = false) ⊆ s.unofferedAsked := by
    intro name mem
    simp only [Finset.mem_filter, List.mem_toFinset] at mem
    exact mem_unofferedAsked.mpr ⟨(kept.used name mem.1).resolve_left (by simp [mem.2]), mem.2⟩
  refine ⟨kept.used, ?_, ?_, fun name => kept.refused⟩
  · rw [unofferedKept_eq_card]
    exact Finset.card_le_card kept_sub
  · rintro rfl
    obtain ⟨inv, settled⟩ := run.settled
    rw [unofferedKept_eq_card]
    refine congrArg Finset.card (kept_sub.antisymm fun name mem => ?_)
    obtain ⟨asked, unlisted⟩ := mem_unofferedAsked.mp mem
    simp only [Finset.mem_filter, List.mem_toFinset]
    exact ⟨settled.mem_systems inv asked unlisted, unlisted⟩

/-- A worker for one system, and a derivation for another. -/
def oneUnoffered : Op × Op :=
  (.hello { addr := "w0", systems := ["x86_64-linux"], maxJobs := 1 },
    .want 7 { drvPath := "a.drv", system := "riscv64-linux" } 0)

theorem unused_systems_forgotten_oneUnoffered :
    ∃ s, Tended true s ∧ s.unofferedKept = 1 ∧ s.unofferedKept = s.unofferedAsked.card ∧
      s.admitsSystem "aarch64-darwin" = true := by
  let greeted : Core := after (oneUnoffered.1.run {})
  have greeted_run : Tended true greeted := by
    refine .step oneUnoffered.1 (.start {}) (fun wkr get_eq => ?_) fun _ => ⟨fun wkr get_eq => ?_, ?_⟩
    · simp [slotOf] at get_eq
    · simp [slotOf] at get_eq
    · intro report mem
      cases mem
  have empty : greeted.entries = [] := by
    have length_eq : greeted.entries.length = 0 := by decide +kernel
    exact List.length_eq_zero_iff.mp length_eq
  have wanted_run : Tended true (after (oneUnoffered.2.run greeted)) := by
    refine .step oneUnoffered.2 greeted_run ⟨by decide, fun drv mid ent _ live => ?_⟩ fun _ => trivial
    simp [entry, empty] at live
  refine ⟨_, wanted_run, by decide +kernel, (unused_systems_forgotten wanted_run).2.2.1 rfl, by decide +kernel⟩

/-- A worker that says Hello seventeen times, each time with another system. -/
def relistings : List Op :=
  ["s0", "s1", "s2", "s3", "s4", "s5", "s6", "s7", "s8", "s9", "s10", "s11", "s12", "s13", "s14", "s15", "s16"].map
    fun name => .hello { addr := "w0", systems := [name], maxJobs := 1 }

/-- Systems that a worker once listed are kept, and fill up the room for others. -/
theorem former_systems_refuse_others :
    ∃ s, Reached s [] ∧ "s0" ∈ s.systems ∧ s.offered "s0" = false ∧ ¬ s.Asked "s0" ∧
      s.unofferedKept = 16 ∧ s.unofferedAsked = ∅ ∧ s.admitsSystem "riscv64-linux" = false := by
  have value_eq : value (Core.runAll relistings {}) = some [] := by decide +kernel
  obtain ⟨s, ok⟩ := eq_ok_of_value value_eq
  have reached : Reached s [] := by
    refine Reached.runAll (.start ⟨{}, rfl⟩) (fun op mem => ?_) ok
    obtain ⟨name, -, rfl⟩ := List.mem_map.mp mem
    trivial
  have state_eq : s = after (Core.runAll relistings {}) := by rw [ok, after_ok]
  have empty : s.entries = [] := by
    have length_eq : (after (Core.runAll relistings {})).entries.length = 0 := by decide +kernel
    rw [state_eq]
    exact List.length_eq_zero_iff.mp length_eq
  have unasked : ∀ name, ¬ s.Asked name := by
    rintro name ⟨drv, ent, live, -⟩
    simp [entry, empty] at live
  refine ⟨s, reached, ?_, ?_, unasked "s0", ?_, ?_, ?_⟩
  · rw [state_eq]
    decide +kernel
  · rw [state_eq]
    decide +kernel
  · rw [state_eq]
    decide +kernel
  · simp [unofferedAsked, empty]
  · rw [state_eq]
    decide +kernel

end Core

end NixGrpcStore.Sched
