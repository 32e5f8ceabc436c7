import NixGrpcStore.Sched.Pick

/-!
# Dispatch

`dispatch` serves the heads of the queues, the most urgent one first, until no system has both a
head and a free slot.  A round takes one entry out of its queue and either assigns it or sets it
aside; at the end what was set aside is queued again.  `Served` is the sequence of rounds.
-/

namespace NixGrpcStore.Sched

open StateExcept

namespace Core

variable {s : Core} {aside : Set DrvId} {order : VisitOrder}

/-! ## The system to serve next -/

/-- A system with a waiting head and a free slot. -/
def Ready (s : Core) (name : String) (key : ℚ) : Prop :=
  ∃ st, s.systems.lookup name = some st ∧ st.queue.topKey = some key ∧ 0 < st.free.maxFree

/-- A best system among those visited. -/
structure BestOf (s : Core) (names : List String) (best : Option (String × ℚ))
    (result : Option (String × ℚ)) : Prop where
  none_ready : result = none → best = none ∧ ∀ name ∈ names, ∀ key, ¬ s.Ready name key
  ready : ∀ name key, result = some (name, key) → best = some (name, key) ∨ s.Ready name key
  le_best : ∀ name key old, result = some (name, key) → best = some old → key ≤ old.2
  le_ready : ∀ name key, result = some (name, key) → ∀ other ∈ names, ∀ otherKey,
    s.Ready other otherKey → key ≤ otherKey

theorem betterSystem_cases (s : Core) (best : Option (String × ℚ)) (name : String) :
    (∃ key, s.Ready name key ∧
      (s.betterSystem best name = some (name, key) ∧ (∀ old, best = some old → key ≤ old.2) ∨
        ∃ old, best = some old ∧ s.betterSystem best name = best ∧ old.2 ≤ key)) ∨
    (∀ key, ¬ s.Ready name key) ∧ s.betterSystem best name = best := by
  unfold betterSystem
  split
  · rename_i lookup_eq
    exact .inr ⟨fun key ⟨st, known, _⟩ => by simp [lookup_eq] at known, rfl⟩
  · rename_i st lookup_eq
    split
    · rename_i top_eq
      refine .inr ⟨fun key ⟨st', known, top, _⟩ => ?_, rfl⟩
      cases lookup_eq.symm.trans known
      simp [top_eq] at top
    · rename_i key top_eq
      by_cases free : 0 < st.free.maxFree
      · refine .inl ⟨key, ⟨st, lookup_eq, top_eq, free⟩, ?_⟩
        cases best with
        | none => exact .inl ⟨by simp [free], by simp⟩
        | some old =>
          by_cases less : key < old.2
          · exact .inl ⟨by simp [free, less], by simpa using less.le⟩
          · exact .inr ⟨old, rfl, by simp [less], not_lt.mp less⟩
      · refine .inr ⟨fun key ⟨st', known, _, free'⟩ => ?_, by simp [free]⟩
        cases lookup_eq.symm.trans known
        exact free free'

variable {name : String} {key : ℚ}

theorem Ready.unique {other : ℚ} (first : s.Ready name key)
    (second : s.Ready name other) : key = other := by
  obtain ⟨st, lookup_eq, top_eq, -⟩ := first
  obtain ⟨st', lookup_eq', top_eq', -⟩ := second
  cases lookup_eq.symm.trans lookup_eq'
  exact Option.some.inj (top_eq.symm.trans top_eq')

theorem bestOf_foldl (s : Core) (names : List String) (best : Option (String × ℚ)) :
    BestOf s names best (names.foldl s.betterSystem best) := by
  induction names generalizing best with
  | nil => exact ⟨fun none_eq => ⟨none_eq, by simp⟩, fun name key some_eq => .inl some_eq,
      fun name key old some_eq best_eq => by
        rw [List.foldl_nil, best_eq, Option.some.injEq] at some_eq
        rw [some_eq], by simp⟩
  | cons first names ih =>
    have rest := ih (s.betterSystem best first)
    rw [List.foldl_cons]
    rcases betterSystem_cases s best first with
      ⟨firstKey, ready, ⟨taken, le_old⟩ | ⟨old, best_eq, kept, old_le⟩⟩ | ⟨not_ready, kept⟩
    · refine ⟨fun none_eq => ?_, fun name key some_eq => ?_, fun name key old some_eq best_eq => ?_,
        fun name key some_eq other mem otherKey other_ready => ?_⟩
      · simpa [taken] using (rest.none_ready none_eq).1
      · rcases rest.ready name key some_eq with chosen | is_ready
        · obtain ⟨rfl, rfl⟩ : first = name ∧ firstKey = key := by simpa [taken] using chosen
          exact .inr ready
        · exact .inr is_ready
      · exact (rest.le_best name key _ some_eq taken).trans (le_old old best_eq)
      · rcases List.mem_cons.mp mem with rfl | mem
        · exact (rest.le_best name key _ some_eq taken).trans (ready.unique other_ready).le
        · exact rest.le_ready name key some_eq other mem otherKey other_ready
    · rw [kept] at rest ⊢
      refine ⟨fun none_eq => ?_, rest.ready, rest.le_best,
        fun name key some_eq other mem otherKey other_ready => ?_⟩
      · simpa [best_eq] using (rest.none_ready none_eq).1
      · rcases List.mem_cons.mp mem with rfl | mem
        · exact (rest.le_best name key old some_eq best_eq).trans (old_le.trans (ready.unique other_ready).le)
        · exact rest.le_ready name key some_eq other mem otherKey other_ready
    · rw [kept] at rest ⊢
      refine ⟨fun none_eq => ⟨(rest.none_ready none_eq).1, fun name mem => ?_⟩, rest.ready,
        rest.le_best, fun name key some_eq other mem otherKey other_ready => ?_⟩
      · rcases List.mem_cons.mp mem with rfl | mem
        · exact not_ready
        · exact (rest.none_ready none_eq).2 name mem
      · rcases List.mem_cons.mp mem with rfl | mem
        · exact absurd other_ready (not_ready otherKey)
        · exact rest.le_ready name key some_eq other mem otherKey other_ready

theorem mem_visit_of_ready (ready : s.Ready name key) : name ∈ order.visit s.systems.keys := by
  obtain ⟨st, lookup_eq, -⟩ := ready
  rw [(order.visit_perm s.systems.keys).mem_iff, ← AList.mem_keys, ← AList.lookup_isSome, lookup_eq]
  rfl

/-- The chosen system is ready, and no ready system has a more urgent head. -/
theorem bestSystem_eq_some (best : s.bestSystem order = some (name, key)) :
    s.Ready name key ∧ ∀ other otherKey, s.Ready other otherKey → key ≤ otherKey := by
  have spec := bestOf_foldl s (order.visit s.systems.keys) none
  refine ⟨(spec.ready name key best).resolve_left (by simp), fun other otherKey other_ready => ?_⟩
  exact spec.le_ready name key best other (mem_visit_of_ready other_ready) otherKey other_ready

theorem bestSystem_eq_none (best : s.bestSystem order = none) (name : String) (key : ℚ) :
    ¬ s.Ready name key := by
  intro ready
  have spec := bestOf_foldl s (order.visit s.systems.keys) none
  exact (spec.none_ready best).2 name (mem_visit_of_ready ready) key ready

/-! ## One round -/

/-- A core in the middle of a dispatch: what was set aside is in no queue. -/
structure Serving (s : Core) (aside : Set DrvId) : Prop where
  inv : InvOff s aside ∅
  unqueued : ∀ drv ∈ aside, ∀ name, s.systems.key name drv = none
  waiting : ∀ drv ∈ aside, ∃ ent, s.entry drv = some ent ∧ ent.worker = none ∧ ent.followers ≠ []

/-- Some worker that lists the system has room. -/
def RoomFor (s : Core) (name : String) : Prop :=
  ∃ (wid : WorkerId) (wkr : Worker), s.workers[wid]? = some wkr ∧ name ∈ wkr.systems ∧ wkr.HasRoom

/-- An entry that waits, is not set aside, and is as urgent as any that some worker has room for. -/
structure Urgent (s : Core) (aside : Set DrvId) (drv : DrvId) (ent : Entry) : Prop where
  fresh : drv ∉ aside
  live : s.entry drv = some ent
  waiting : ent.worker = none
  followed : ent.followers ≠ []
  first : ∀ other ∉ aside, ∀ otherEnt, s.entry other = some otherEnt → otherEnt.worker = none →
    s.RoomFor otherEnt.system → prio s.cfg ent ≤ prio s.cfg otherEnt

/-- A round that assigns an entry. -/
structure HeadAssigned (s : Core) (aside : Set DrvId) (mid : Core) (asg : Assign) (ent : Entry) :
    Prop where
  urgent : s.Urgent aside asg.drv ent
  clients_eq : asg.clients = ent.followers
  fits : s.Fits ent asg.worker
  avoid_alone : some asg.worker = ent.avoid →
    ∀ other, some other ≠ ent.avoid → ¬ s.Serves ent other
  assignId_eq : asg.assignId = s.lastAssignId + 1
  entry_eq : mid.entry = Function.update s.entry asg.drv
    (some { ent with worker := some asg.worker, assignId := asg.assignId })
  workers_eq : ∃ wkr, s.workers[asg.worker]? = some wkr ∧
    mid.workers = s.workers.set asg.worker { wkr with running := wkr.running ++ [asg.drv] }
  lastAssignId_eq : mid.lastAssignId = asg.assignId
  cfg_eq : mid.cfg = s.cfg
  follows_eq : mid.follows = s.follows

/-- A round that sets an entry aside. -/
structure HeadSkipped (s : Core) (aside : Set DrvId) (mid : Core) (skip : Skipped) (ent : Entry) :
    Prop where
  urgent : s.Urgent aside skip.drv ent
  system_eq : skip.system = ent.system
  key_eq : skip.key = prio s.cfg ent
  no_fit : ∀ wid, s.Fits ent wid → some wid = ent.avoid ∧ ∃ other ≠ wid, s.Serves ent other
  mid_eq : ∃ next, mid = { s with systems := next }

/-- A system has a free slot exactly if some worker that lists it has room. -/
theorem roomFor_iff (counts : Counts s.workers s.systems.free ∅) {st : SystemState}
    (lookup_eq : s.systems.lookup name = some st) : 0 < st.free.maxFree ↔ s.RoomFor name := by
  rw [FreeIndex.maxFree_pos_iff]
  constructor
  · rintro ⟨wid, val, value_eq, val_pos⟩
    exact ⟨wid, hasRoom_of_value counts lookup_eq value_eq val_pos⟩
  · rintro ⟨wid, wkr, get_eq, listed, room⟩
    have free_eq := counts.free_eq wid (Set.notMem_empty wid) wkr get_eq name listed
    rw [Systems.free, lookup_eq, Option.bind_some] at free_eq
    exact ⟨wid, wkr.slots, free_eq,
      (Worker.slots_pos_iff (counts.maxJobs_le wkr (List.mem_of_getElem? get_eq))).mpr room⟩

variable {drv : DrvId}

/-- What is in a queue waits there under its priority. -/
theorem Serving.waiting_of_key (serving : Serving s aside)
    (queued : s.systems.key name drv = some key) :
    drv ∉ aside ∧ ∃ ent, s.entry drv = some ent ∧ ent.worker = none ∧ ent.system = name ∧
      prio s.cfg ent = key := by
  have fresh : drv ∉ aside := fun mem => by simp [serving.unqueued drv mem name] at queued
  rw [serving.inv.queues.key_eq drv fresh] at queued
  obtain ⟨ent, live, key_eq⟩ := Option.bind_eq_some_iff.mp queued
  unfold queueKey at key_eq
  split at key_eq
  · rename_i waits
    exact ⟨fresh, ent, live, waits.1, waits.2, Option.some.inj key_eq⟩
  · simp at key_eq

variable {ent : Entry}

theorem Serving.key_of_waiting (serving : Serving s aside)
    (fresh : drv ∉ aside) (live : s.entry drv = some ent) (waits : ent.worker = none) :
    s.systems.key ent.system drv = some (prio s.cfg ent) := by
  rw [serving.inv.queues.key_eq drv fresh, live]
  simp [queueKey, waits]

/-- A system with a waiting entry and room is ready, with a head at least as urgent. -/
theorem Serving.ready_of_waiting (serving : Serving s aside)
    (fresh : drv ∉ aside) (live : s.entry drv = some ent) (waits : ent.worker = none)
    (room : s.RoomFor ent.system) : ∃ key ≤ prio s.cfg ent, s.Ready ent.system key := by
  have queued := serving.key_of_waiting fresh live waits
  obtain ⟨st, lookup_eq, in_queue⟩ := Option.bind_eq_some_iff.mp queued
  have top_some : st.queue.topKey.isSome := by
    rw [st.queue.topKey_isSome, Option.isSome_iff_ne_none]
    intro top_none
    rw [st.queue.top_eq_none_iff.mp top_none drv] at in_queue
    simp at in_queue
  obtain ⟨key, top_eq⟩ := Option.isSome_iff_exists.mp top_some
  obtain ⟨-, -, -, least⟩ := IndexedHeap.topKey_spec top_eq
  exact ⟨key, least drv _ in_queue, st, lookup_eq, top_eq, (roomFor_iff serving.inv.counts lookup_eq).mpr room⟩

/-- The head of the chosen system is the most urgent entry. -/
theorem Serving.urgent_head (serving : Serving s aside)
    (best : s.bestSystem order = some (name, key)) :
    ∃ drv ent, (s.systems.sys name).queue.top = some drv ∧ s.Urgent aside drv ent ∧
      ent.system = name := by
  obtain ⟨⟨st, lookup_eq, top_key, -⟩, least⟩ := bestSystem_eq_some best
  obtain ⟨drv, top_eq, in_queue, -⟩ := IndexedHeap.topKey_spec top_key
  have queued : s.systems.key name drv = some key := by
    rw [Systems.key, lookup_eq, Option.bind_some, in_queue]
  obtain ⟨fresh, ent, live, waits, system_eq, prio_eq⟩ := serving.waiting_of_key queued
  refine ⟨drv, ent, ?_, ⟨fresh, live, waits, ?_, ?_⟩, system_eq⟩
  · rw [Systems.sys, lookup_eq, Option.getD_some, top_eq]
  · exact serving.inv.queues.followed drv fresh ent live waits
  · intro other other_fresh otherEnt other_live other_waits room
    obtain ⟨otherKey, other_le, ready⟩ := serving.ready_of_waiting other_fresh other_live other_waits room
    rw [prio_eq]
    exact (least _ _ ready).trans other_le

/-- The head leaves its queue and is set aside. -/
theorem Serving.takeHead (serving : Serving s aside) (urgent : s.Urgent aside drv ent) :
    ∃ next, s.systems.eraseKey ent.system drv = .ok next ∧
      Serving { s with systems := next } (insert drv aside) := by
  obtain ⟨next, erased, rekeyed⟩ := s.systems.eraseKey_ok ent.system drv
  have free_eq : next.free = s.systems.free := funext₂ rekeyed.free_eq
  have set_aside := serving.inv.setAside urgent.live urgent.waiting
  have queues : Queues s.cfg s.entry next.key (insert drv aside) :=
    set_aside.queues.rekey (Set.mem_insert drv aside) urgent.live fun name id other => by
      rw [rekeyed.key_eq, if_neg other]
  refine ⟨next, erased, set_aside.withSystems queues set_aside.runs (free_eq ▸ set_aside.counts), ?_, ?_⟩
  · intro id mem name
    change next.key name id = none
    rw [rekeyed.key_eq]
    split
    · rfl
    · rename_i other
      rcases mem with rfl | mem
      · exact serving.inv.queues.key_other urgent.live fun own => other ⟨own.symm, rfl⟩
      · exact serving.unqueued id mem name
  · rintro id (rfl | mem)
    · exact ⟨ent, urgent.live, urgent.waiting, urgent.followed⟩
    · exact serving.waiting id mem

/-- The entry that was set aside last is put on a worker. -/
theorem Serving.assign (serving : Serving s (insert drv aside)) (fresh : drv ∉ aside)
    (live : s.entry drv = some ent) {wid : WorkerId} {wkr : Worker}
    (get_eq : s.workers[wid]? = some wkr) (up : wkr.up = true) :
    ∃ mid, Core.assign drv ent wid s =
        .ok { drv, worker := wid, assignId := s.lastAssignId + 1, clients := ent.followers } mid ∧
      Serving mid aside ∧
      mid.entry = Function.update s.entry drv
        (some { ent with worker := some wid, assignId := s.lastAssignId + 1 }) ∧
      mid.workers = s.workers.set wid { wkr with running := wkr.running ++ [drv] } ∧
      mid.lastAssignId = s.lastAssignId + 1 ∧ mid.cfg = s.cfg ∧ mid.follows = s.follows := by
  let new : Entry := { ent with worker := some wid, assignId := s.lastAssignId + 1 }
  let started : Worker := { wkr with running := wkr.running ++ [drv] }
  let put : Core :=
    { s with
      lastAssignId := s.lastAssignId + 1
      entries := s.entries.set drv (some new)
      workers := s.workers.set wid started }
  have wid_lt := (List.getElem?_eq_some_iff.mp get_eq).1
  have mem := Set.mem_insert drv aside
  have aside_eq : insert drv aside \ {drv} = aside := by simp [fresh]
  have written := serving.inv.setEntry_aside new mem live rfl rfl (serving.inv.queues.named drv ent live)
  have put_entry : put.entry = Function.update s.entry drv (some new) := entry_set (lt_of_entry live) (some new)
  have put_live : put.entry drv = some new := by rw [put_entry, Function.update_self]
  have put_queues : Queues s.cfg put.entry s.systems.key aside := by
    rw [← aside_eq]
    refine written.queues.settle put_live (by simp [new]) fun name id => ?_
    split
    · rename_i own
      rw [own.2, serving.unqueued drv mem]
      simp [queueKey, new]
    · rfl
  have put_runs : Runs put.entry put.workers aside := by
    rw [← aside_eq]
    exact written.runs.start get_eq up mem put_live rfl
  have put_inv : InvOff put aside {wid} := by
    refine ⟨written.ids, put_queues, put_runs, ?_, serving.inv.addrs.set get_eq rfl⟩
    rw [← insert_empty_eq]
    exact serving.inv.counts.setWorker get_eq rfl
      (serving.inv.counts.maxJobs_le wkr (List.mem_of_getElem? get_eq))
  obtain ⟨next, refreshed, next_inv, next_key⟩ := put_inv.refreshFree (List.getElem?_set_self wid_lt)
  rw [Set.sdiff_self] at next_inv
  refine ⟨{ put with systems := next }, ?_, ⟨next_inv, fun id id_mem name => ?_, fun id id_mem => ?_⟩,
    put_entry, rfl, rfl, rfl, rfl⟩
  · have wkr_at : workerAt wid { s with
          lastAssignId := s.lastAssignId + 1
          entries := s.entries.set drv (some new) } = .ok wkr _ := workerAt_of_get get_eq
    rw [Core.assign, bind_get_apply, bind_modify_apply, setEntry, bind_modify_apply,
      bind_of_ok wkr_at, setWorker, bind_modify_apply, bind_of_ok refreshed, pure_apply]
  · change next.key name id = none
    rw [next_key]
    exact serving.unqueued id (Set.mem_insert_of_mem drv id_mem) name
  · obtain ⟨other, other_live, waits⟩ := serving.waiting id (Set.mem_insert_of_mem drv id_mem)
    refine ⟨other, ?_, waits⟩
    change put.entry id = some other
    rw [put_entry, Function.update_of_ne (ne_of_mem_of_not_mem id_mem fresh), other_live]

/-- A round assigns the most urgent entry, or sets it aside if no worker can take it. -/
theorem Serving.dispatchHead (serving : Serving s aside)
    (best : s.bestSystem order = some (name, key)) :
    (∃ asg ent mid, Core.dispatchHead name s = .ok (.assigned asg) mid ∧ Serving mid aside ∧
      HeadAssigned s aside mid asg ent) ∨
    (∃ skip ent mid, Core.dispatchHead name s = .ok (.skipped skip) mid ∧
      Serving mid (insert skip.drv aside) ∧ HeadSkipped s aside mid skip ent) := by
  obtain ⟨drv, ent, top_eq, urgent, rfl⟩ := serving.urgent_head best
  obtain ⟨next, erased, taken⟩ := serving.takeHead urgent
  have counts := taken.inv.counts
  have live : entry { s with systems := next } drv = some ent := urgent.live
  have not_stale : ¬ (ent.followers.isEmpty = true ∨ ent.worker ≠ none) := by
    simp [List.isEmpty_iff, urgent.followed, urgent.waiting]
  rw [Core.dispatchHead, bind_get_apply, top_eq, Option.getD_some,
    bind_of_ok (onSystems_of_ok erased), bind_of_ok (entryAt_of_entry live)]
  simp only [if_neg not_stale, bind_get_apply]
  cases picked : pick { s with systems := next } ent with
  | some wid =>
    obtain ⟨fits, alone⟩ := pick_eq_some counts picked
    obtain ⟨wkr, get_eq, room, -⟩ := id fits
    obtain ⟨mid, assigned, mid_serving, mid_entry, mid_workers, mid_last, mid_cfg, mid_follows⟩ :=
      taken.assign urgent.fresh live get_eq (Worker.up_of_takesWork room.1)
    exact .inl ⟨_, ent, mid, bind_of_ok assigned _, mid_serving, urgent, rfl, fits, alone, rfl,
      mid_entry, ⟨wkr, get_eq, mid_workers⟩, mid_last, mid_cfg, mid_follows⟩
  | none =>
    have no_fit : ∀ wid, Fits { s with systems := next } ent wid →
        some wid = ent.avoid ∧ ∃ other ≠ wid, Serves { s with systems := next } ent other :=
      fun wid => pick_eq_none counts picked
    exact .inr ⟨_, ent, _, rfl, taken, urgent, rfl, rfl, no_fit, next, rfl⟩

/-! ## All rounds -/

/-- The rounds of a dispatch, from a core with some entries set aside. -/
inductive Served (order : VisitOrder) :
    Set DrvId → Core → List Assign → List Skipped → Core → Prop
  | stop {aside : Set DrvId} {s : Core} (serving : Serving s aside)
      (best : s.bestSystem order = none) : Served order aside s [] [] s
  | assign {aside : Set DrvId} {s mid last : Core} {name : String} {key : ℚ} {asg : Assign}
      {ent : Entry} {out : List Assign} {skipped : List Skipped} (serving : Serving s aside)
      (best : s.bestSystem order = some (name, key))
      (ran : Core.dispatchHead name s = .ok (.assigned asg) mid)
      (head : HeadAssigned s aside mid asg ent) (rest : Served order aside mid out skipped last) :
      Served order aside s (asg :: out) skipped last
  | skip {aside : Set DrvId} {s mid last : Core} {name : String} {key : ℚ} {skip : Skipped}
      {ent : Entry} {out : List Assign} {skipped : List Skipped} (serving : Serving s aside)
      (best : s.bestSystem order = some (name, key))
      (ran : Core.dispatchHead name s = .ok (.skipped skip) mid)
      (head : HeadSkipped s aside mid skip ent)
      (rest : Served order (insert skip.drv aside) mid out skipped last) :
      Served order aside s out (skip :: skipped) last

open Classical in
/-- The slots of entries that wait and are not set aside. -/
noncomputable def waitingIds (s : Core) (aside : Set DrvId) : Finset DrvId :=
  {drv ∈ Finset.range s.entries.length |
    drv ∉ aside ∧ ∃ ent, s.entry drv = some ent ∧ ent.worker = none}

theorem mem_waitingIds :
    drv ∈ s.waitingIds aside ↔ drv ∉ aside ∧ ∃ ent, s.entry drv = some ent ∧ ent.worker = none := by
  simp only [waitingIds, Finset.mem_filter, Finset.mem_range, and_iff_right_iff_imp]
  rintro ⟨-, ent, live, -⟩
  exact lt_of_entry live

theorem card_waitingIds_le (s : Core) (aside : Set DrvId) : (s.waitingIds aside).card ≤ s.entries.length := by
  have sub : s.waitingIds aside ⊆ Finset.range s.entries.length := by
    intro drv mem
    obtain ⟨-, ent, live, -⟩ := mem_waitingIds.mp mem
    exact Finset.mem_range.mpr (lt_of_entry live)
  simpa using Finset.card_le_card sub

theorem Urgent.mem_waitingIds (urgent : s.Urgent aside drv ent) : drv ∈ s.waitingIds aside :=
  Core.mem_waitingIds.mpr ⟨urgent.fresh, ent, urgent.live, urgent.waiting⟩

theorem HeadAssigned.card_lt {mid : Core} {asg : Assign} (head : HeadAssigned s aside mid asg ent) :
    (mid.waitingIds aside).card < (s.waitingIds aside).card := by
  refine Finset.card_lt_card (Finset.ssubset_iff_of_subset ?_ |>.mpr ⟨asg.drv, ?_, ?_⟩)
  · intro drv mem
    rw [mem_waitingIds, head.entry_eq] at mem
    obtain ⟨fresh, ent', live, waits⟩ := mem
    by_cases same : drv = asg.drv
    · subst same
      rw [Function.update_self, Option.some.injEq] at live
      simp [← live] at waits
    · rw [Function.update_of_ne same] at live
      exact mem_waitingIds.mpr ⟨fresh, ent', live, waits⟩
  · exact head.urgent.mem_waitingIds
  · rw [mem_waitingIds, head.entry_eq, Function.update_self]
    simp

theorem HeadSkipped.card_lt {mid : Core} {skip : Skipped}
    (head : HeadSkipped s aside mid skip ent) :
    (mid.waitingIds (insert skip.drv aside)).card < (s.waitingIds aside).card := by
  obtain ⟨next, rfl⟩ := head.mid_eq
  refine Finset.card_lt_card (Finset.ssubset_iff_of_subset ?_ |>.mpr ⟨skip.drv, ?_, ?_⟩)
  · intro drv mem
    rw [mem_waitingIds, Set.mem_insert_iff, not_or] at mem
    exact mem_waitingIds.mpr ⟨mem.1.2, mem.2⟩
  · exact head.urgent.mem_waitingIds
  · simp [mem_waitingIds]

section Loop

variable {mid last : Core} {name : String} {key : ℚ} {rounds : ℕ} {out : List Assign}
  {skipped : List Skipped}

theorem dispatchLoop_assign {asg : Assign} (best : s.bestSystem order = some (name, key))
    (ran : Core.dispatchHead name s = .ok (.assigned asg) mid)
    (rest : Core.dispatchLoop order rounds mid = .ok (out, skipped) last) :
    Core.dispatchLoop order (rounds + 1) s = .ok (asg :: out, skipped) last := by
  rw [Core.dispatchLoop, bind_get_apply, best]
  simp only
  rw [bind_of_ok ran, bind_of_ok rest]
  rfl

theorem dispatchLoop_skip {skip : Skipped} (best : s.bestSystem order = some (name, key))
    (ran : Core.dispatchHead name s = .ok (.skipped skip) mid)
    (rest : Core.dispatchLoop order rounds mid = .ok (out, skipped) last) :
    Core.dispatchLoop order (rounds + 1) s = .ok (out, skip :: skipped) last := by
  rw [Core.dispatchLoop, bind_get_apply, best]
  simp only
  rw [bind_of_ok ran, bind_of_ok rest]
  rfl

/-- With a round for each waiting entry, the loop stops because nothing is left to serve. -/
theorem Serving.dispatchLoop (serving : Serving s aside) (enough : (s.waitingIds aside).card ≤ rounds) :
    ∃ out skipped last, Core.dispatchLoop order rounds s = .ok (out, skipped) last ∧
      Served order aside s out skipped last := by
  induction rounds generalizing s aside with
  | zero =>
    refine ⟨[], [], s, rfl, .stop serving ?_⟩
    cases best : s.bestSystem order with
    | none => rfl
    | some head =>
      obtain ⟨drv, ent, -, urgent, -⟩ := serving.urgent_head best
      have empty : s.waitingIds aside = ∅ := Finset.card_eq_zero.mp (Nat.le_zero.mp enough)
      simpa [empty] using urgent.mem_waitingIds
  | succ rounds ih =>
    cases best : s.bestSystem order with
    | none =>
      refine ⟨[], [], s, ?_, .stop serving best⟩
      simp [Core.dispatchLoop, best]
    | some head =>
      obtain ⟨name, key⟩ := head
      rcases serving.dispatchHead best with
        ⟨asg, ent, mid, ran, mid_serving, head⟩ | ⟨skip, ent, mid, ran, mid_serving, head⟩
      · obtain ⟨out, skipped, last, rest_ran, rest⟩ :=
          ih mid_serving (Nat.lt_succ_iff.mp (head.card_lt.trans_le enough))
        exact ⟨asg :: out, skipped, last, dispatchLoop_assign best ran rest_ran,
          .assign serving best ran head rest⟩
      · obtain ⟨out, skipped, last, rest_ran, rest⟩ :=
          ih mid_serving (Nat.lt_succ_iff.mp (head.card_lt.trans_le enough))
        exact ⟨out, skip :: skipped, last, dispatchLoop_skip best ran rest_ran,
          .skip serving best ran head rest⟩

end Loop

/-! ## What the rounds leave alone -/

section Served

variable {mid last : Core} {out : List Assign} {skipped : List Skipped}

/-- What is set aside at the end. -/
def asideAfter (aside : Set DrvId) (skipped : List Skipped) : Set DrvId :=
  aside ∪ {drv | drv ∈ skipped.map Skipped.drv}

theorem asideAfter_insert (aside : Set DrvId) (skip : Skipped) (skipped : List Skipped) :
    asideAfter (insert skip.drv aside) skipped = asideAfter aside (skip :: skipped) := by
  ext drv
  simp only [asideAfter, Set.mem_union, Set.mem_insert_iff, Set.mem_ofPred_eq, List.map_cons, List.mem_cons]
  tauto

theorem HeadAssigned.keeps {asg : Assign} (head : HeadAssigned s aside mid asg ent) :
    mid.cfg = s.cfg ∧ mid.roster = s.roster ∧ mid.follows = s.follows := by
  obtain ⟨wkr, get_eq, workers_eq⟩ := head.workers_eq
  refine ⟨head.cfg_eq, ?_, head.follows_eq⟩
  rw [roster, workers_eq]
  exact roster_set get_eq rfl

section Results

variable (served : Served order aside s out skipped last)
include served

theorem Served.keeps :
    last.cfg = s.cfg ∧ last.roster = s.roster ∧ last.follows = s.follows := by
  induction served with
  | stop => exact ⟨rfl, rfl, rfl⟩
  | assign serving best ran head rest ih =>
    obtain ⟨cfg_eq, roster_eq, follows_eq⟩ := head.keeps
    exact ⟨ih.1.trans cfg_eq, ih.2.1.trans roster_eq, ih.2.2.trans follows_eq⟩
  | skip serving best ran head rest ih =>
    obtain ⟨next, rfl⟩ := head.mid_eq
    exact ih

theorem Served.serving_last :
    Serving last (asideAfter aside skipped) ∧ last.bestSystem order = none := by
  induction served with
  | stop serving best => exact ⟨by simpa [asideAfter] using serving, best⟩
  | assign serving best ran head rest ih => exact ih
  | @skip aside s mid last name key skip ent out skipped serving best ran head rest ih =>
    rw [← asideAfter_insert]
    exact ih

/-- An entry that is set aside stays as it is. -/
theorem Served.entry_aside (mem : drv ∈ aside) : last.entry drv = s.entry drv := by
  induction served with
  | stop => rfl
  | assign serving best ran head rest ih =>
    rw [ih mem, head.entry_eq, Function.update_of_ne (ne_of_mem_of_not_mem mem head.urgent.fresh)]
  | skip serving best ran head rest ih =>
    obtain ⟨next, rfl⟩ := head.mid_eq
    exact ih (Set.mem_insert_of_mem _ mem)

/-- What was skipped still waits, under the key it is put back with. -/
theorem Served.entry_skipped {skip : Skipped} (mem : skip ∈ skipped) :
    ∃ ent, last.entry skip.drv = some ent ∧ ent.worker = none ∧ ent.followers ≠ [] ∧
      skip.system = ent.system ∧ skip.key = prio last.cfg ent := by
  induction served with
  | stop => simp at mem
  | assign serving best ran head rest ih => exact ih mem
  | skip serving best ran head rest ih =>
    rcases List.mem_cons.mp mem with rfl | mem
    · obtain ⟨next, rfl⟩ := head.mid_eq
      refine ⟨_, ?_, head.urgent.waiting, head.urgent.followed, head.system_eq, ?_⟩
      · rw [rest.entry_aside (Set.mem_insert _ _)]
        exact head.urgent.live
      · rw [rest.keeps.1]
        exact head.key_eq
    · exact ih mem

/-- Assignment ids grow from the last one given. -/
theorem Served.ids :
    s.lastAssignId ≤ last.lastAssignId ∧
      (∀ asg ∈ out, s.lastAssignId < asg.assignId ∧ asg.assignId ≤ last.lastAssignId) ∧
      out.Pairwise fun old asg => old.assignId < asg.assignId := by
  induction served with
  | stop => simp
  | assign serving best ran head rest ih =>
    obtain ⟨last_ge, ids, increasing⟩ := ih
    have id_eq := head.assignId_eq
    rw [head.lastAssignId_eq] at last_ge ids
    refine ⟨by omega, fun asg mem => ?_, List.pairwise_cons.mpr ⟨fun asg mem => (ids asg mem).1, increasing⟩⟩
    rcases List.mem_cons.mp mem with rfl | mem
    · omega
    · have := ids asg mem
      omega
  | skip serving best ran head rest ih =>
    obtain ⟨next, rfl⟩ := head.mid_eq
    exact ih

end Results

end Served

/-! ## The whole dispatch -/

/-- Putting back what was set aside settles it. -/
theorem InvOff.putBack {skipped : List Skipped} (inv : InvOff s aside ∅)
    (only : ∀ drv ∈ aside, drv ∈ skipped.map Skipped.drv)
    (waiting : ∀ skip ∈ skipped, ∃ ent, s.entry skip.drv = some ent ∧ ent.worker = none ∧
      ent.followers ≠ [] ∧ skip.system = ent.system ∧ skip.key = prio s.cfg ent) :
    ∃ next, Core.putBack skipped s = .ok () { s with systems := next } ∧
      Inv { s with systems := next } := by
  induction skipped generalizing s aside with
  | nil =>
    have none_aside : aside = ∅ := Set.eq_empty_of_forall_notMem fun drv mem => by
      simpa using only drv mem
    subst none_aside
    exact ⟨s.systems, rfl, inv⟩
  | cons skip skipped ih =>
    obtain ⟨ent, live, idle, followed, system_eq, key_eq⟩ := waiting skip List.mem_cons_self
    obtain ⟨mid, queued, mid_inv⟩ := inv.enqueue live idle followed
    obtain ⟨next, ran, next_inv⟩ := ih mid_inv
      (fun drv mem => (List.mem_cons.mp (only drv mem.1)).resolve_left mem.2)
      fun other mem => waiting other (List.mem_cons_of_mem skip mem)
    refine ⟨next, ?_, next_inv⟩
    rw [Core.enqueue, bind_get_apply, ← system_eq, ← key_eq] at queued
    rw [Core.putBack, bind_of_ok queued]
    exact ran

/-- Dispatch ends, because nothing is left to serve, and keeps the books. -/
theorem Inv.dispatch (inv : Inv s) (order : VisitOrder) :
    ∃ out skipped last next, Core.dispatch order s = .ok out { last with systems := next } ∧
      Inv { last with systems := next } ∧ Served order ∅ s out skipped last ∧
      Core.dispatchLoop order s.entries.length s = .ok (out, skipped) last := by
  have serving : Serving s ∅ := ⟨inv, by simp, by simp⟩
  obtain ⟨out, skipped, last, ran, served⟩ : ∃ out skipped last,
      Core.dispatchLoop order s.entries.length s = .ok (out, skipped) last ∧
        Served order ∅ s out skipped last := serving.dispatchLoop (card_waitingIds_le s ∅)
  obtain ⟨last_serving, -⟩ := served.serving_last
  obtain ⟨next, put_back, next_inv⟩ := last_serving.inv.putBack (by simp [asideAfter])
    fun skip mem => served.entry_skipped mem
  refine ⟨out, skipped, last, next, ?_, next_inv, served, ran⟩
  rw [Core.dispatch, bind_get_apply, bind_of_ok ran]
  simp only
  rw [bind_of_ok put_back]
  rfl

end Core

end NixGrpcStore.Sched
