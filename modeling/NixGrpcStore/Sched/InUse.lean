import NixGrpcStore.Sched.Followers
import NixGrpcStore.Sched.Reachable

/-!
# Systems nobody uses

The core keeps the state of a system from the first access on, and forgets it only when an entry is
retired.  Whether every system it keeps is in use is said of all states, also of those an operation
leaves when it throws half-way; so the proofs follow the primitive steps and do not rest on the books.
-/

namespace NixGrpcStore.Sched

open Tally (lt_length map_set_of_eq)
open Function (update_of_ne update_self)
open StateExcept

namespace Core

/-- Some live entry asks for a system. -/
def Asked (s : Core) (name : String) : Prop := ∃ drv ent, s.entry drv = some ent ∧ ent.system = name

/-- Systems in use, seen from the primitive steps of an operation. -/
structure Kept (s : Core) : Prop where
  bound : s.entries.length ≤ maxEntries
  /-- What is queued waits, under its own system. -/
  queued : ∀ name drv, (s.systems.key name drv).isSome →
    name ≠ "" ∧ ∃ ent, s.entry drv = some ent ∧ ent.system = name ∧ ent.worker = none
  named : ∀ drv ent, s.entry drv = some ent → ent.followers ≠ [] → ent.system ≠ ""
  used : ∀ name ∈ s.systems, s.offered name = true ∨ s.Asked name

/-- The workers list the same systems, and all that are kept stay in use. -/
structure Tends (s s' : Core) : Prop where
  listings_eq : s'.workers.map Worker.systems = s.workers.map Worker.systems
  kept : Kept s → Kept s'

instance : Std.Refl Tends where
  refl _ := ⟨rfl, id⟩

instance : IsTrans Core Tends where
  trans _ _ _ first second := ⟨second.listings_eq.trans first.listings_eq, second.kept ∘ first.kept⟩

section Steps

variable {s s' : Core} {drv : DrvId} {wid : WorkerId} {ent new : Entry} {wkr : Worker}

theorem entry_congr (entries_eq : s'.entries = s.entries) : s'.entry = s.entry := by
  unfold entry
  rw [entries_eq]

theorem offered_congr (listings_eq : s'.workers.map Worker.systems = s.workers.map Worker.systems)
    (name : String) : s'.offered name = s.offered name := by
  have any_eq : ∀ workers : List Worker, (workers.any fun wkr => wkr.systems.contains name) =
      (workers.map Worker.systems).any fun names => names.contains name := by
    intro workers
    rw [List.any_map]
    rfl
  rw [offered, offered, any_eq, any_eq, listings_eq]

theorem asked_of_entry (live : s.entry drv = some ent) : s.Asked ent.system := ⟨drv, ent, live, rfl⟩

theorem tends_of_entry (entry_eq : s'.entry = s.entry)
    (bound : s.entries.length ≤ maxEntries → s'.entries.length ≤ maxEntries)
    (systems_eq : s'.systems = s.systems)
    (listings_eq : s'.workers.map Worker.systems = s.workers.map Worker.systems) : Tends s s' := by
  refine ⟨listings_eq, fun kept => ⟨bound kept.bound, ?_, ?_, ?_⟩⟩
  · rw [systems_eq, entry_eq]
    exact kept.queued
  · rw [entry_eq]
    exact kept.named
  · simp only [systems_eq, offered_congr listings_eq, Asked, entry_eq]
    exact kept.used

theorem tends_of_same (entries_eq : s'.entries = s.entries) (systems_eq : s'.systems = s.systems)
    (listings_eq : s'.workers.map Worker.systems = s.workers.map Worker.systems) : Tends s s' :=
  tends_of_entry (entry_congr entries_eq) (fun bound => entries_eq ▸ bound) systems_eq listings_eq

variable {name : String}

theorem offered_of_listed (get_eq : s.workers[wid]? = some wkr) (listed : name ∈ wkr.systems) :
    s.offered name = true :=
  List.any_eq_true.mpr ⟨wkr, List.mem_of_getElem? get_eq, by simpa using listed⟩

/-- Queues and counts change; what is queued anew waits, and what is kept anew is in use. -/
theorem tends_onSystems {change : Systems → Except Error Systems}
    (queued : Kept s → ∀ next, change s.systems = .ok next → ∀ name id, (next.key name id).isSome →
      (s.systems.key name id).isSome ∨
        name ≠ "" ∧ ∃ ent, s.entry id = some ent ∧ ent.system = name ∧ ent.worker = none)
    (used : Kept s → ∀ next, change s.systems = .ok next → ∀ name ∈ next,
      name ∈ s.systems ∨ s.offered name = true ∨ s.Asked name) :
    Tends s (after (onSystems change s)) := by
  unfold onSystems
  cases changed : change s.systems with
  | error err => exact Std.Refl.refl s
  | ok next =>
    refine ⟨rfl, fun kept => ⟨kept.bound, fun name id is_queued => ?_, kept.named, fun name mem => ?_⟩⟩
    · rcases queued kept next changed name id is_queued with before | waits
      · exact kept.queued name id before
      · exact waits
    · rcases used kept next changed name mem with before | now
      · exact kept.used name before
      · exact now

/-- A slot of the derivation table gets an entry for the system it had. -/
theorem Kept.setEntry (kept : Kept s) (drv_lt : drv < s.entries.length)
    (same : ∀ ent, s.entry drv = some ent → new.system = ent.system)
    (idle : ∀ name, (s.systems.key name drv).isSome → new.worker = none)
    (named : new.followers ≠ [] → new.system ≠ "") :
    Kept { s with entries := s.entries.set drv (some new) } := by
  have entry_eq := entry_set drv_lt (some new)
  refine ⟨by simpa using kept.bound, fun name id is_queued => ?_, fun id other live => ?_, fun name mem => ?_⟩
  · obtain ⟨name_ne, ent, live, own, waits⟩ := kept.queued name id is_queued
    refine ⟨name_ne, ?_⟩
    rw [entry_eq]
    by_cases id_drv : id = drv
    · subst id_drv
      exact ⟨new, update_self .., (same ent live).trans own, idle name is_queued⟩
    · exact ⟨ent, (update_of_ne id_drv ..).trans live, own, waits⟩
  · rw [entry_eq] at live
    by_cases id_drv : id = drv
    · subst id_drv
      rw [update_self] at live
      exact Option.some.inj live ▸ named
    · rw [update_of_ne id_drv] at live
      exact kept.named id other live
  · refine (kept.used name mem).imp id ?_
    rintro ⟨id, ent, live, own⟩
    by_cases id_drv : id = drv
    · subst id_drv
      exact ⟨id, new, by rw [entry_eq, update_self], (same ent live).trans own⟩
    · exact ⟨id, ent, by rw [entry_eq, update_of_ne id_drv, live], own⟩

theorem tends_setEntry (live : s.entry drv = some ent) (same : new.system = ent.system)
    (idle : new.worker = none ∨ new.worker = ent.worker ∨ ∀ name, s.systems.key name drv = none)
    (named : new.followers ≠ [] → ent.followers ≠ []) :
    Tends s { s with entries := s.entries.set drv (some new) } := by
  refine ⟨rfl, fun kept => kept.setEntry (lt_of_entry live) ?_ ?_ ?_⟩
  · intro other other_live
    rw [← Option.some.inj (live.symm.trans other_live)]
    exact same
  · intro name is_queued
    obtain ⟨-, other, other_live, -, waits⟩ := kept.queued name drv is_queued
    rcases idle with idle | idle | idle
    · exact idle
    · rw [idle, Option.some.inj (live.symm.trans other_live)]
      exact waits
    · simp [idle name] at is_queued
  · rw [same]
    exact kept.named drv ent live ∘ named

/-- Whatever a count is replaced by, the queues stay and only the listed systems are created. -/
theorem setFreeAll_keeps {sy next : Systems} {val : ℤ} {names : List String}
    (ok : sy.setFreeAll wid val names = .ok next) :
    next.key = sy.key ∧ ∀ name ∈ next, name ∈ sy ∨ name ∈ names := by
  induction names generalizing sy with
  | nil =>
    cases ok
    exact ⟨rfl, fun _ => .inl⟩
  | cons first names ih =>
    rw [Systems.setFreeAll, Systems.setFree] at ok
    cases set : (sy.sys first).free.set wid val with
    | error err => simp [set, bind, Except.bind] at ok
    | ok free =>
      simp only [set, bind, Except.bind, pure, Except.pure] at ok
      obtain ⟨key_eq, mem⟩ := ih ok
      constructor
      · rw [key_eq]
        funext name id
        rw [Systems.key_eq_sys, Systems.key_eq_sys, Systems.sys_put]
        split_ifs with own
        · rw [own]
        · rfl
      · intro name name_mem
        rcases mem name name_mem with before | listed
        · rcases (AList.mem_insert sy).mp before with rfl | before
          · exact .inr List.mem_cons_self
          · exact .inl before
        · exact .inr (List.mem_cons_of_mem _ listed)

theorem tends_refreshFree (wid : WorkerId) : Respects Tends (refreshFree wid) := by
  refine respects_workerAt_bind fun s wkr get_eq => tends_onSystems ?_ ?_
  · intro _ next ok name id is_queued
    rw [(setFreeAll_keeps ok).1] at is_queued
    exact .inl is_queued
  · intro _ next ok name mem
    exact ((setFreeAll_keeps ok).2 name mem).imp id fun listed => .inl (offered_of_listed get_eq listed)

theorem tends_setWorker (get_eq : s.workers[wid]? = some wkr) {next : Worker}
    (same : next.systems = wkr.systems) : Tends s { s with workers := s.workers.set wid next } :=
  tends_of_same rfl rfl (map_set_of_eq _ get_eq same)

theorem tends_release (wid : WorkerId) (drv : DrvId) : Respects Tends (release wid drv) := by
  refine respects_workerAt_bind fun s wkr get_eq => respects_bind_at (tends_setWorker get_eq rfl) fun _ _ _ => ?_
  exact tends_refreshFree wid _

/-- An entry that waits is queued under its system. -/
theorem tends_enqueue (live : s.entry drv = some ent) (waits : ent.worker = none)
    (followed : ent.followers ≠ []) : Tends s (after (enqueue drv ent s)) := by
  rw [enqueue, bind_get_apply]
  refine tends_onSystems (fun kept next ok name id is_queued => ?_) fun kept next ok name mem => ?_
  all_goals
    obtain ⟨found, found_ok, rekeyed⟩ :=
      s.systems.setKey_ok ent.system (ne_npos_of_entry kept.bound live) (prio s.cfg ent)
    cases found_ok.symm.trans ok
  · rw [rekeyed.key_eq] at is_queued
    split_ifs at is_queued with own
    · obtain ⟨rfl, rfl⟩ := own
      exact .inr ⟨kept.named id ent live followed, ent, live, rfl, waits⟩
    · exact .inl is_queued
  · rcases (rekeyed.mem_iff name).mp mem with rfl | before
    · exact .inr (.inr (asked_of_entry live))
    · exact .inl before

/-- A key leaves the queue of a system in use. -/
theorem tends_eraseKey (known : name ∈ s.systems ∨ s.offered name = true ∨ s.Asked name) :
    Tends s (after (onSystems (fun sy => sy.eraseKey name drv) s)) := by
  obtain ⟨found, found_ok, rekeyed⟩ := s.systems.eraseKey_ok name drv
  refine tends_onSystems (fun _ next ok other id is_queued => ?_) fun _ next ok other mem => ?_
  all_goals cases (found_ok.symm.trans ok)
  · rw [rekeyed.key_eq] at is_queued
    split_ifs at is_queued with own
    · simp at is_queued
    · exact .inl is_queued
  · rcases (rekeyed.mem_iff other).mp mem with rfl | before
    · exact known
    · exact .inl before

section Leaving

variable (kept : Kept s) (live : s.entry drv = some ent)
include kept live

/-- Out of the queue, an entry leaves its system behind only if somebody else uses it. -/
theorem Kept.unqueue :
    ∃ next, Core.unqueue drv ent s = .ok () { s with systems := next } ∧
      (∀ name id, (next.key name id).isSome → id ≠ drv ∧ (s.systems.key name id).isSome) ∧
      ∀ name ∈ next, name ∈ s.systems ∧
        (name = ent.system → s.offered name = true ∨ ∃ id, (next.key name id).isSome) := by
  rw [Core.unqueue, bind_get_apply]
  by_cases known : ent.system ∈ s.systems
  · obtain ⟨next, next_ok, rekeyed⟩ := s.systems.eraseKey_ok ent.system drv
    have key_of : ∀ name id, (next.key name id).isSome → id ≠ drv ∧ (s.systems.key name id).isSome := by
      intro name id is_queued
      rw [rekeyed.key_eq] at is_queued
      split_ifs at is_queued with own
      · simp at is_queued
      · refine ⟨fun is_drv => own ⟨?_, is_drv⟩, is_queued⟩
        obtain ⟨-, other, other_live, other_own, -⟩ := kept.queued name id is_queued
        rw [is_drv, live] at other_live
        rw [← other_own, Option.some.inj other_live]
    have mem_of : ∀ name ∈ next, name ∈ s.systems := by
      intro name mem
      rcases (rekeyed.mem_iff name).mp mem with rfl | before
      · exact known
      · exact before
    rw [if_pos known, bind_of_ok (onSystems_of_ok next_ok), modify_apply]
    split
    · rename_i unused
      have empty : ∀ id, next.key ent.system id = none := by
        intro id
        rw [next.key_eq_sys]
        exact (next.sys ent.system).queue.size_eq_zero_iff.mp unused.1 id
      refine ⟨next.drop ent.system, rfl, fun name id => ?_, fun name mem => ?_⟩
      · rw [next.key_drop empty]
        exact key_of name id
      · obtain ⟨name_ne, before⟩ := AList.mem_erase.mp mem
        exact ⟨mem_of name before, fun own => absurd own name_ne⟩
    · rename_i in_use
      refine ⟨next, rfl, key_of, fun name mem => ⟨mem_of name mem, ?_⟩⟩
      rintro rfl
      by_contra unused
      simp only [not_or, not_exists] at unused
      refine in_use ⟨?_, unused.1⟩
      refine (next.sys ent.system).queue.size_eq_zero_iff.mpr fun id => ?_
      rw [← next.key_eq_sys]
      exact Option.not_isSome_iff_eq_none.mp (unused.2 id)
  · rw [if_neg known, pure_apply]
    refine ⟨s.systems, rfl, fun name id is_queued => ⟨?_, is_queued⟩, fun name mem => ⟨mem, ?_⟩⟩
    · rintro rfl
      obtain ⟨-, other, other_live, own, -⟩ := kept.queued name id is_queued
      rw [live] at other_live
      rw [← own, ← Option.some.inj other_live] at is_queued
      exact known (Systems.mem_of_key is_queued)
    · rintro rfl
      exact absurd mem known

/-- The slot of an entry that left its queue is cleared. -/
theorem Kept.clear {next : Systems}
    (key_of : ∀ name id, (next.key name id).isSome → id ≠ drv ∧ (s.systems.key name id).isSome)
    (mem_of : ∀ name ∈ next, name ∈ s.systems ∧
      (name = ent.system → s.offered name = true ∨ ∃ id, (next.key name id).isSome))
    {drvIds : AList fun _ : PathKey => DrvId} {freeIds : List DrvId} :
    Kept { s with systems := next, drvIds, entries := s.entries.set drv none, freeIds } := by
  have entry_eq : entry { s with systems := next, drvIds, entries := s.entries.set drv none, freeIds } =
      Function.update s.entry drv none := join_getElem?_set (lt_of_entry live) none
  have stays : ∀ id other, id ≠ drv → s.entry id = some other →
      entry { s with systems := next, drvIds, entries := s.entries.set drv none, freeIds } id = some other := by
    intro id other id_ne other_live
    rw [entry_eq, update_of_ne id_ne, other_live]
  refine ⟨by simpa using kept.bound, fun name id is_queued => ?_, fun id other other_live => ?_, fun name mem => ?_⟩
  · obtain ⟨id_ne, before⟩ := key_of name id is_queued
    obtain ⟨name_ne, other, other_live, own, waits⟩ := kept.queued name id before
    exact ⟨name_ne, other, stays id other id_ne other_live, own, waits⟩
  · rw [entry_eq] at other_live
    by_cases id_drv : id = drv
    · simp [id_drv] at other_live
    · rw [update_of_ne id_drv] at other_live
      exact kept.named id other other_live
  · obtain ⟨before, own⟩ := mem_of name mem
    by_cases name_own : name = ent.system
    · refine (own name_own).imp id ?_
      rintro ⟨id, is_queued⟩
      obtain ⟨id_ne, was_queued⟩ := key_of name id is_queued
      obtain ⟨-, other, other_live, other_own, -⟩ := kept.queued name id was_queued
      exact ⟨id, other, stays id other id_ne other_live, other_own⟩
    · refine (kept.used name before).imp id ?_
      rintro ⟨id, other, other_live, other_own⟩
      refine ⟨id, other, stays id other ?_ other_live, other_own⟩
      rintro rfl
      rw [live] at other_live
      exact name_own (by rw [← other_own, Option.some.inj other_live])

/-- An entry that leaves takes its system along, if nobody else uses it. -/
theorem Kept.retire :
    ∃ s', Core.retire drv s = .ok () s' ∧ Kept s' ∧ s'.entry = Function.update s.entry drv none ∧
      ∀ name id, (s'.systems.key name id).isSome → (s.systems.key name id).isSome := by
  obtain ⟨next, unqueued, key_of, mem_of⟩ := kept.unqueue live
  refine ⟨{ s with
    systems := next
    drvIds := s.drvIds.erase ent.pathKey
    entries := s.entries.set drv none
    freeIds := drv :: s.freeIds }, ?_, kept.clear live key_of mem_of, join_getElem?_set (lt_of_entry live) none,
    fun name id is_queued => (key_of name id is_queued).2⟩
  rw [Core.retire, bind_of_ok (entryAt_of_entry live)]
  simp only
  rw [bind_of_ok unqueued, modify_apply]

end Leaving

theorem tends_retire (drv : DrvId) : Respects Tends (retire drv) := by
  refine respects_entryAt_bind fun s slot slot_eq live => ?_
  cases slot with
  | none => exact Std.Refl.refl s
  | some ent =>
    have live : s.entry drv = some ent := by simp [entry, slot_eq]
    constructor
    · simp only
      obtain ⟨systems, unqueued⟩ := @unqueue_ok s drv ent
      rw [bind_of_ok unqueued]
      rfl
    · intro kept
      obtain ⟨s', retired, kept', -⟩ := kept.retire live
      rw [retire, bind_of_ok (entryAt_of_entry live)] at retired
      rw [retired]
      exact kept'

/-! ## Operations of workers -/

/-- An entry without a worker goes back into its queue, or leaves if nobody follows it. -/
theorem tends_requeue (live : s.entry drv = some ent) (same : new.system = ent.system)
    (waits : new.worker = none) (followers_eq : new.followers = ent.followers) :
    Tends s (after (requeue drv new s)) := by
  refine respects_bind_at (R := Tends) (tends_setEntry live same (.inl waits) fun followed => ?_) fun _ mid ran => ?_
  · rwa [followers_eq] at followed
  · obtain rfl : { s with entries := s.entries.set drv (some new) } = mid := (EStateM.Result.ok.inj ran).2
    split_ifs with alone
    · exact tends_retire drv _
    · refine tends_enqueue ?_ waits (by simpa using alone)
      rw [entry_set (lt_of_entry live), update_self]

theorem join_append_none (entries : List (Option Entry)) :
    (fun id : DrvId => ((entries ++ [none])[id]?).join) = fun id => (entries[id]?).join := by
  funext id
  rw [List.getElem?_append]
  split_ifs with known
  · rfl
  · rw [List.getElem?_eq_none (Nat.le_of_not_lt known)]
    by_cases last : id - entries.length = 0 <;> simp [last]

theorem tends_takeId : Respects Tends takeId := by
  intro s
  unfold takeId
  rw [bind_get_apply]
  cases s.freeIds with
  | cons drv freeIds => exact tends_of_same rfl rfl rfl
  | nil =>
    simp only
    split_ifs with full
    · exact Std.Refl.refl s
    · refine tends_of_entry (funext fun id => ?_) (fun _ => ?_) rfl rfl
      · exact congrFun (join_append_none s.entries) id
      · simp only [bind_set_apply, pure_apply, after_ok, List.length_append, List.length_singleton]
        omega

theorem tends_allows : Allows Tends where
  release := tends_release
  retire := tends_retire
  requeue _ _ _ _ live := tends_requeue live rfl rfl rfl
  takeId := tends_takeId
  note _ _ _ := tends_of_same rfl rfl rfl

section Worker

variable (wid : WorkerId)

/-- Counting slots touches neither entries nor workers. -/
theorem refreshFree_same (s : Core) :
    (after (refreshFree wid s)).entries = s.entries ∧ (after (refreshFree wid s)).workers = s.workers := by
  unfold refreshFree
  cases get_eq : s.workers[wid]? with
  | none =>
    have threw : workerAt wid s = .error .outOfRange s := by simp [workerAt, get_eq]
    rw [bind_of_error threw]
    exact ⟨rfl, rfl⟩
  | some wkr =>
    rw [bind_of_ok (workerAt_of_get get_eq)]
    simp only [onSystems]
    split <;> exact ⟨rfl, rfl⟩

theorem tends_workerGone : Respects Tends (workerGone wid) := by
  refine respects_workerAt_bind fun s wkr get_eq => ?_
  have wid_lt := lt_length get_eq
  refine respects_bind_at (R := Tends) (tends_of_same rfl rfl ?_) fun _ down ran => ?_
  · exact map_set_of_eq _ get_eq rfl
  · have down_get : down.workers[wid]? = some { wkr with up := false } := by
      rw [← (EStateM.Result.ok.inj ran).2]
      exact List.getElem?_set_self wid_lt
    refine respects_bind_at (tends_refreshFree wid down) fun _ counted refreshed => ?_
    have counted_get : counted.workers[wid]? = some { wkr with up := false } := by
      have same := (refreshFree_same wid down).2
      rw [refreshed, after_ok] at same
      rw [same, down_get]
    exact respects_bind_at (R := Tends) (tends_setWorker counted_get rfl) fun _ left _ =>
      tends_allows.requeueAll wid _ left

theorem tends_setDraining (draining : Bool) : Respects Tends (setDraining wid draining) :=
  respects_workerAt_bind fun _ _ get_eq => respects_bind_at (tends_setWorker get_eq rfl) fun _ _ _ =>
    tends_refreshFree wid _

end Worker

/-- A derivation a worker holds leaves its queue as it is written down. -/
theorem Kept.hold (kept : Kept s) {slot : Option Entry} (slot_eq : s.entries[drv]? = some slot)
    (system_eq : new.system = (slot.map Entry.system).getD "")
    (followers_eq : new.followers = (slot.map Entry.followers).getD []) {next : Systems}
    (erased : s.systems.eraseKey new.system drv = .ok next) :
    Kept { s with entries := s.entries.set drv (some new), systems := next } := by
  have drv_lt : drv < s.entries.length := lt_length slot_eq
  obtain ⟨found, found_ok, rekeyed⟩ := s.systems.eraseKey_ok new.system drv
  obtain rfl := Except.ok.inj (found_ok.symm.trans erased)
  cases slot with
  | none =>
    have unused : s.entry drv = none := by simp [entry, slot_eq]
    have written : Kept { s with entries := s.entries.set drv (some new) } := by
      refine kept.setEntry drv_lt (by simp [unused]) (fun name is_queued => ?_) (by simp [followers_eq])
      obtain ⟨-, ent, live, -⟩ := kept.queued name drv is_queued
      simp [unused] at live
    have asked : Asked { s with entries := s.entries.set drv (some new) } new.system :=
      asked_of_entry (by rw [entry_set drv_lt, update_self])
    have tends := @tends_eraseKey { s with entries := s.entries.set drv (some new) } drv new.system
      (.inr (.inr asked))
    simpa [onSystems, erased] using tends.kept written
  | some ent =>
    have live : s.entry drv = some ent := by simp [entry, slot_eq]
    have same : new.system = ent.system := system_eq
    have left : Kept { s with systems := found } := by
      have tends := @tends_eraseKey s drv new.system (.inr (.inr (same ▸ asked_of_entry live)))
      simpa [onSystems, erased] using tends.kept kept
    have tends : Tends { s with systems := found }
        { s with entries := s.entries.set drv (some new), systems := found } := by
      refine @tends_setEntry { s with systems := found } drv ent new live same (.inr (.inr fun name => ?_)) ?_
      · -- only its own queue held it
        have key_eq := rekeyed.key_eq name drv
        by_contra is_queued
        obtain ⟨-, other, other_live, own, -⟩ := left.queued name drv (Option.isSome_iff_ne_none.mpr is_queued)
        cases live.symm.trans other_live
        exact is_queued (by simp [key_eq, same, own])
      · rw [followers_eq]
        exact id
    exact tends.kept left

theorem tends_adopt (wid : WorkerId) (path : String) (assignId : ℕ) :
    Respects Tends (adopt wid path assignId) := by
  refine (tends_allows.drvId path).bind fun drv => respects_entryAt_bind fun s slot slot_eq live => ?_
  refine respects_bind_at (respects_loseTo (tends_release · drv) wid _ s) fun superseded mid lost => ?_
  have mid_slot : mid.entries[drv]? = some slot := by
    have kept := sameEntries_loseTo wid drv (slot.getD { drvPath := path }) s
    rw [lost] at kept
    rw [← slot_eq, ← kept]
    rfl
  let new : Entry := { slot.getD { drvPath := path } with worker := some wid, assignId }
  obtain ⟨next, erased, -⟩ := mid.systems.eraseKey_ok new.system drv
  let held : Core := { mid with entries := mid.entries.set drv (some new), systems := next }
  have tends : Tends mid held := by
    refine ⟨rfl, fun kept => kept.hold mid_slot ?_ ?_ erased⟩
    · cases slot <;> rfl
    · cases slot <;> rfl
  refine IsTrans.trans _ held _ tends ?_
  have ran : onSystems (fun sy => sy.eraseKey new.system drv)
      { mid with entries := mid.entries.set drv (some new) } = .ok () held := onSystems_of_ok erased
  rw [setEntry, bind_modify_apply, hold]
  refine after_bind (P := Tends held) ?_ fun _ _ reached => reached
  rw [bind_of_ok ran]
  refine (respects_workerAt_bind fun s wkr get_eq => ?_) held
  split_ifs
  · exact Std.Refl.refl s
  · exact tends_setWorker get_eq rfl

theorem tends_endOldSession (wid : WorkerId) : Respects Tends (endOldSession wid) := by
  refine (respects_workerAt wid).bind fun wkr => ?_
  split_ifs
  · exact tends_workerGone wid
  · exact respects_pure ()

/-! ## Placement -/

/-- An entry waits for the end of a dispatch, in no queue. -/
def Parked (s : Core) (system : String) (drv : DrvId) : Prop :=
  system ≠ "" ∧ (∃ ent, s.entry drv = some ent ∧ ent.system = system ∧ ent.worker = none) ∧
    ∀ name, s.systems.key name drv = none

theorem tends_assign (wid : WorkerId) (live : s.entry drv = some ent)
    (unqueued : ∀ name, s.systems.key name drv = none) :
    Tends s (after (assign drv ent wid s)) := by
  unfold assign
  rw [bind_get_apply, bind_modify_apply]
  refine IsTrans.trans _ { s with lastAssignId := s.lastAssignId + 1 } _ (tends_of_same rfl rfl rfl) ?_
  refine respects_bind_at (R := Tends) (tends_setEntry live rfl (.inr (.inr unqueued)) id) fun _ mid _ => ?_
  refine (respects_workerAt_bind fun s wkr get_eq => ?_) mid
  refine respects_bind_at (tends_setWorker get_eq rfl) fun _ _ _ => ?_
  exact ((tends_refreshFree wid).bind fun _ => respects_pure _) _

/-- What is parked stays so, but for one entry. -/
def Spares (drv : DrvId) (s s' : Core) : Prop :=
  ∀ system id, id ≠ drv → Parked s system id → Parked s' system id

instance : Std.Refl (Spares drv) where
  refl _ _ _ _ := id

instance : IsTrans Core (Spares drv) where
  trans _ _ _ first second system id id_ne := second system id id_ne ∘ first system id id_ne

theorem spares_of_key (entry_eq : ∀ id ≠ drv, s'.entry id = s.entry id)
    (key_of : ∀ name id, s.systems.key name id = none → s'.systems.key name id = none) : Spares drv s s' := by
  rintro system id id_ne ⟨named, ⟨ent, live, own, waits⟩, unqueued⟩
  exact ⟨named, ⟨ent, (entry_eq id id_ne).trans live, own, waits⟩, fun name => key_of name id (unqueued name)⟩

theorem spares_set (slot : Option Entry) : Spares drv s { s with entries := s.entries.set drv slot } := by
  refine spares_of_key (fun id id_ne => ?_) fun _ _ => id
  rw [entry, entry, List.getElem?_set_ne (Ne.symm id_ne)]

theorem spares_refreshFree (wid : WorkerId) : Respects (Spares drv) (refreshFree wid) := by
  refine (respects_workerAt wid).bind fun wkr s => ?_
  unfold onSystems
  split
  · rename_i next ok
    exact spares_of_key (fun _ _ => rfl) fun name id unqueued =>
      (congrFun₂ (setFreeAll_keeps ok).1 name id).trans unqueued
  · exact Std.Refl.refl s

theorem spares_eraseKey (name : String) (id : DrvId) :
    Respects (Spares drv) (onSystems fun sy => sy.eraseKey name id) := by
  intro s
  obtain ⟨next, erased, rekeyed⟩ := s.systems.eraseKey_ok name id
  rw [onSystems_of_ok erased]
  refine spares_of_key (fun _ _ => rfl) fun other other_id unqueued => ?_
  change next.key other other_id = none
  rw [rekeyed.key_eq, unqueued, ite_self]

theorem spares_retire (drv : DrvId) : Respects (Spares drv) (retire drv) := by
  intro s
  rw [retire]
  refine respects_bind_at (R := Spares drv) ?_ fun slot mid _ => ?_
  · unfold entryAt
    rw [bind_get_apply]
    cases s.entries[drv]? <;> exact Std.Refl.refl s
  · cases slot with
    | none => exact Std.Refl.refl mid
    | some ent =>
      refine respects_bind_at (R := Spares drv) ?_ fun _ left _ => spares_set none
      rw [unqueue, bind_get_apply]
      split_ifs
      · refine respects_bind_at (spares_eraseKey _ _ mid) fun _ left _ => ?_
        rw [modify_apply]
        split_ifs with unused
        · refine spares_of_key (fun _ _ => rfl) fun name id unqueued => ?_
          refine (left.systems.key_drop (fun other => ?_) name id).trans unqueued
          rw [left.systems.key_eq_sys]
          exact (left.systems.sys ent.system).queue.size_eq_zero_iff.mp unused.1 other
        · exact Std.Refl.refl left
      · exact Std.Refl.refl mid

theorem spares_assign (drv : DrvId) (ent : Entry) (wid : WorkerId) :
    Respects (Spares drv) (assign drv ent wid) := by
  refine respects_get.bind fun s => Respects.bind (respects_modify fun _ => ?_) fun _ =>
    Respects.bind (respects_modify fun _ => spares_set _) fun _ => (respects_workerAt wid).bind fun wkr =>
      Respects.bind (respects_modify fun _ => ?_) fun _ => (spares_refreshFree wid).bind fun _ => respects_pure _
  · exact spares_of_key (fun _ _ => rfl) fun _ _ => id
  · exact spares_of_key (fun _ _ => rfl) fun _ _ => id

/-- The head of the queue of a ready system. -/
theorem Ready.head {system : String} {key : ℚ} (ready : s.Ready system key) :
    system ∈ s.systems ∧
      ∃ drv, (s.systems.sys system).queue.top = some drv ∧ s.systems.key system drv = some key := by
  obtain ⟨st, lookup_eq, top_key, -⟩ := ready
  obtain ⟨drv, top_eq, in_queue, -⟩ := IndexedHeap.topKey_spec top_key
  refine ⟨AList.lookup_isSome.mp (by simp [lookup_eq]), drv, ?_, ?_⟩
  · rw [Systems.sys, lookup_eq, Option.getD_some, top_eq]
  · rw [Systems.key, lookup_eq, Option.bind_some, in_queue]

/-- What a part of a dispatch does: systems stay in use, and what is parked stays so. -/
structure Dispatching (s s' : Core) : Prop where
  kept : Kept s'
  parked : ∀ system id, Parked s system id → Parked s' system id

theorem Dispatching.trans {s'' : Core} (first : Dispatching s s') (second : Dispatching s' s'') :
    Dispatching s s'' :=
  ⟨second.kept, fun system id => second.parked system id ∘ first.parked system id⟩

/-- The head of a queue is assigned, retired or parked. -/
theorem Kept.dispatchHead (kept : Kept s) {system : String} {key : ℚ} (ready : s.Ready system key) :
    Dispatching s (after (Core.dispatchHead system s)) ∧
      ∀ skip mid, Core.dispatchHead system s = .ok (.skipped skip) mid → Parked mid skip.system skip.drv := by
  obtain ⟨known, drv, top_eq, queued⟩ := ready.head
  obtain ⟨named, ent, live, own, waits⟩ := kept.queued system drv (by simp [queued])
  obtain ⟨next, erased, rekeyed⟩ := s.systems.eraseKey_ok system drv
  let left : Core := { s with systems := next }
  have ran : onSystems (fun sy => sy.eraseKey system drv) s = .ok () left := onSystems_of_ok erased
  have left_kept : Kept left := by
    have tends := @tends_eraseKey s drv system (.inl known)
    rw [ran] at tends
    exact tends.kept kept
  have left_spares : Spares drv s left := by
    have spares := @spares_eraseKey drv system drv s
    rwa [ran] at spares
  have unqueued : ∀ name, left.systems.key name drv = none := by
    intro name
    by_contra still
    obtain ⟨-, other, other_live, other_own, -⟩ := left_kept.queued name drv (Option.isSome_iff_ne_none.mpr still)
    cases live.symm.trans other_live
    exact still (by simp [left, rekeyed.key_eq, ← own, other_own])
  have parked_ne : ∀ name id, Parked s name id → id ≠ drv := by
    rintro name id ⟨-, -, no_key⟩ rfl
    simp [no_key system] at queued
  have finish : ∀ s', Kept s' → Spares drv left s' → Dispatching s s' := by
    intro s' s'_kept spares
    exact ⟨s'_kept, fun name id parked => spares name id (parked_ne name id parked)
      (left_spares name id (parked_ne name id parked) parked)⟩
  have live_left : left.entry drv = some ent := live
  rw [Core.dispatchHead, bind_get_apply, top_eq, Option.getD_some]
  simp only
  rw [bind_of_ok ran, bind_of_ok (entryAt_of_entry live_left)]
  simp only
  split_ifs with stale alone
  · constructor
    · exact finish _ ((tends_retire drv).bind (fun _ => respects_pure HeadResult.stale) left |>.kept left_kept)
        ((spares_retire drv).bind (fun _ => respects_pure HeadResult.stale) left)
    · intro skip mid ok
      obtain ⟨_, _, -, done⟩ := bind_eq_ok.mp ok
      cases done
  · refine ⟨finish left left_kept (Std.Refl.refl left), ?_⟩
    intro skip mid ok
    cases ok
  · rw [bind_get_apply]
    cases left.pick ent with
    | none =>
      refine ⟨finish left left_kept (Std.Refl.refl left), ?_⟩
      intro skip mid ok
      cases ok
      exact ⟨named, ⟨ent, live, own, waits⟩, unqueued⟩
    | some wid =>
      constructor
      · refine finish _ (Tends.kept ?_ left_kept) ?_
        · exact respects_bind_at (tends_assign wid live_left unqueued) fun _ _ _ => respects_pure _ _
        · exact (spares_assign drv ent wid).bind (fun _ => respects_pure _) left
      · intro skip mid ok
        obtain ⟨_, _, -, done⟩ := bind_eq_ok.mp ok
        cases done

/-- What the loop skips is parked in the end. -/
theorem Kept.dispatchLoop (kept : Kept s) (order : VisitOrder) (rounds : ℕ) :
    Dispatching s (after (Core.dispatchLoop order rounds s)) ∧
      ∀ out skipped last, Core.dispatchLoop order rounds s = .ok (out, skipped) last →
        ∀ skip ∈ skipped, Parked last skip.system skip.drv := by
  induction rounds generalizing s with
  | zero =>
    refine ⟨⟨kept, fun _ _ => id⟩, ?_⟩
    rintro out skipped last ⟨⟩ skip ⟨⟩
  | succ rounds ih =>
    rw [Core.dispatchLoop, bind_get_apply]
    cases best : s.bestSystem order with
    | none =>
      refine ⟨⟨kept, fun _ _ => id⟩, ?_⟩
      rintro out skipped last ⟨⟩ skip ⟨⟩
    | some head =>
      obtain ⟨head_does, head_skips⟩ := kept.dispatchHead (bestSystem_eq_some best).1
      simp only
      cases ran : Core.dispatchHead head.1 s with
      | error err mid =>
        rw [ran, after_error] at head_does
        rw [bind_of_error ran]
        exact ⟨head_does, by simp⟩
      | ok result mid =>
        rw [ran, after_ok] at head_does
        obtain ⟨rest_does, rest_skips⟩ := ih head_does.kept
        rw [bind_of_ok ran]
        cases rest_ran : Core.dispatchLoop order rounds mid with
        | error err last =>
          rw [rest_ran] at rest_does
          rw [bind_of_error rest_ran]
          exact ⟨head_does.trans rest_does, by simp⟩
        | ok rest last =>
          obtain ⟨out, skipped⟩ := rest
          rw [rest_ran] at rest_does
          have does := head_does.trans rest_does
          have parked := rest_skips out skipped last rest_ran
          rw [bind_of_ok rest_ran]
          cases result with
          | stale =>
            refine ⟨does, ?_⟩
            rintro _ _ _ ⟨⟩
            exact parked
          | assigned asg =>
            refine ⟨does, ?_⟩
            rintro _ _ _ ⟨⟩
            exact parked
          | skipped skip =>
            refine ⟨does, ?_⟩
            rintro _ _ _ ⟨⟩ other mem
            rcases List.mem_cons.mp mem with rfl | mem
            · exact rest_does.parked _ _ (head_skips other mid ran)
            · exact parked other mem

/-- What waits is put back under its system. -/
theorem Kept.putBack (kept : Kept s) {skipped : List Skipped}
    (waiting : ∀ skip ∈ skipped, skip.system ≠ "" ∧
      ∃ ent, s.entry skip.drv = some ent ∧ ent.system = skip.system ∧ ent.worker = none) :
    Kept (after (Core.putBack skipped s)) := by
  induction skipped generalizing s with
  | nil => exact kept
  | cons skip skipped ih =>
    obtain ⟨named, ent, live, own, waits⟩ := waiting skip List.mem_cons_self
    obtain ⟨next, next_ok, rekeyed⟩ :=
      s.systems.setKey_ok skip.system (ne_npos_of_entry kept.bound live) skip.key
    have ran : onSystems (fun sy => sy.setKey skip.system skip.drv skip.key) s = .ok () { s with systems := next } :=
      onSystems_of_ok next_ok
    rw [Core.putBack, bind_of_ok ran]
    refine ih ⟨kept.bound, fun name id is_queued => ?_, kept.named, fun name mem => ?_⟩ fun other mem =>
      waiting other (List.mem_cons_of_mem skip mem)
    · simp only [rekeyed.key_eq] at is_queued
      split_ifs at is_queued with put
      · obtain ⟨rfl, rfl⟩ := put
        exact ⟨named, ent, live, own, waits⟩
      · exact kept.queued name id is_queued
    · rcases (rekeyed.mem_iff name).mp mem with rfl | before
      · exact .inr ⟨skip.drv, ent, live, own⟩
      · exact kept.used name before

theorem Kept.dispatch (kept : Kept s) (order : VisitOrder) : Kept (after (Core.dispatch order s)) := by
  obtain ⟨does, parked⟩ := kept.dispatchLoop order s.entries.length
  rw [Core.dispatch, bind_get_apply]
  cases ran : Core.dispatchLoop order s.entries.length s with
  | error err last =>
    rw [ran] at does
    rw [bind_of_error ran]
    exact does.kept
  | ok result last =>
    obtain ⟨out, skipped⟩ := result
    rw [ran] at does
    rw [bind_of_ok ran]
    refine after_bind (P := Kept) (Kept.putBack does.kept fun skip mem => ?_) fun _ _ last_kept => last_kept
    obtain ⟨named, waits, -⟩ := parked out skipped last ran skip mem
    exact ⟨named, waits⟩

theorem Kept.markUnplaceable (kept : Kept s) (drv : DrvId) (flag : Bool) :
    Kept (after (Core.markUnplaceable drv flag s)) := by
  refine Tends.kept ((respects_entryAt_bind fun s slot slot_eq live => ?_) s) kept
  cases slot with
  | none => exact Std.Refl.refl s
  | some ent =>
    have live : s.entry drv = some ent := by simp [entry, slot_eq]
    exact tends_setEntry live rfl (.inr (.inl rfl)) id

theorem Kept.placeabilityChanges (kept : Kept s) : Kept (after (Core.placeabilityChanges s)) := by
  have right : Memo.Right ∅ s.placeable := by simp [Memo.Right]
  obtain ⟨slots_eq, -⟩ := flipAll_spec s.placeable_congr 0 right s.entries
  rw [Core.placeabilityChanges, bind_get_apply]
  simp only [bind_set_apply, pure_apply, after_ok, slots_eq]
  have entry_eq : ∀ id, entry { s with entries := s.entries.map (Option.map (withFlag s.placeable)) } id =
      (s.entry id).map (withFlag s.placeable) := by
    intro id
    rw [entry, entry, List.getElem?_map]
    cases s.entries[id]? with
    | none => rfl
    | some slot => cases slot <;> rfl
  have system_eq : ∀ ent, (withFlag s.placeable ent).system = ent.system := by
    intro ent
    obtain ⟨unplaceable, flag_eq⟩ := withFlag_eq s.placeable ent
    rw [flag_eq]
  refine ⟨by simpa using kept.bound, fun name id is_queued => ?_, fun id new live => ?_, fun name mem => ?_⟩
  · obtain ⟨named, ent, live, own, waits⟩ := kept.queued name id is_queued
    refine ⟨named, withFlag s.placeable ent, ?_, (system_eq ent).trans own, by rwa [withFlag_worker]⟩
    rw [entry_eq, live]
    rfl
  · rw [entry_eq] at live
    obtain ⟨ent, ent_live, rfl⟩ := Option.map_eq_some_iff.mp live
    rw [withFlag_followers, system_eq]
    exact kept.named id ent ent_live
  · refine (kept.used name mem).imp id ?_
    rintro ⟨id, ent, live, own⟩
    refine ⟨id, withFlag s.placeable ent, ?_, (system_eq ent).trans own⟩
    rw [entry_eq, live]
    rfl

/-! ## Operations of clients -/

theorem tends_cancelId (client : ClientId) (drv : DrvId) : Respects Tends (cancelId client drv) := by
  intro s
  rw [cancelId, bind_get_apply]
  cases live : (s.entries[drv]?).join with
  | none => exact Std.Refl.refl s
  | some ent =>
    have live : s.entry drv = some ent := live
    simp only
    split_ifs
    swap
    · exact Std.Refl.refl s
    · let new : Entry := { ent with followers := ent.followers.filter (· ≠ client) }
      let left : Core := { s with entries := s.entries.set drv (some new) }
      have tends : Tends s left := by
        refine tends_setEntry live rfl (.inr (.inl rfl)) fun some_left none_before => some_left ?_
        simp [none_before, new]
      have left_live : left.entry drv = some new := by
        rw [entry_set (lt_of_entry live), update_self]
      refine respects_bind_at (R := Tends) tends fun _ mid ran => ?_
      have mid_live : mid.entry drv = some new := by
        rw [← (EStateM.Result.ok.inj ran).2]
        exact left_live
      cases followers_eq : ent.followers.filter (· ≠ client) with
      | nil =>
        cases ent.worker with
        | none => exact ((tends_retire drv).bind fun _ => respects_pure none) mid
        | some wid => exact Std.Refl.refl mid
      | cons first others =>
        cases waits : ent.worker with
        | none =>
          refine respects_bind_at (R := Tends) (tends_enqueue (mid_live.trans ?_) rfl ?_) fun _ _ _ =>
            respects_pure _ _
          · simp only [new]
            rw [followers_eq, waits]
          · simp
        | some wid => exact Std.Refl.refl mid

theorem tends_cancel (client : ClientId) (drvPath : String) : Respects Tends (cancel client drvPath) := by
  refine respects_get.bind fun s => ?_
  cases s.findDrv drvPath with
  | none => exact respects_pure none
  | some drv => exact tends_cancelId client drv

theorem tends_clientGone (client : ClientId) : Respects Tends (clientGone client) := by
  have cancel_all : ∀ drvs, Respects Tends (cancelAll client drvs) := by
    intro drvs
    induction drvs with
    | nil => exact respects_pure []
    | cons drv drvs ih => exact (tends_cancelId client drv).bind fun _ => ih.bind fun _ => respects_pure _
  refine respects_get.bind fun s => ?_
  cases s.follows.lookup client with
  | none => exact respects_pure []
  | some drvs =>
    exact Respects.bind (respects_modify fun _ => tends_of_same rfl rfl rfl) fun _ => cancel_all drvs

/-! ## Want and Hello -/

/-- An entry known only from a Hello learns its system. -/
theorem Kept.rename (kept : Kept s) (live : s.entry drv = some ent) (unnamed : ent.system = "")
    (named : new.system ≠ "")
    (others : s.offered "" = true ∨ ∃ other ≠ drv, ∃ ent, s.entry other = some ent ∧ ent.system = "") :
    Kept { s with entries := s.entries.set drv (some new) } := by
  have entry_eq := entry_set (lt_of_entry live) (some new)
  have stays : ∀ id other, id ≠ drv → s.entry id = some other →
      entry { s with entries := s.entries.set drv (some new) } id = some other := by
    intro id other id_ne other_live
    rw [entry_eq, update_of_ne id_ne, other_live]
  refine ⟨by simpa using kept.bound, fun name id is_queued => ?_, fun id other other_live => ?_, fun name mem => ?_⟩
  · obtain ⟨name_ne, other, other_live, own, waits⟩ := kept.queued name id is_queued
    refine ⟨name_ne, other, stays id other ?_ other_live, own, waits⟩
    rintro rfl
    rw [live] at other_live
    exact name_ne (by rw [← own, ← Option.some.inj other_live, unnamed])
  · rw [entry_eq] at other_live
    by_cases id_drv : id = drv
    · subst id_drv
      rw [update_self] at other_live
      exact fun _ => Option.some.inj other_live ▸ named
    · rw [update_of_ne id_drv] at other_live
      exact kept.named id other other_live
  · rcases kept.used name mem with listed | ⟨id, other, other_live, own⟩
    · exact .inl listed
    · by_cases id_drv : id = drv
      · subst id_drv
        obtain rfl : name = "" := by rw [← own, ← Option.some.inj (live.symm.trans other_live), unnamed]
        rcases others with listed | ⟨second, second_ne, second_ent, second_live, second_own⟩
        · exact .inl listed
        · exact .inr ⟨second, second_ent, stays second second_ent second_ne second_live, second_own⟩
      · exact .inr ⟨id, other, stays id other id_drv other_live, own⟩

theorem takeId_entry {mid : Core} (ok : takeId s = .ok drv mid) : mid.entry = s.entry := by
  unfold takeId at ok
  rw [bind_get_apply] at ok
  cases free_eq : s.freeIds with
  | cons first freeIds =>
    simp only [free_eq] at ok
    cases ok
    rfl
  | nil =>
    simp only [free_eq] at ok
    split_ifs at ok
    · cases ok
    · rw [bind_set_apply] at ok
      cases ok
      exact join_append_none s.entries

/-- Naming a derivation makes no entry. -/
theorem drvId_entry {path : String} {mid : Core} (ok : drvId path s = .ok drv mid) : mid.entry = s.entry := by
  rw [drvId, bind_get_apply] at ok
  cases found : s.drvIds.lookup (PathKey.ofPath path) with
  | some known =>
    simp only [found] at ok
    cases ok
    rfl
  | none =>
    simp only [found] at ok
    obtain ⟨id, taken, took, rest⟩ := bind_eq_ok.mp ok
    cases rest
    have taken_entry : taken.entry = s.entry := takeId_entry took
    exact taken_entry

/-- The entry a Want writes is in a system that is named. -/
theorem Kept.wantEntry (kept : Kept s) (client : ClientId) {info : WantInfo} (nowMs : ℚ)
    (named : info.system ≠ "") {slot : Option Entry} (slot_eq : s.entries[drv]? = some slot)
    (others : ∀ ent, slot = some ent → ent.system = "" →
      s.offered "" = true ∨ ∃ other ≠ drv, ∃ ent, s.entry other = some ent ∧ ent.system = "") :
    Kept { s with entries := s.entries.set drv (some (Core.wantEntry client info nowMs slot)) } := by
  have drv_lt : drv < s.entries.length := lt_length slot_eq
  have slot_entry : s.entry drv = slot := by simp [entry, slot_eq]
  have new_named := wantEntry_system_ne client nowMs named slot
  cases slot with
  | none =>
    refine kept.setEntry drv_lt (by simp [slot_entry]) (fun name is_queued => ?_) fun _ => new_named
    obtain ⟨-, ent, live, -⟩ := kept.queued name drv is_queued
    simp [slot_entry] at live
  | some ent =>
    by_cases unnamed : ent.system = ""
    · exact kept.rename slot_entry unnamed new_named (others ent rfl unnamed)
    · refine kept.setEntry drv_lt (fun other live => ?_) (fun name is_queued => ?_) fun _ => new_named
      · rw [slot_entry] at live
        rw [wantEntry_system, if_neg unnamed, Option.some.inj live]
      · obtain ⟨-, other, live, -, waits⟩ := kept.queued name drv is_queued
        rw [slot_entry] at live
        rw [wantEntry_worker, Option.bind_some, Option.some.inj live, waits]

/-- A Want that names a system may rename an entry, but not the last one without a system. -/
theorem Kept.want (kept : Kept s) (client : ClientId) {info : WantInfo} (nowMs : ℚ) (named : info.system ≠ "")
    (others : ∀ drv mid ent, drvId info.drvPath s = .ok drv mid → s.entry drv = some ent → ent.system = "" →
      s.offered "" = true ∨ ∃ other ≠ drv, ∃ ent, s.entry other = some ent ∧ ent.system = "") :
    Kept (after (Core.want client info nowMs s)) := by
  have named_tends := tends_allows.drvId info.drvPath s
  cases found : drvId info.drvPath s with
  | error err mid =>
    rw [found, after_error] at named_tends
    rw [Core.want, bind_of_error found]
    exact named_tends.kept kept
  | ok drv mid =>
    rw [found, after_ok] at named_tends
    have mid_kept := named_tends.kept kept
    cases slot_eq : mid.entries[drv]? with
    | none =>
      have threw : entryAt drv mid = .error .outOfRange mid := by simp [entryAt, slot_eq]
      rw [Core.want, bind_of_ok found, bind_of_error threw]
      exact mid_kept
    | some slot =>
      have drv_lt : drv < mid.entries.length := lt_length slot_eq
      have slot_entry : s.entry drv = slot := by
        rw [← drvId_entry found]
        simp [entry, slot_eq]
      have written := mid_kept.wantEntry client nowMs named slot_eq fun ent is_slot unnamed => by
        rw [offered_congr named_tends.listings_eq, drvId_entry found]
        exact others drv mid ent found (slot_entry.trans is_slot) unnamed
      have noted : Kept { mid with
          follows := noteFollow mid client drv (wantedEntry info nowMs slot)
          entries := mid.entries.set drv (some (Core.wantEntry client info nowMs slot)) } :=
        ⟨written.bound, written.queued, written.named, written.used⟩
      rw [want_of_drvId found slot_eq]
      cases waits : (Core.wantEntry client info nowMs slot).worker with
      | some wid => exact noted
      | none =>
        refine after_bind (P := Kept) (Tends.kept (tends_enqueue ?_ waits ?_) noted) fun _ _ last_kept => last_kept
        · exact (congrFun (entry_set drv_lt _) drv).trans (update_self ..)
        · exact wantEntry_followers_ne client info nowMs slot

/-- The slot of an address, or the one it will get. -/
def slotOf (s : Core) (addr : String) : WorkerId := (s.workerIds.lookup addr).getD s.workers.length

/-- Another worker lists a system. -/
def ListedBeside (s : Core) (wid : WorkerId) (name : String) : Prop :=
  ∃ other wkr, other ≠ wid ∧ s.workers[other]? = some wkr ∧ name ∈ wkr.systems

/-- Some entry asks for a system and outlives a session of the worker. -/
def AskedBeside (s : Core) (wid : WorkerId) (name : String) : Prop :=
  ∃ drv ent, s.entry drv = some ent ∧ ent.system = name ∧ (ent.worker ≠ some wid ∨ ent.followers ≠ [])

theorem AskedBeside.of_entry (asked : s.AskedBeside wid name) (entry_eq : s'.entry = s.entry) :
    s'.AskedBeside wid name := by
  unfold AskedBeside
  rwa [entry_eq]

theorem requeueAll_asked {drvs : List DrvId} (bound : s.entries.length ≤ maxEntries)
    (asked : s.AskedBeside wid name) : (after (requeueAll wid drvs s)).AskedBeside wid name := by
  induction drvs generalizing s with
  | nil => exact asked
  | cons drv drvs ih =>
    rw [requeueAll, bind_get_apply]
    cases live : (s.entries[drv]?).join with
    | none => exact ih bound asked
    | some ent =>
      have live : s.entry drv = some ent := live
      simp only
      split_ifs with own
      · obtain ⟨left, requeued, left_entry, left_length⟩ := requeue_ok bound (lt_of_entry live)
          { ent with worker := none }
        rw [bind_of_ok requeued]
        refine ih (left_length ▸ bound) ?_
        obtain ⟨id, asking, asking_live, asking_own, outlives⟩ := asked
        by_cases id_drv : id = drv
        · subst id_drv
          cases live.symm.trans asking_live
          have followed : ent.followers ≠ [] := outlives.resolve_left (not_not.mpr own)
          refine ⟨id, { ent with worker := none }, ?_, asking_own, .inr followed⟩
          rw [left_entry, update_self, if_neg followed]
        · exact ⟨id, asking, by rw [left_entry, update_of_ne id_drv, asking_live], asking_own, outlives⟩
      · exact ih bound asked

theorem workerGone_asked (bound : s.entries.length ≤ maxEntries)
    (asked : s.AskedBeside wid name) : (after (workerGone wid s)).AskedBeside wid name := by
  unfold workerGone
  cases get_eq : s.workers[wid]? with
  | none =>
    have threw : workerAt wid s = .error .outOfRange s := by simp [workerAt, get_eq]
    rw [bind_of_error threw]
    exact asked
  | some wkr =>
    rw [bind_of_ok (workerAt_of_get get_eq), bind_modify_apply]
    generalize down_eq : Core.mk _ _ _ _ _ _ _ _ _ _ _ = down
    have down_entries : down.entries = s.entries := by rw [← down_eq]
    have counted := (refreshFree_same wid down).1
    cases refreshed : refreshFree wid down with
    | error err left =>
      rw [refreshed, after_error] at counted
      rw [bind_of_error refreshed]
      exact asked.of_entry (entry_congr (counted.trans down_entries))
    | ok _ left =>
      rw [refreshed, after_ok] at counted
      have left_entries : left.entries = s.entries := counted.trans down_entries
      rw [bind_of_ok refreshed, bind_modify_apply]
      refine requeueAll_asked ?_ (asked.of_entry (entry_congr left_entries))
      exact left_entries ▸ bound

/-- A worker comes up; the systems it no longer lists are listed elsewhere or asked for. -/
theorem Kept.register (kept : Kept s) (get_eq : s.workers[wid]? = some wkr) {info : HelloInfo}
    (relists : ∀ name ∈ wkr.systems, name ∈ info.systems ∨ s.ListedBeside wid name ∨ s.Asked name) :
    Kept (after (Core.register wid info s)) := by
  have wid_lt := lt_length get_eq
  let listed : Worker :=
    { wkr with
      up := true
      draining := false
      systems := info.systems
      features := info.features
      maxJobs := (min info.maxJobs FreeIndex.maxSlots : ℕ) }
  obtain ⟨next, pushed, counted⟩ := s.systems.pushAll_ok wid info.systems
  let up : Core := { s with workersUp := s.workersUp + 1, workers := s.workers.set wid listed, systems := next }
  have up_get : up.workers[wid]? = some listed := List.getElem?_set_self wid_lt
  have ran : Core.register wid info s = .ok () up := by
    rw [Core.register, bind_of_ok (workerAt_of_get get_eq), bind_modify_apply]
    exact onSystems_of_ok pushed
  rw [ran, after_ok]
  refine ⟨kept.bound, fun name id is_queued => ?_, kept.named, fun name mem => ?_⟩
  · rw [counted.key_eq] at is_queued
    exact kept.queued name id is_queued
  · have own : name ∈ info.systems → up.offered name = true := offered_of_listed up_get
    have beside : s.ListedBeside wid name → up.offered name = true := by
      rintro ⟨other, otherWkr, other_ne, other_get, other_lists⟩
      have other_up : up.workers[other]? = some otherWkr :=
        (List.getElem?_set_ne (Ne.symm other_ne)).trans other_get
      exact offered_of_listed other_up other_lists
    rcases (counted.mem_iff name).mp mem with lists | before
    · exact .inl (own lists)
    · rcases kept.used name before with is_offered | asked
      · obtain ⟨lister, lister_mem, lists⟩ := List.any_eq_true.mp is_offered
        obtain ⟨other, other_get⟩ := List.getElem?_of_mem lister_mem
        have lists : name ∈ lister.systems := by simpa using lists
        by_cases other_wid : other = wid
        · subst other_wid
          cases get_eq.symm.trans other_get
          rcases relists name lists with lists | elsewhere | asked
          · exact .inl (own lists)
          · exact .inl (beside elsewhere)
          · exact .inr asked
        · exact .inl (beside ⟨other, lister, other_wid, other_get, lists⟩)
      · exact .inr asked

theorem ListedBeside.congr (listed : s.ListedBeside wid name)
    (listings_eq : s'.workers.map Worker.systems = s.workers.map Worker.systems) :
    s'.ListedBeside wid name := by
  obtain ⟨other, wkr, other_ne, get_eq, lists⟩ := listed
  have at_other := congrArg (·[other]?) listings_eq
  simp only [List.getElem?_map, get_eq, Option.map_some, Option.map_eq_some_iff] at at_other
  obtain ⟨found, found_get, same⟩ := at_other
  exact ⟨other, found, other_ne, found_get, same ▸ lists⟩

theorem endOldSession_asked (bound : s.entries.length ≤ maxEntries)
    (asked : s.AskedBeside wid name) : (after (endOldSession wid s)).AskedBeside wid name := by
  unfold endOldSession
  cases get_eq : s.workers[wid]? with
  | none =>
    have threw : workerAt wid s = .error .outOfRange s := by simp [workerAt, get_eq]
    rw [bind_of_error threw]
    exact asked
  | some wkr =>
    rw [bind_of_ok (workerAt_of_get get_eq)]
    split_ifs
    · exact workerGone_asked bound asked
    · exact asked

/-- A worker whose slot is known opens a session. -/
theorem Kept.greet (kept : Kept s) {info : HelloInfo}
    (relists : ∀ wkr, s.workers[wid]? = some wkr → ∀ name ∈ wkr.systems,
      name ∈ info.systems ∨ s.ListedBeside wid name ∨ s.AskedBeside wid name) :
    Kept (after ((do
      endOldSession wid
      Core.register wid info
      let superseded ← adoptAll wid info.running
      refreshFree wid
      pure (wid, superseded) : CoreM (WorkerId × List Superseded)) s)) := by
  have ended := tends_endOldSession wid s
  have still_asked : ∀ name, s.AskedBeside wid name → (after (endOldSession wid s)).AskedBeside wid name :=
    fun name => endOldSession_asked kept.bound
  cases ran : endOldSession wid s with
  | error err left =>
    rw [ran, after_error] at ended
    rw [bind_of_error ran]
    exact ended.kept kept
  | ok _ left =>
    rw [ran, after_ok] at ended
    simp only [ran, after_ok] at still_asked
    rw [bind_of_ok ran]
    have left_kept := ended.kept kept
    refine after_bind (P := Kept) ?_ fun _ up up_kept => ?_
    · cases get_eq : left.workers[wid]? with
      | none =>
        have threw : workerAt wid left = .error .outOfRange left := by simp [workerAt, get_eq]
        rw [Core.register, bind_of_error threw]
        exact left_kept
      | some wkr =>
        have at_wid := congrArg (·[wid]?) ended.listings_eq
        simp only [List.getElem?_map, get_eq, Option.map_some] at at_wid
        obtain ⟨old, old_get, same⟩ := Option.map_eq_some_iff.mp at_wid.symm
        refine left_kept.register get_eq fun name lists => ?_
        rcases relists old old_get name (same ▸ lists) with lists | beside | asked
        · exact .inl lists
        · exact .inr (.inl (beside.congr ended.listings_eq))
        · obtain ⟨drv, ent, live, own, -⟩ := still_asked name asked
          exact .inr (.inr ⟨drv, ent, live, own⟩)
    · exact Tends.kept (((respects_adoptAll (tends_adopt wid) info.running).bind fun _ =>
        (tends_refreshFree wid).bind fun _ => respects_pure _) up) up_kept

/-- A Hello that drops no system in use. -/
theorem Kept.hello (kept : Kept s) {info : HelloInfo}
    (relists : ∀ wkr, s.workers[s.slotOf info.addr]? = some wkr → ∀ name ∈ wkr.systems,
      name ∈ info.systems ∨ s.ListedBeside (s.slotOf info.addr) name ∨ s.AskedBeside (s.slotOf info.addr) name) :
    Kept (after (Core.hello info s)) := by
  unfold Core.hello
  split_ifs
  · exact kept
  · cases found : s.workerIds.lookup info.addr with
    | some wid =>
      have known : workerId info.addr s = .ok wid s := by simp [workerId, found]
      rw [slotOf, found, Option.getD_some] at relists
      rw [bind_of_ok known]
      exact kept.greet relists
    | none =>
      let added : Core :=
        { s with
          workers := s.workers ++ [({ addr := info.addr } : Worker)]
          workerIds := s.workerIds.insert info.addr s.workers.length }
      have known : workerId info.addr s = .ok s.workers.length added := by simp [workerId, found, added]
      have same_offers : ∀ name, added.offered name = s.offered name := by
        intro name
        simp [offered, added]
      have added_kept : Kept added := by
        refine ⟨kept.bound, kept.queued, kept.named, fun name mem => ?_⟩
        rw [same_offers]
        exact kept.used name mem
      rw [bind_of_ok known]
      refine added_kept.greet fun wkr get_eq name lists => ?_
      obtain rfl : ({ addr := info.addr } : Worker) = wkr := by simpa [added] using get_eq
      cases lists

end Steps

end Core

end NixGrpcStore.Sched
