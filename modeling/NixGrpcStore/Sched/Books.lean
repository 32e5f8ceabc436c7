import NixGrpcStore.Sched.Core

/-!
# The books of the core

The core says five times who waits and who runs: in the entries, the id table with its free list,
the queues, the running lists and the free-slot indexes.  Each structure below relates one of them
to the entries or the workers.  An operation repairs the books one after the other, so they are
stated up to a set `aside` of entries and a set `stale` of workers that are still to be repaired.
-/

namespace NixGrpcStore.Sched

open Tally (lt_length)
open Function (update update_of_ne)
open List (getElem?_append_left getElem?_set_ne mem_append mem_singleton)
/-- The slots a worker has left, as the indexes of its systems should count them. -/
def Worker.slots (wkr : Worker) : ℤ :=
  if wkr.takesWork then wkr.maxJobs - (min wkr.running.length FreeIndex.maxSlots : ℕ) else 0

namespace Core

/-- The live entry in a slot. -/
def entry (s : Core) (drv : DrvId) : Option Entry := (s.entries[drv]?).join

/-- Replace the entry in a slot of the derivation table. -/
theorem join_getElem?_set {entries : List (Option Entry)} {drv : DrvId}
    (drv_lt : drv < entries.length) (slot : Option Entry) :
    (fun id => ((entries.set drv slot)[id]?).join) =
      update (fun id => (entries[id]?).join) drv slot := by
  funext id
  by_cases id_drv : id = drv
  · subst id_drv
    simp [drv_lt]
  · rw [update_of_ne id_drv, getElem?_set_ne (Ne.symm id_drv)]

theorem entry_set {s : Core} {drv : DrvId} (drv_lt : drv < s.entries.length) (slot : Option Entry) :
    entry { s with entries := s.entries.set drv slot } = update s.entry drv slot :=
  join_getElem?_set drv_lt slot

theorem lt_of_entry {s : Core} {drv : DrvId} {ent : Entry} (live : s.entry drv = some ent) :
    drv < s.entries.length := by
  by_contra out
  simp [entry, List.getElem?_eq_none (Nat.le_of_not_lt out)] at live

theorem getElem?_of_entry {s : Core} {drv : DrvId} {ent : Entry} (live : s.entry drv = some ent) :
    s.entries[drv]? = some (some ent) := by
  simpa [entry, Option.join_eq_some_iff] using live

/-! ## Ids -/

/-- The path keys in the slots of the derivation table. -/
def slotKeys (entries : List (Option Entry)) : List (Option PathKey) :=
  entries.map (Option.map Entry.pathKey)

/-- A slot is free or carries a live entry, and live entries are found by their path. -/
structure Ids (keys : List (Option PathKey)) (freeIds : List DrvId)
    (drvIds : AList fun _ : PathKey => DrvId) : Prop where
  free_iff : ∀ drv, drv ∈ freeIds ↔ keys[drv]? = some none
  free_nodup : freeIds.Nodup
  id_iff : ∀ key drv, drvIds.lookup key = some drv ↔ keys[drv]? = some (some key)
  length_le : keys.length ≤ maxEntries

theorem slotKeys_set {entries : List (Option Entry)} {drv : DrvId} {ent new : Entry}
    (slot_eq : entries[drv]? = some (some ent)) (same : new.pathKey = ent.pathKey) :
    slotKeys (entries.set drv (some new)) = slotKeys entries := by
  obtain ⟨drv_lt, slot_at⟩ := List.getElem?_eq_some_iff.mp slot_eq
  apply List.ext_getElem?
  intro id
  by_cases id_drv : id = drv
  · subst id_drv
    simp [slotKeys, drv_lt, slot_at, same]
  · simp [slotKeys, getElem?_set_ne (Ne.symm id_drv)]

namespace Ids

variable {keys : List (Option PathKey)} {freeIds : List DrvId}
  {drvIds : AList fun _ : PathKey => DrvId} {drv : DrvId} {key : PathKey}

theorem retire (ids : Ids keys freeIds drvIds) (slot_eq : keys[drv]? = some (some key)) :
    Ids (keys.set drv none) (drv :: freeIds) (drvIds.erase key) where
  free_iff other := by
    by_cases other_drv : other = drv
    · subst other_drv
      simp [(lt_length slot_eq)]
    · rw [getElem?_set_ne (Ne.symm other_drv), ← ids.free_iff]
      simp [other_drv]
  free_nodup := by
    refine List.nodup_cons.mpr ⟨?_, ids.free_nodup⟩
    rw [ids.free_iff, slot_eq]
    simp
  id_iff otherKey other := by
    by_cases same_key : otherKey = key
    · subst same_key
      by_cases other_drv : other = drv
      · subst other_drv
        simp [(lt_length slot_eq)]
      · rw [getElem?_set_ne (Ne.symm other_drv), ← ids.id_iff, (ids.id_iff otherKey drv).mpr slot_eq]
        simp [Ne.symm other_drv]
    · rw [AList.lookup_erase_ne same_key, ids.id_iff]
      by_cases other_drv : other = drv
      · subst other_drv
        rw [slot_eq, List.getElem?_set_self (lt_length slot_eq)]
        simp [Ne.symm same_key]
      · rw [getElem?_set_ne (Ne.symm other_drv)]
  length_le := by simpa using ids.length_le

/-- A new derivation takes a slot that nothing uses. -/
private theorem take_id_iff (ids : Ids keys freeIds drvIds) (unknown : drvIds.lookup key = none)
    {next : List (Option PathKey)} (drv_eq : next[drv]? = some (some key))
    (other_eq : ∀ other ≠ drv, next[other]? = keys[other]?)
    (unused : ∀ otherKey, keys[drv]? ≠ some (some otherKey)) (otherKey : PathKey) (other : DrvId) :
    (drvIds.insert key drv).lookup otherKey = some other ↔ next[other]? = some (some otherKey) := by
  by_cases same_key : otherKey = key
  · subst same_key
    rw [AList.lookup_insert]
    by_cases other_drv : other = drv
    · simp [other_drv, drv_eq]
    · rw [other_eq other other_drv, ← ids.id_iff, unknown]
      simp [Ne.symm other_drv]
  · rw [AList.lookup_insert_ne same_key, ids.id_iff]
    by_cases other_drv : other = drv
    · subst other_drv
      simp [drv_eq, unused, Ne.symm same_key]
    · rw [other_eq other other_drv]

theorem reuse (ids : Ids keys (drv :: freeIds) drvIds) (unknown : drvIds.lookup key = none) :
    Ids (keys.set drv (some key)) freeIds (drvIds.insert key drv) := by
  have slot_eq : keys[drv]? = some none := (ids.free_iff drv).mp List.mem_cons_self
  have drv_lt : drv < keys.length := lt_length slot_eq
  obtain ⟨drv_not_mem, free_nodup⟩ := List.nodup_cons.mp ids.free_nodup
  refine ⟨fun other => ?_, free_nodup, ?_, by simpa using ids.length_le⟩
  · by_cases other_drv : other = drv
    · subst other_drv
      simp [drv_lt, drv_not_mem]
    · rw [getElem?_set_ne (Ne.symm other_drv), ← ids.free_iff]
      simp [other_drv]
  · refine ids.take_id_iff unknown (by simp [drv_lt]) (fun other other_ne => ?_) (by simp [slot_eq])
    exact getElem?_set_ne (Ne.symm other_ne)

theorem extend (ids : Ids keys [] drvIds) (unknown : drvIds.lookup key = none)
    (room : keys.length < maxEntries) :
    Ids (keys ++ [some key]) [] (drvIds.insert key keys.length) := by
  refine ⟨fun other => ?_, List.nodup_nil, ?_, by simpa using room⟩
  · have := ids.free_iff other
    rcases lt_trichotomy other keys.length with before | at_end | beyond
    · simpa [getElem?_append_left before] using this
    · simp [at_end]
    · simp [List.getElem?_append_right beyond.le, Nat.sub_ne_zero_of_lt beyond]
  · refine ids.take_id_iff unknown (by simp) (fun other other_ne => ?_) (by simp)
    rcases lt_or_gt_of_ne other_ne with before | beyond
    · exact getElem?_append_left before
    · simp [List.getElem?_append_right (Nat.le_of_lt beyond), Nat.sub_ne_zero_of_lt beyond,
        List.getElem?_eq_none (Nat.le_of_lt beyond)]

end Ids

/-! ## Queues -/

/-- The key an entry should have in the queue of a system. -/
def queueKey (cfg : Config) (name : String) (ent : Entry) : Option ℚ :=
  if ent.worker = none ∧ ent.system = name then some (prio cfg ent) else none

/-- What waits is queued under its system with its priority, and nothing else is queued. -/
structure Queues (cfg : Config) (entry : DrvId → Option Entry)
    (key : String → DrvId → Option ℚ) (aside : Set DrvId) : Prop where
  aside_live : ∀ drv ∈ aside, (entry drv).isSome
  key_aside : ∀ drv ∈ aside, ∀ ent, entry drv = some ent →
    ∀ name, ent.system ≠ name → key name drv = none
  key_eq : ∀ drv ∉ aside, ∀ name, key name drv = (entry drv).bind (queueKey cfg name)
  followed : ∀ drv ∉ aside, ∀ ent, entry drv = some ent → ent.worker = none → ent.followers ≠ []
  named : ∀ drv ent, entry drv = some ent → ent.followers ≠ [] → ent.system ≠ ""

namespace Queues

variable {cfg : Config} {entry : DrvId → Option Entry} {key next : String → DrvId → Option ℚ}
  {aside : Set DrvId} {drv : DrvId} {ent new : Entry}

section Updates

variable (books : Queues cfg entry key aside)
include books

/-- A live entry is queued under no system but its own. -/
theorem key_other (live : entry drv = some ent)
    {name : String} (other : ent.system ≠ name) : key name drv = none := by
  by_cases mem : drv ∈ aside
  · exact books.key_aside drv mem ent live name other
  · rw [books.key_eq drv mem, live]
    simp [queueKey, other]

theorem widen {wider : Set DrvId} (le : aside ⊆ wider)
    (live : ∀ drv ∈ wider, (entry drv).isSome) : Queues cfg entry key wider where
  aside_live := live
  key_aside _ _ _ other_live _ other_system := books.key_other other_live other_system
  key_eq other not_mem := books.key_eq other fun mem => not_mem (le mem)
  followed other not_mem := books.followed other fun mem => not_mem (le mem)
  named := books.named

theorem setAside (live : entry drv = some ent) : Queues cfg entry key (insert drv aside) := by
  refine books.widen (Set.subset_insert drv aside) fun other mem => ?_
  rcases mem with rfl | mem
  · simp [live]
  · exact books.aside_live other mem

/-- An entry that is set aside may change, except for its system. -/
theorem replace (mem : drv ∈ aside) (live : entry drv = some ent)
    (system_eq : new.system = ent.system) (named : new.followers ≠ [] → new.system ≠ "") :
    Queues cfg (update entry drv (some new)) key aside where
  aside_live other other_mem := by
    by_cases other_drv : other = drv
    · simp [other_drv]
    · simpa [other_drv] using books.aside_live other other_mem
  key_aside other other_mem otherEnt other_live name other_system := by
    by_cases other_drv : other = drv
    · subst other_drv
      obtain rfl : new = otherEnt := by simpa using other_live
      exact books.key_aside other mem ent live name (system_eq ▸ other_system)
    · rw [update_of_ne other_drv] at other_live
      exact books.key_aside other other_mem otherEnt other_live name other_system
  key_eq other not_mem := by
    rw [update_of_ne (ne_of_mem_of_not_mem mem not_mem).symm]
    exact books.key_eq other not_mem
  followed other not_mem := by
    rw [update_of_ne (ne_of_mem_of_not_mem mem not_mem).symm]
    exact books.followed other not_mem
  named other otherEnt other_live := by
    by_cases other_drv : other = drv
    · subst other_drv
      obtain rfl : new = otherEnt := by simpa using other_live
      exact named
    · rw [update_of_ne other_drv] at other_live
      exact books.named other otherEnt other_live

/-- An entry whose expected keys do not change may change otherwise. -/
theorem replace_of_key (not_mem : drv ∉ aside)
    (live : entry drv = some ent) (key_same : ∀ name, queueKey cfg name new = queueKey cfg name ent)
    (followed : new.worker = none → new.followers ≠ [])
    (named : new.followers ≠ [] → new.system ≠ "") :
    Queues cfg (update entry drv (some new)) key aside where
  aside_live other other_mem := by
    rw [update_of_ne (ne_of_mem_of_not_mem other_mem not_mem)]
    exact books.aside_live other other_mem
  key_aside other other_mem := by
    rw [update_of_ne (ne_of_mem_of_not_mem other_mem not_mem)]
    exact books.key_aside other other_mem
  key_eq other other_not_mem name := by
    rw [books.key_eq other other_not_mem]
    by_cases other_drv : other = drv
    · subst other_drv
      simp [live, key_same]
    · rw [update_of_ne other_drv]
  followed other other_not_mem otherEnt other_live := by
    by_cases other_drv : other = drv
    · subst other_drv
      obtain rfl : new = otherEnt := by simpa using other_live
      exact followed
    · rw [update_of_ne other_drv] at other_live
      exact books.followed other other_not_mem otherEnt other_live
  named other otherEnt other_live := by
    by_cases other_drv : other = drv
    · subst other_drv
      obtain rfl : new = otherEnt := by simpa using other_live
      exact named
    · rw [update_of_ne other_drv] at other_live
      exact books.named other otherEnt other_live

/-- A new entry starts set aside. -/
theorem create (unused : entry drv = none) (named : new.followers ≠ [] → new.system ≠ "") :
    Queues cfg (update entry drv (some new)) key (insert drv aside) := by
  have not_mem : drv ∉ aside := fun mem => by simpa [unused] using books.aside_live drv mem
  have no_key : ∀ name, key name drv = none := fun name => by simp [books.key_eq drv not_mem, unused]
  refine ⟨fun other mem => ?_, fun other mem otherEnt other_live name other_system => ?_,
    fun other other_not_mem => ?_, fun other other_not_mem => ?_, fun other otherEnt other_live => ?_⟩
  · by_cases other_drv : other = drv
    · simp [other_drv]
    · simpa [other_drv] using books.aside_live other (mem.resolve_left other_drv)
  · by_cases other_drv : other = drv
    · simp [other_drv, no_key]
    · rw [update_of_ne other_drv] at other_live
      exact books.key_other other_live other_system
  · rw [Set.mem_insert_iff, not_or] at other_not_mem
    rw [update_of_ne other_not_mem.1]
    exact books.key_eq other other_not_mem.2
  · rw [Set.mem_insert_iff, not_or] at other_not_mem
    rw [update_of_ne other_not_mem.1]
    exact books.followed other other_not_mem.2
  · by_cases other_drv : other = drv
    · subst other_drv
      obtain rfl : new = otherEnt := by simpa using other_live
      exact named
    · rw [update_of_ne other_drv] at other_live
      exact books.named other otherEnt other_live

/-- The key of an entry that is set aside may change under its own system. -/
theorem rekey (mem : drv ∈ aside) (live : entry drv = some ent)
    (next_eq : ∀ name id, ¬ (name = ent.system ∧ id = drv) → next name id = key name id) :
    Queues cfg entry next aside where
  aside_live := books.aside_live
  key_aside other other_mem otherEnt other_live name other_system := by
    rw [next_eq]
    · exact books.key_aside other other_mem otherEnt other_live name other_system
    · rintro ⟨rfl, rfl⟩
      rw [live] at other_live
      exact other_system (congrArg Entry.system (Option.some.inj other_live)).symm
  key_eq other not_mem name := by
    rw [next_eq name other fun same => not_mem (same.2 ▸ mem)]
    exact books.key_eq other not_mem name
  followed := books.followed
  named := books.named

/-- Writing the right key under an entry's own system settles it. -/
theorem settle (live : entry drv = some ent)
    (followed : ent.worker = none → ent.followers ≠ [])
    (next_eq : ∀ name id, next name id =
      if name = ent.system ∧ id = drv then queueKey cfg name ent else key name id) :
    Queues cfg entry next (aside \ {drv}) where
  aside_live other mem := books.aside_live other mem.1
  key_aside other mem otherEnt other_live name other_system := by
    rw [next_eq, if_neg fun same => mem.2 same.2]
    exact books.key_aside other mem.1 otherEnt other_live name other_system
  key_eq other not_mem name := by
    rw [next_eq]
    by_cases other_drv : other = drv
    · subst other_drv
      by_cases own : name = ent.system
      · simp [own, live]
      · rw [if_neg fun same => own same.1, live, books.key_other live (Ne.symm own)]
        simp [queueKey, Ne.symm own]
    · rw [if_neg fun same => other_drv same.2]
      exact books.key_eq other (fun mem => not_mem ⟨mem, other_drv⟩) name
  followed other not_mem otherEnt other_live := by
    by_cases other_drv : other = drv
    · subst other_drv
      obtain rfl : ent = otherEnt := by simpa [live] using other_live
      exact followed
    · exact books.followed other (fun mem => not_mem ⟨mem, other_drv⟩) otherEnt other_live
  named := books.named

/-- An entry that leaves the table and its own queue leaves nothing behind. -/
theorem remove (next_eq : ∀ name id, next name id = if id = drv then none else key name id) :
    Queues cfg (update entry drv none) next (aside \ {drv}) where
  aside_live other mem := by
    rw [update_of_ne mem.2]
    exact books.aside_live other mem.1
  key_aside other mem := by
    rw [update_of_ne mem.2]
    intro otherEnt other_live name other_system
    rw [next_eq, if_neg (show other ≠ drv from mem.2)]
    exact books.key_aside other mem.1 otherEnt other_live name other_system
  key_eq other not_mem name := by
    rw [next_eq]
    by_cases other_drv : other = drv
    · simp [other_drv]
    · rw [if_neg other_drv, update_of_ne other_drv]
      exact books.key_eq other (fun mem => not_mem ⟨mem, other_drv⟩) name
  followed other not_mem otherEnt other_live := by
    by_cases other_drv : other = drv
    · simp [other_drv] at other_live
    · rw [update_of_ne other_drv] at other_live
      exact books.followed other (fun mem => not_mem ⟨mem, other_drv⟩) otherEnt other_live
  named other otherEnt other_live := by
    by_cases other_drv : other = drv
    · simp [other_drv] at other_live
    · rw [update_of_ne other_drv] at other_live
      exact books.named other otherEnt other_live

end Updates

end Queues

/-! ## Running lists -/

/-- A worker runs exactly the entries assigned to it. -/
structure Runs (entry : DrvId → Option Entry) (workers : List Worker) (aside : Set DrvId) :
    Prop where
  running_iff : ∀ wid wkr, workers[wid]? = some wkr → ∀ drv,
    drv ∈ wkr.running ↔ drv ∉ aside ∧ ∃ ent, entry drv = some ent ∧ ent.worker = some wid
  worker_lt : ∀ drv ∉ aside, ∀ ent wid, entry drv = some ent → ent.worker = some wid →
    wid < workers.length
  running_nodup : ∀ wkr ∈ workers, wkr.running.Nodup
  down_idle : ∀ wkr ∈ workers, wkr.up = false → wkr.running = []

theorem getElem?_set_eq_some {α : Type} {xs : List α} {i j : ℕ} {x y : α}
    (get_eq : (xs.set i x)[j]? = some y) : (j = i ∧ y = x) ∨ (j ≠ i ∧ xs[j]? = some y) := by
  rw [List.getElem?_set] at get_eq
  split at get_eq
  · rename_i same
    split at get_eq
    · exact .inl ⟨same.symm, by simpa using get_eq.symm⟩
    · simp at get_eq
  · rename_i other
    exact .inr ⟨Ne.symm other, get_eq⟩

theorem getElem?_concat_eq_some {α : Type} {xs : List α} {j : ℕ} {x y : α}
    (get_eq : (xs ++ [x])[j]? = some y) : xs[j]? = some y ∨ (j = xs.length ∧ y = x) := by
  rcases lt_or_ge j xs.length with before | beyond
  · rw [getElem?_append_left before] at get_eq
    exact .inl get_eq
  · rw [List.getElem?_append_right beyond, List.getElem?_singleton] at get_eq
    split at get_eq
    · exact .inr ⟨by omega, by simpa using get_eq.symm⟩
    · simp at get_eq

namespace Runs

variable {entry : DrvId → Option Entry} {workers : List Worker} {aside : Set DrvId}
  {drv : DrvId} {ent : Entry} {wid : WorkerId} {wkr new : Worker}

section Updates

variable (books : Runs entry workers aside)
include books

theorem setAside (live : entry drv = some ent)
    (idle : ent.worker = none) : Runs entry workers (insert drv aside) where
  running_iff wid wkr get_eq other := by
    rw [books.running_iff wid wkr get_eq]
    by_cases other_drv : other = drv
    · simp [other_drv, live, idle]
    · simp [other_drv]
  worker_lt other not_mem := books.worker_lt other fun mem => not_mem (Set.mem_insert_of_mem _ mem)
  running_nodup := books.running_nodup
  down_idle := books.down_idle

/-- An entry that is set aside is on no running list. -/
theorem replace (mem : drv ∈ aside) (slot : Option Entry) :
    Runs (update entry drv slot) workers aside where
  running_iff wid wkr get_eq other := by
    rw [books.running_iff wid wkr get_eq]
    by_cases other_drv : other = drv
    · simp [other_drv, mem]
    · rw [update_of_ne other_drv]
  worker_lt other not_mem := by
    rw [update_of_ne (ne_of_mem_of_not_mem mem not_mem).symm]
    exact books.worker_lt other not_mem
  running_nodup := books.running_nodup
  down_idle := books.down_idle

/-- An entry may change while it keeps its worker. -/
theorem replace_of_worker (live : entry drv = some ent)
    {next : Entry} (same : next.worker = ent.worker) :
    Runs (update entry drv (some next)) workers aside where
  running_iff wid wkr get_eq other := by
    rw [books.running_iff wid wkr get_eq]
    by_cases other_drv : other = drv
    · simp [other_drv, live, same]
    · rw [update_of_ne other_drv]
  worker_lt other not_mem otherEnt wid other_live assigned := by
    by_cases other_drv : other = drv
    · subst other_drv
      obtain rfl : next = otherEnt := by simpa using other_live
      exact books.worker_lt other not_mem ent wid live (same ▸ assigned)
    · rw [update_of_ne other_drv] at other_live
      exact books.worker_lt other not_mem otherEnt wid other_live assigned
  running_nodup := books.running_nodup
  down_idle := books.down_idle

theorem create (unused : entry drv = none) {next : Entry} :
    Runs (update entry drv (some next)) workers (insert drv aside) where
  running_iff wid wkr get_eq other := by
    rw [books.running_iff wid wkr get_eq]
    by_cases other_drv : other = drv
    · simp [other_drv, unused]
    · simp [other_drv]
  worker_lt other not_mem := by
    rw [Set.mem_insert_iff, not_or] at not_mem
    rw [update_of_ne not_mem.1]
    exact books.worker_lt other not_mem.2
  running_nodup := books.running_nodup
  down_idle := books.down_idle

theorem settle (idle : ∀ ent, entry drv = some ent → ent.worker = none) :
    Runs entry workers (aside \ {drv}) where
  running_iff wid wkr get_eq other := by
    rw [books.running_iff wid wkr get_eq]
    by_cases other_drv : other = drv
    · subst other_drv
      have not_assigned : ¬ ∃ ent, entry other = some ent ∧ ent.worker = some wid := by
        rintro ⟨ent, live, assigned⟩
        simp [idle ent live] at assigned
      simp [not_assigned]
    · simp [other_drv]
  worker_lt other not_mem otherEnt wid other_live assigned := by
    by_cases other_drv : other = drv
    · subst other_drv
      simp [idle otherEnt other_live] at assigned
    · exact books.worker_lt other (fun mem => not_mem ⟨mem, other_drv⟩) otherEnt wid other_live assigned
  running_nodup := books.running_nodup
  down_idle := books.down_idle

/-- Write a worker whose running list is right for the entries that are then aside. -/
theorem setWorker {next : Set DrvId}
    (get_eq : workers[wid]? = some wkr) (nodup : new.running.Nodup)
    (idle : new.up = false → new.running = [])
    (own : ∀ drv, drv ∈ new.running ↔ drv ∉ next ∧ ∃ ent, entry drv = some ent ∧ ent.worker = some wid)
    (others : ∀ drv ent, entry drv = some ent → ent.worker ≠ some wid → (drv ∈ next ↔ drv ∈ aside)) :
    Runs entry (workers.set wid new) next where
  running_iff other otherWkr other_eq drv := by
    rcases getElem?_set_eq_some other_eq with ⟨rfl, rfl⟩ | ⟨other_ne, other_eq⟩
    · exact own drv
    · rw [books.running_iff other otherWkr other_eq]
      apply and_congr_left
      rintro ⟨ent, live, assigned⟩
      rw [others drv ent live (by simp [assigned, other_ne])]
  worker_lt drv not_mem ent other live assigned := by
    rw [List.length_set]
    by_cases other_wid : other = wid
    · exact other_wid ▸ (lt_length get_eq)
    · refine books.worker_lt drv ?_ ent other live assigned
      rwa [← others drv ent live (by simp [assigned, other_wid])]
  running_nodup other mem := by
    rcases List.mem_or_eq_of_mem_set mem with mem | rfl
    · exact books.running_nodup other mem
    · exact nodup
  down_idle other mem := by
    rcases List.mem_or_eq_of_mem_set mem with mem | rfl
    · exact books.down_idle other mem
    · exact idle

theorem stop (get_eq : workers[wid]? = some wkr)
    (live : entry drv = some ent) (assigned : ent.worker = some wid) :
    Runs entry (workers.set wid { wkr with running := wkr.running.filter (· ≠ drv) })
      (insert drv aside) := by
  have mem := List.mem_of_getElem? get_eq
  refine books.setWorker get_eq ((books.running_nodup wkr mem).filter _) (fun down => ?_)
    (fun other => ?_) fun other otherEnt other_live other_worker => ?_
  · simp [books.down_idle wkr mem down]
  · rw [List.mem_filter, books.running_iff wid wkr get_eq, Set.mem_insert_iff]
    simp only [decide_eq_true_eq]
    tauto
  · have other_drv : other ≠ drv := by
      rintro rfl
      obtain rfl : ent = otherEnt := by simpa [live] using other_live
      exact other_worker assigned
    simp [other_drv]

theorem start (get_eq : workers[wid]? = some wkr) (up : wkr.up = true) (mem : drv ∈ aside)
    (live : entry drv = some ent) (assigned : ent.worker = some wid) :
    Runs entry (workers.set wid { wkr with running := wkr.running ++ [drv] })
      (aside \ {drv}) := by
  have not_running : drv ∉ wkr.running := by
    rw [books.running_iff wid wkr get_eq]
    exact fun running => running.1 mem
  refine books.setWorker get_eq ?_ (by simp [up]) (fun other => ?_)
    fun other otherEnt other_live other_worker => ?_
  · have nodup := books.running_nodup wkr (List.mem_of_getElem? get_eq)
    simpa [List.nodup_append, nodup] using fun other running => ne_of_mem_of_not_mem running not_running
  · rw [mem_append, mem_singleton, books.running_iff wid wkr get_eq]
    by_cases other_drv : other = drv
    · simp [other_drv, live, assigned]
    · simp [other_drv]
  · have other_drv : other ≠ drv := by
      rintro rfl
      obtain rfl : ent = otherEnt := by simpa [live] using other_live
      exact other_worker assigned
    simp [other_drv]

end Updates

/-- A worker that leaves sets all it ran aside. -/
theorem leave (books : Runs entry workers ∅) (get_eq : workers[wid]? = some wkr) :
    Runs entry (workers.set wid { wkr with up := false, running := [] })
      {drv | drv ∈ wkr.running} := by
  refine books.setWorker get_eq List.nodup_nil (by simp) (fun drv => ?_) fun drv ent live not_assigned => ?_
  · rw [Set.mem_ofPred_eq, books.running_iff wid wkr get_eq]
    simp
  · simp only [Set.mem_ofPred_eq, books.running_iff wid wkr get_eq, live]
    simp [not_assigned]

theorem append (books : Runs entry workers aside) (addr : String) :
    Runs entry (workers ++ [({ addr } : Worker)]) aside where
  running_iff wid wkr get_eq drv := by
    rcases getElem?_concat_eq_some get_eq with get_eq | ⟨rfl, rfl⟩
    · exact books.running_iff wid wkr get_eq drv
    · simp only [List.not_mem_nil, false_iff, not_and, not_exists]
      intro not_mem ent live assigned
      exact absurd (books.worker_lt drv not_mem ent _ live assigned) (lt_irrefl _)
  worker_lt drv not_mem ent wid live assigned := by
    have := books.worker_lt drv not_mem ent wid live assigned
    rw [List.length_append]
    exact Nat.lt_add_right 1 this
  running_nodup wkr mem := by
    rcases mem_append.mp mem with mem | mem
    · exact books.running_nodup wkr mem
    · simp [mem_singleton.mp mem]
  down_idle wkr mem := by
    rcases mem_append.mp mem with mem | mem
    · exact books.down_idle wkr mem
    · simp [mem_singleton.mp mem]

end Runs

/-! ## Free slots -/

/-- Every system a worker lists counts its free slots; elsewhere it counts as full. -/
structure Counts (workers : List Worker) (free : String → WorkerId → Option ℤ)
    (stale : Set WorkerId) : Prop where
  known : ∀ wid wkr, workers[wid]? = some wkr → ∀ name ∈ wkr.systems, (free name wid).isSome
  free_eq : ∀ wid ∉ stale, ∀ wkr, workers[wid]? = some wkr → ∀ name ∈ wkr.systems,
    free name wid = some wkr.slots
  unlisted : ∀ name wid val, free name wid = some val →
    (∀ wkr, workers[wid]? = some wkr → name ∉ wkr.systems) → val = 0
  maxJobs_le : ∀ wkr ∈ workers, wkr.maxJobs ≤ FreeIndex.maxSlots

namespace Counts

variable {workers : List Worker} {free next : String → WorkerId → Option ℤ}
  {stale : Set WorkerId} {wid : WorkerId} {wkr new : Worker}

section Updates

variable (books : Counts workers free stale)
include books

/-- A worker that keeps its systems may change and is to be counted anew. -/
theorem setWorker (get_eq : workers[wid]? = some wkr)
    (systems_eq : new.systems = wkr.systems) (maxJobs_le : new.maxJobs ≤ FreeIndex.maxSlots) :
    Counts (workers.set wid new) free (insert wid stale) where
  known other otherWkr other_eq := by
    rcases getElem?_set_eq_some other_eq with ⟨rfl, rfl⟩ | ⟨-, other_eq⟩
    · rw [systems_eq]
      exact books.known other wkr get_eq
    · exact books.known other otherWkr other_eq
  free_eq other not_mem otherWkr other_eq := by
    rw [Set.mem_insert_iff, not_or] at not_mem
    rcases getElem?_set_eq_some other_eq with ⟨rfl, -⟩ | ⟨-, other_eq⟩
    · exact absurd rfl not_mem.1
    · exact books.free_eq other not_mem.2 otherWkr other_eq
  unlisted name other val counted not_listed := by
    refine books.unlisted name other val counted fun otherWkr other_eq listed => ?_
    by_cases other_wid : other = wid
    · subst other_wid
      obtain rfl : wkr = otherWkr := by simpa [get_eq] using other_eq
      refine not_listed new ?_ (systems_eq ▸ listed)
      simp [(lt_length get_eq)]
    · refine not_listed otherWkr ?_ listed
      rwa [getElem?_set_ne (Ne.symm other_wid)]
  maxJobs_le other mem := by
    rcases List.mem_or_eq_of_mem_set mem with mem | rfl
    · exact books.maxJobs_le other mem
    · exact maxJobs_le

/-- Counting a worker's slots makes its counts right. -/
theorem refresh (get_eq : workers[wid]? = some wkr)
    (next_eq : ∀ name other, next name other =
      if other = wid ∧ name ∈ wkr.systems then some wkr.slots else free name other) :
    Counts workers next (stale \ {wid}) where
  known other otherWkr other_eq name listed := by
    rw [next_eq]
    split
    · rfl
    · exact books.known other otherWkr other_eq name listed
  free_eq other not_mem otherWkr other_eq name listed := by
    rw [next_eq]
    by_cases other_wid : other = wid
    · subst other_wid
      obtain rfl : wkr = otherWkr := by simpa [get_eq] using other_eq
      simp [listed]
    · rw [if_neg fun same => other_wid same.1]
      exact books.free_eq other (fun mem => not_mem ⟨mem, other_wid⟩) otherWkr other_eq name listed
  unlisted name other val counted not_listed := by
    rw [next_eq, if_neg] at counted
    · exact books.unlisted name other val counted not_listed
    · rintro ⟨rfl, listed⟩
      exact not_listed wkr get_eq listed
  maxJobs_le := books.maxJobs_le

/-- A worker that was down, and so counts as full everywhere, may list other systems. -/
theorem relist (get_eq : workers[wid]? = some wkr)
    (fresh : wid ∉ stale) (down : wkr.up = false)
    (maxJobs_le : new.maxJobs ≤ FreeIndex.maxSlots)
    (next_eq : ∀ name other, next name other =
      if other = wid ∧ name ∈ new.systems then some ((free name wid).getD 0)
      else free name other) :
    Counts (workers.set wid new) next (insert wid stale) where
  known other otherWkr other_eq name listed := by
    rw [next_eq]
    rcases getElem?_set_eq_some other_eq with ⟨rfl, rfl⟩ | ⟨other_ne, other_eq⟩
    · simp [listed]
    · rw [if_neg fun same => other_ne same.1]
      exact books.known other otherWkr other_eq name listed
  free_eq other not_mem otherWkr other_eq name listed := by
    rw [Set.mem_insert_iff, not_or] at not_mem
    rw [next_eq, if_neg fun same => not_mem.1 same.1]
    rcases getElem?_set_eq_some other_eq with ⟨rfl, -⟩ | ⟨-, other_eq⟩
    · exact absurd rfl not_mem.1
    · exact books.free_eq other not_mem.2 otherWkr other_eq name listed
  unlisted name other val counted not_listed := by
    have wid_lt := lt_length get_eq
    by_cases other_wid : other = wid
    · subst other_wid
      have not_new : name ∉ new.systems := not_listed new (by simp [wid_lt])
      rw [next_eq, if_neg fun same => not_new same.2] at counted
      by_cases listed : name ∈ wkr.systems
      · rw [books.free_eq other fresh wkr get_eq name listed] at counted
        simpa [Worker.slots, Worker.takesWork, down, eq_comm] using counted
      · refine books.unlisted name other val counted fun otherWkr other_eq => ?_
        obtain rfl : wkr = otherWkr := by simpa [get_eq] using other_eq
        exact listed
    · rw [next_eq, if_neg fun same => other_wid same.1] at counted
      refine books.unlisted name other val counted fun otherWkr other_eq => not_listed otherWkr ?_
      rwa [getElem?_set_ne (Ne.symm other_wid)]
  maxJobs_le other mem := by
    rcases List.mem_or_eq_of_mem_set mem with mem | rfl
    · exact books.maxJobs_le other mem
    · exact maxJobs_le

theorem mono {stale' : Set WorkerId} (le : stale ⊆ stale') : Counts workers free stale' :=
  ⟨books.known, fun wid not_mem => books.free_eq wid fun mem => not_mem (le mem), books.unlisted,
    books.maxJobs_le⟩

/-- A system that no worker lists may be forgotten. -/
theorem drop {name : String} (not_offered : ∀ wkr ∈ workers, name ∉ wkr.systems)
    (next_eq : ∀ other wid, next other wid = if other = name then none else free other wid) :
    Counts workers next stale := by
  have other_name : ∀ (wid : WorkerId) (wkr : Worker), workers[wid]? = some wkr →
      ∀ other ∈ wkr.systems, other ≠ name := by
    rintro wid wkr get_eq other listed rfl
    exact not_offered wkr (List.mem_of_getElem? get_eq) listed
  refine ⟨fun wid wkr get_eq other listed => ?_, fun wid not_mem wkr get_eq other listed => ?_,
    fun other wid val counted not_listed => ?_, books.maxJobs_le⟩
  · rw [next_eq, if_neg (other_name wid wkr get_eq other listed)]
    exact books.known wid wkr get_eq other listed
  · rw [next_eq, if_neg (other_name wid wkr get_eq other listed)]
    exact books.free_eq wid not_mem wkr get_eq other listed
  · rw [next_eq] at counted
    split at counted
    · simp at counted
    · exact books.unlisted other wid val counted not_listed

theorem append (addr : String) : Counts (workers ++ [({ addr } : Worker)]) free stale where
  known wid wkr get_eq := by
    rcases getElem?_concat_eq_some get_eq with get_eq | ⟨rfl, rfl⟩
    · exact books.known wid wkr get_eq
    · simp
  free_eq wid not_mem wkr get_eq := by
    rcases getElem?_concat_eq_some get_eq with get_eq | ⟨rfl, rfl⟩
    · exact books.free_eq wid not_mem wkr get_eq
    · simp
  unlisted name wid val counted not_listed := by
    refine books.unlisted name wid val counted fun wkr get_eq => not_listed wkr ?_
    rw [getElem?_append_left (lt_length get_eq), get_eq]
  maxJobs_le wkr mem := by
    rcases mem_append.mp mem with mem | mem
    · exact books.maxJobs_le wkr mem
    · simp [mem_singleton.mp mem]

end Updates

end Counts

/-! ## Addresses -/

/-- Workers are found by their address. -/
def Addrs (workers : List Worker) (workerIds : AList fun _ : String => WorkerId) : Prop :=
  ∀ addr wid, workerIds.lookup addr = some wid ↔
    ∃ wkr, workers[wid]? = some wkr ∧ wkr.addr = addr

theorem Addrs.set {workers : List Worker} {workerIds : AList fun _ : String => WorkerId}
    {wid : WorkerId} {wkr new : Worker} (addrs : Addrs workers workerIds)
    (get_eq : workers[wid]? = some wkr) (addr_eq : new.addr = wkr.addr) :
    Addrs (workers.set wid new) workerIds := by
  intro addr other
  rw [addrs addr other]
  by_cases other_wid : other = wid
  · subst other_wid
    rw [get_eq, List.getElem?_set_self (lt_length get_eq)]
    simp [addr_eq]
  · rw [getElem?_set_ne (Ne.symm other_wid)]

theorem Addrs.append {workers : List Worker} {workerIds : AList fun _ : String => WorkerId}
    {addr : String} (addrs : Addrs workers workerIds) (unknown : workerIds.lookup addr = none) :
    Addrs (workers ++ [({ addr } : Worker)]) (workerIds.insert addr workers.length) := by
  have not_known : ∀ (wid : WorkerId) (wkr : Worker), workers[wid]? = some wkr →
      wkr.addr ≠ addr := by
    intro wid wkr get_eq addr_eq
    simpa [unknown] using (addrs addr wid).mpr ⟨wkr, get_eq, addr_eq⟩
  intro other wid
  by_cases other_addr : other = addr
  · subst other_addr
    rw [AList.lookup_insert]
    constructor
    · rintro ⟨⟩
      exact ⟨{ addr := other }, by simp, rfl⟩
    · rintro ⟨wkr, get_eq, addr_eq⟩
      rcases getElem?_concat_eq_some get_eq with get_eq | ⟨rfl, -⟩
      · exact absurd addr_eq (not_known wid wkr get_eq)
      · rfl
  · rw [AList.lookup_insert_ne other_addr, addrs other wid]
    constructor
    · rintro ⟨wkr, get_eq, addr_eq⟩
      refine ⟨wkr, ?_, addr_eq⟩
      rw [getElem?_append_left (lt_length get_eq), get_eq]
    · rintro ⟨wkr, get_eq, addr_eq⟩
      rcases getElem?_concat_eq_some get_eq with get_eq | ⟨-, rfl⟩
      · exact ⟨wkr, get_eq, addr_eq⟩
      · exact absurd addr_eq.symm other_addr

end Core

end NixGrpcStore.Sched
