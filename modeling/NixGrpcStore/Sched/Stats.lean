import NixGrpcStore.Lib.Records
import NixGrpcStore.Sched.Reachable

/-!
# Scheduler statistics

`stats` of `src/daemon/scheduler.hh` tallies entries under what they require and workers under what they
offer.  Its keys join the sorted features with commas, so they tell feature lists apart as long as no
feature is empty or contains a comma.  Under that condition the statistics are the direct count.
-/

namespace NixGrpcStore.Sched

open List (all_eq_true countP_congr filter_congr foldl_cons mem_cons_of_mem mem_cons_self)
open StateExcept

/-- What statistics are kept under. -/
structure StatsKey where
  system : String
  /-- Sorted, comma-joined. -/
  features : String
  deriving DecidableEq

/-- The statistics of one key. -/
structure Stats where
  /-- Wanted, not placed. -/
  queued : ℕ := 0
  /-- Of those, no connected worker could ever run it. -/
  unplaceable : ℕ := 0
  /-- Assigned, until the worker's Done. -/
  running : ℕ := 0
  /-- `maxJobs` of workers that take work. -/
  slots : ℕ := 0
  free : ℕ := 0
  deriving DecidableEq

instance : Inhabited Stats := ⟨{}⟩

/-- Features in the order of their names. -/
def sortedFeatures (feats : List String) : List String := feats.insertionSort (· ≤ ·)

/-- Add a feature to a key. -/
def addFeature (key feat : String) : String := key ++ (if key = "" then "" else ",") ++ feat

/-- Sorted features, joined with commas. -/
def featureKey (feats : List String) : String := (sortedFeatures feats).foldl addFeature ""

namespace Core

/-- Statistics by key. -/
abbrev StatsMap := AList fun _ : StatsKey => Stats

/-- The key of what a worker offers, in its native system. -/
def workerKey (wkr : Worker) : Option StatsKey :=
  wkr.systems.head?.map fun native => { system := native, features := featureKey wkr.features }

/-- Count a worker. -/
def countWorker (wkr : Worker) (sst : Stats) : Stats :=
  let sst := { sst with running := sst.running + wkr.running.length }
  if wkr.takesWork then
    { sst with
      slots := sst.slots + wkr.maxJobs.toNat
      free := sst.free + (max 0 (wkr.maxJobs - wkr.running.length)).toNat }
  else
    sst

/-- The key of what an entry requires. -/
def entryKey (ent : Entry) : StatsKey := { system := ent.system, features := featureKey ent.features }

/-- Count an entry that waits. -/
def countWaiting (can : Bool) (sst : Stats) : Stats :=
  { sst with
    queued := sst.queued + 1
    unplaceable := if can then sst.unplaceable else sst.unplaceable + 1 }

/-- Count an entry; entries sharing a key share the answer of `placeable`. -/
def countEntry (can : Entry → Bool) (out : StatsMap × AList fun _ : StatsKey => Bool) :
    Option Entry → StatsMap × AList fun _ : StatsKey => Bool
  | none => out
  | some ent =>
    if ent.followers.isEmpty ∨ ent.worker ≠ none then
      out
    else
      let answer := (out.2.lookup (entryKey ent)).getD (can ent)
      (Records.touch out.1 (entryKey ent) (countWaiting answer), out.2.insert (entryKey ent) answer)

/-- The statistics of the core. -/
def stats (s : Core) : StatsMap :=
  let known := s.systems.keys.foldl
    (Records.enter (fun name => some { system := name, features := "" }) fun _ sst => sst) ∅
  let offered := s.workers.foldl (Records.enter workerKey countWorker) known
  (s.entries.foldl (countEntry s.placeable) (offered, ∅)).1

/-- Number of derivations in queues. -/
def queued (s : Core) : ℕ := (s.systems.entries.map fun st => st.2.queue.size).sum

end Core

/-! ## Keys tell features apart -/

/-- A feature that a comma-joined key can hold. -/
def CleanFeature (feat : String) : Prop := feat ≠ "" ∧ ',' ∉ feat.toList

/-- Features that a comma-joined key can hold. -/
def CleanFeatures (feats : List String) : Prop := ∀ feat ∈ feats, CleanFeature feat

theorem sortedFeatures_perm (feats : List String) : (sortedFeatures feats).Perm feats :=
  List.perm_insertionSort _ feats

variable {feats others : List String}

theorem CleanFeatures.sorted (clean : CleanFeatures feats) : CleanFeatures (sortedFeatures feats) :=
  fun feat mem => clean feat ((sortedFeatures_perm feats).mem_iff.mp mem)

/-- The text that features add to a key. -/
def suffixOf (feats : List String) : List Char := feats.flatMap fun feat => ',' :: feat.toList

theorem toList_foldl_addFeature {key : String} (key_ne : key ≠ "") (feats : List String) :
    (feats.foldl addFeature key).toList = key.toList ++ suffixOf feats := by
  induction feats generalizing key with
  | nil => simp [suffixOf]
  | cons feat feats ih =>
    have added : addFeature key feat = key ++ "," ++ feat := by rw [addFeature, if_neg key_ne]
    have added_ne : addFeature key feat ≠ "" := by
      intro empty
      have chars := congrArg String.toList (added.symm.trans empty)
      simp at chars
    rw [foldl_cons, ih added_ne, added]
    simp [suffixOf]

/-- A first feature is what comes before the first comma. -/
theorem takeWhile_first {feat : String} (clean : CleanFeature feat) (feats : List String) :
    (feat.toList ++ suffixOf feats).takeWhile (· ≠ ',') = feat.toList := by
  rw [List.takeWhile_append_of_pos fun char mem => by
    simpa using ne_of_mem_of_not_mem mem clean.2]
  cases feats with
  | nil => simp [suffixOf]
  | cons other feats => simp [suffixOf]

theorem suffixOf_injective (clean : CleanFeatures feats)
    (others_clean : CleanFeatures others) (same : suffixOf feats = suffixOf others) : feats = others := by
  induction feats generalizing others with
  | nil =>
    cases others with
    | nil => rfl
    | cons other others => simp [suffixOf] at same
  | cons feat feats ih =>
    cases others with
    | nil => simp [suffixOf] at same
    | cons other others =>
      have same : feat.toList ++ suffixOf feats = other.toList ++ suffixOf others := by
        simpa [suffixOf] using same
      have first : feat.toList = other.toList := by
        have taken := congrArg (List.takeWhile (· ≠ ',')) same
        rwa [takeWhile_first (clean feat mem_cons_self),
          takeWhile_first (others_clean other mem_cons_self)] at taken
      rw [first] at same
      rw [String.toList_inj.mp first, ih (fun feat mem => clean feat (mem_cons_of_mem _ mem))
        (fun feat mem => others_clean feat (mem_cons_of_mem _ mem)) (List.append_cancel_left same)]

theorem suffixOf_eq_key (clean : CleanFeatures feats) :
    suffixOf feats = if feats = [] then [] else ',' :: (feats.foldl addFeature "").toList := by
  cases feats with
  | nil => rfl
  | cons feat feats =>
    have first : addFeature "" feat = feat := by simp [addFeature]
    rw [if_neg (List.cons_ne_nil _ _), foldl_cons, first,
      toList_foldl_addFeature (clean feat mem_cons_self).1]
    simp [suffixOf]

/-- Keys of clean features are equal only for the same features. -/
theorem featureKey_injective (clean : CleanFeatures feats)
    (others_clean : CleanFeatures others) (same : featureKey feats = featureKey others) :
    sortedFeatures feats = sortedFeatures others := by
  have nonempty : ∀ {feats : List String}, CleanFeatures feats → feats ≠ [] → feats.foldl addFeature "" ≠ "" := by
    intro feats clean feats_ne
    obtain ⟨feat, rest, rfl⟩ := List.exists_cons_of_ne_nil feats_ne
    have first : addFeature "" feat = feat := by simp [addFeature]
    intro empty
    have chars := congrArg String.toList empty
    rw [foldl_cons, first, toList_foldl_addFeature (clean feat mem_cons_self).1] at chars
    exact (clean feat mem_cons_self).1 (String.toList_inj.mp (by simpa using (List.append_eq_nil_iff.mp chars).1))
  have empty_iff : sortedFeatures feats = [] ↔ sortedFeatures others = [] := by
    constructor
    · intro empty
      by_contra others_ne
      exact nonempty others_clean.sorted others_ne (same.symm.trans (by rw [featureKey, empty]; rfl))
    · intro empty
      by_contra feats_ne
      exact nonempty clean.sorted feats_ne (same.trans (by rw [featureKey, empty]; rfl))
  apply suffixOf_injective clean.sorted others_clean.sorted
  rw [suffixOf_eq_key clean.sorted, suffixOf_eq_key others_clean.sorted, ← featureKey, ← featureKey, same]
  by_cases empty : sortedFeatures feats = []
  · rw [if_pos empty, if_pos (empty_iff.mp empty)]
  · rw [if_neg empty, if_neg (empty_iff.not.mp empty)]

/-! ## The direct count -/

/-- What an entry requires. -/
def Entry.requirement (ent : Entry) : String × List String := (ent.system, sortedFeatures ent.features)

/-- What a worker offers in its native system. -/
def Worker.offer (wkr : Worker) : Option (String × List String) :=
  wkr.systems.head?.map fun native => (native, sortedFeatures wkr.features)

namespace Core

/-- The derivations in queues. -/
def queuedIds (s : Core) : Finset DrvId :=
  (Finset.range s.entries.length).filter fun drv =>
    (s.systems.keys.any fun name => (s.systems.key name drv).isSome) = true

/-- The derivations in queues whose entry has followers and a property. -/
def queuedWith (s : Core) (holds : Entry → Bool) : Finset DrvId :=
  s.queuedIds.filter fun drv => ((s.entry drv).any fun ent => !ent.followers.isEmpty && holds ent) = true

/-- The statistics of one requirement, counted over queues, running lists and free-slot indexes. -/
def counted (s : Core) (req : String × List String) : Stats where
  queued := (s.queuedWith fun ent => decide (ent.requirement = req)).card
  unplaceable := (s.queuedWith fun ent => decide (ent.requirement = req) && !s.placeable ent).card
  running := ((s.workers.filter fun wkr => wkr.offer = some req).map fun wkr => wkr.running.length).sum
  slots := ((s.workers.filter fun wkr => wkr.offer = some req ∧ wkr.takesWork = true).map fun wkr =>
    wkr.maxJobs.toNat).sum
  free := (((List.range s.workers.length).filter fun wid =>
    s.isWorker wid fun wkr => decide (wkr.offer = some req ∧ wkr.takesWork = true)).map fun wid =>
      (s.freeOf wid).toNat).sum

/-- No feature that an entry requires or a worker offers is empty or has a comma. -/
structure Clean (s : Core) : Prop where
  entries : ∀ drv ent, s.entry drv = some ent → CleanFeatures ent.features
  workers : ∀ wkr ∈ s.workers, CleanFeatures wkr.features

variable {s : Core}

theorem entryKey_eq_iff {ent : Entry} (clean : CleanFeatures ent.features)
    (feats_clean : CleanFeatures feats) (system : String) :
    entryKey ent = { system, features := featureKey feats } ↔ ent.requirement = (system, sortedFeatures feats) := by
  rw [entryKey, Entry.requirement, StatsKey.mk.injEq, Prod.mk.injEq]
  refine and_congr_right fun _ => ⟨featureKey_injective clean feats_clean, fun same => ?_⟩
  rw [featureKey, featureKey, same]

theorem workerKey_eq_iff {wkr : Worker} (clean : CleanFeatures wkr.features)
    (feats_clean : CleanFeatures feats) (system : String) :
    workerKey wkr = some { system, features := featureKey feats } ↔
      wkr.offer = some (system, sortedFeatures feats) := by
  rw [workerKey, Worker.offer]
  cases wkr.systems.head? with
  | none => simp
  | some native =>
    simp only [Option.map_some, Option.some.injEq, StatsKey.mk.injEq, Prod.mk.injEq]
    refine and_congr_right fun _ => ⟨featureKey_injective clean feats_clean, fun same => ?_⟩
    rw [featureKey, featureKey, same]

/-- Whether an entry can be placed depends on what it requires. -/
theorem placeable_of_requirement (s : Core) {ent other : Entry} (same : ent.requirement = other.requirement) :
    s.placeable ent = s.placeable other := by
  obtain ⟨system_eq, sorted_eq⟩ := Prod.mk.inj same
  have perm : ent.features.Perm other.features :=
    (sortedFeatures_perm ent.features).symm.trans (sorted_eq ▸ sortedFeatures_perm other.features)
  have offers_eq : ∀ wkr, offers wkr ent = offers wkr other := by
    intro wkr
    rw [offers, offers, system_eq, perm.all_eq]
  simp only [placeable, offers_eq]

/-! ## Without the memo -/

/-- An entry waits, as `stats` sees it. -/
def waitingKey (slot : Option Entry) : Option StatsKey :=
  slot.bind fun ent => if ent.followers.isEmpty ∨ ent.worker ≠ none then none else some (entryKey ent)

theorem waitingKey_eq_some {slot : Option Entry} {key : StatsKey} :
    waitingKey slot = some key ↔
      ∃ ent, slot = some ent ∧ ent.followers ≠ [] ∧ ent.worker = none ∧ entryKey ent = key := by
  cases slot with
  | none => simp [waitingKey]
  | some ent =>
    simp only [waitingKey, Option.bind_some, Option.some.injEq, exists_eq_left']
    split_ifs with out
    · simp only [false_iff]
      rintro ⟨followed, waits, -⟩
      rcases out with alone | assigned
      · exact followed (List.isEmpty_iff.mp alone)
      · exact assigned waits
    · simp only [not_or, not_not, List.isEmpty_iff] at out
      simp [out.1, out.2]

/-- Answers that are shared are right, as long as entries with one key can be placed alike. -/
theorem foldl_countEntry {can : Entry → Bool} {slots : List (Option Entry)}
    (alike : ∀ ent other, some ent ∈ slots → some other ∈ slots → entryKey ent = entryKey other → can ent = can other)
    (out : StatsMap) (memo : AList fun _ : StatsKey => Bool)
    (right : ∀ ent answer, some ent ∈ slots → memo.lookup (entryKey ent) = some answer → can ent = answer) :
    (slots.foldl (countEntry can) (out, memo)).1 =
      slots.foldl (Records.enter waitingKey fun slot => countWaiting (slot.any can)) out := by
  induction slots generalizing out memo with
  | nil => rfl
  | cons slot slots ih =>
    have rest_alike := fun ent other mem other_mem =>
      alike ent other (mem_cons_of_mem slot mem) (mem_cons_of_mem slot other_mem)
    have rest_right := fun ent answer mem => right ent answer (mem_cons_of_mem slot mem)
    rw [foldl_cons, foldl_cons]
    cases slot with
    | none => exact ih rest_alike out memo rest_right
    | some ent =>
      by_cases skipped : ent.followers.isEmpty ∨ ent.worker ≠ none
      · have no_key : waitingKey (some ent) = none := if_pos skipped
        rw [countEntry, if_pos skipped, Records.enter, no_key]
        exact ih rest_alike out memo rest_right
      · have own_key : waitingKey (some ent) = some (entryKey ent) := if_neg skipped
        have answer_eq : (memo.lookup (entryKey ent)).getD (can ent) = can ent := by
          cases found : memo.lookup (entryKey ent) with
          | none => rfl
          | some answer => exact (right ent answer mem_cons_self found).symm
        rw [countEntry, if_neg skipped, answer_eq, Records.enter, own_key]
        refine ih rest_alike _ _ fun other answer mem found => ?_
        by_cases same : entryKey other = entryKey ent
        · rw [same, AList.lookup_insert] at found
          rw [← Option.some.inj found]
          exact alike other ent (mem_cons_of_mem _ mem) mem_cons_self same
        · rw [AList.lookup_insert_ne same] at found
          exact rest_right other answer mem found

/-! ## What the folds add up -/

theorem foldl_countWaiting (can : Option Entry → Bool) (slots : List (Option Entry)) (sst : Stats) :
    slots.foldl (fun sst slot => countWaiting (can slot) sst) sst =
      { sst with
        queued := sst.queued + slots.length
        unplaceable := sst.unplaceable + slots.countP fun slot => !can slot } := by
  induction slots generalizing sst with
  | nil => rfl
  | cons slot slots ih =>
    rw [foldl_cons, ih, List.length_cons, List.countP_cons]
    cases can slot <;> simp [countWaiting] <;> omega

theorem foldl_countWorker (wkrs : List Worker) (sst : Stats) :
    wkrs.foldl (fun sst wkr => countWorker wkr sst) sst =
      { sst with
        running := sst.running + (wkrs.map fun wkr => wkr.running.length).sum
        slots := sst.slots + ((wkrs.filter Worker.takesWork).map fun wkr => wkr.maxJobs.toNat).sum
        free := sst.free + ((wkrs.filter Worker.takesWork).map fun wkr =>
          (max 0 (wkr.maxJobs - wkr.running.length)).toNat).sum } := by
  induction wkrs generalizing sst with
  | nil => rfl
  | cons wkr wkrs ih =>
    rw [foldl_cons, ih]
    cases takes : wkr.takesWork <;> simp [countWorker, takes] <;> omega

/-- Three tables, one after the other. -/
theorem stats_eq
    (alike : ∀ ent other, some ent ∈ s.entries → some other ∈ s.entries → entryKey ent = entryKey other →
      s.placeable ent = s.placeable other) :
    s.stats = s.entries.foldl (Records.enter waitingKey fun slot => countWaiting (slot.any s.placeable))
      (s.workers.foldl (Records.enter workerKey countWorker) (s.systems.keys.foldl
        (Records.enter (fun name => some { system := name, features := "" }) fun _ sst => sst) ∅)) :=
  foldl_countEntry alike _ _ (by simp)

/-- The statistics of one key. -/
theorem recordAt_stats (s : Core) (key : StatsKey)
    (alike : ∀ ent other, some ent ∈ s.entries → some other ∈ s.entries → entryKey ent = entryKey other →
      s.placeable ent = s.placeable other) :
    Records.recordAt s.stats key =
      { queued := s.entries.countP fun slot => waitingKey slot = some key
        unplaceable := s.entries.countP fun slot => decide (waitingKey slot = some key) && !slot.any s.placeable
        running := ((s.workers.filter fun wkr => workerKey wkr = some key).map fun wkr => wkr.running.length).sum
        slots := ((s.workers.filter fun wkr => workerKey wkr = some key ∧ wkr.takesWork = true).map fun wkr =>
          wkr.maxJobs.toNat).sum
        free := ((s.workers.filter fun wkr => workerKey wkr = some key ∧ wkr.takesWork = true).map fun wkr =>
          (max 0 (wkr.maxJobs - wkr.running.length)).toNat).sum } := by
  have known_zero : Records.recordAt (s.systems.keys.foldl
      (Records.enter (fun name => some { system := name, features := "" }) fun _ sst => sst)
      (∅ : StatsMap)) key = {} := by
    rw [Records.recordAt_foldl_enter]
    exact List.foldl_fixed' (fun _ => rfl) _
  rw [stats_eq alike, Records.recordAt_foldl_enter, Records.recordAt_foldl_enter, known_zero, foldl_countWaiting,
    foldl_countWorker]
  simp only [Nat.zero_add, List.filter_filter, List.countP_filter, ← List.countP_eq_length_filter, Bool.decide_and,
    Bool.decide_eq_true, Bool.and_comm]

/-! ## The counts agree -/

theorem countP_eq_card {α : Type} (items : List α) (holds : α → Bool) :
    items.countP holds = ((Finset.range items.length).filter fun idx => (items[idx]?).any holds = true).card := by
  induction items using List.reverseRecOn with
  | nil => rfl
  | append_singleton items item ih =>
    have before : ((Finset.range items.length).filter fun idx => ((items ++ [item])[idx]?).any holds = true) =
        (Finset.range items.length).filter fun idx => (items[idx]?).any holds = true := by
      refine Finset.filter_congr fun idx idx_lt => ?_
      rw [List.getElem?_append_left (Finset.mem_range.mp idx_lt)]
    rw [List.countP_append, ih, List.length_append, List.length_singleton, Finset.range_add_one, Finset.filter_insert,
      before]
    cases holds_item : holds item with
    | false => simp [holds_item]
    | true => simp [holds_item]

theorem sum_range_filter {α : Type} (items : List α) (holds : α → Bool) (weight : α → ℕ) {weightAt : ℕ → ℕ}
    (same : ∀ idx item, items[idx]? = some item → holds item = true → weightAt idx = weight item) :
    (((List.range items.length).filter fun idx => (items[idx]?).any holds).map weightAt).sum =
      ((items.filter holds).map weight).sum := by
  induction items using List.reverseRecOn with
  | nil => rfl
  | append_singleton items item ih =>
    have before : ((List.range items.length).filter fun idx => ((items ++ [item])[idx]?).any holds) =
        (List.range items.length).filter fun idx => (items[idx]?).any holds := by
      refine filter_congr fun idx idx_lt => ?_
      rw [List.getElem?_append_left (List.mem_range.mp idx_lt)]
    have ih := ih fun idx found at_idx => same idx found (by
      rwa [List.getElem?_append_left (List.getElem?_eq_some_iff.mp at_idx).1])
    rw [List.length_append, List.length_singleton, List.range_succ, List.filter_append, List.map_append,
      List.sum_append, before, ih, List.filter_append, List.map_append, List.sum_append]
    cases holds_item : holds item with
    | false => simp [holds_item]
    | true => simp [holds_item, same items.length item (by simp) holds_item]

theorem Inv.mem_queuedIds (inv : Inv s) {drv : DrvId} :
    drv ∈ s.queuedIds ↔ ∃ ent, s.entry drv = some ent ∧ ent.worker = none := by
  have queued_iff := inv.bookkeeping.queued_iff
  simp only [queuedIds, Finset.mem_filter, Finset.mem_range, List.any_eq_true]
  constructor
  · rintro ⟨-, name, -, is_queued⟩
    obtain ⟨key, key_eq⟩ := Option.isSome_iff_exists.mp is_queued
    obtain ⟨ent, live, waits, -⟩ := (queued_iff name drv key).mp key_eq
    exact ⟨ent, live, waits⟩
  · rintro ⟨ent, live, waits⟩
    have key_eq := (queued_iff ent.system drv _).mpr ⟨ent, live, waits, rfl, rfl⟩
    have is_queued : (s.systems.key ent.system drv).isSome := by simp [key_eq]
    exact ⟨lt_of_entry live, ent.system, Systems.mem_of_key is_queued, is_queued⟩

/-- Queued entries are the waiting ones. -/
theorem Inv.card_queuedWith (inv : Inv s) (holds : Entry → Bool) :
    (s.queuedWith holds).card = s.entries.countP fun slot =>
      slot.any fun ent => decide (ent.worker = none) && (!ent.followers.isEmpty && holds ent) := by
  rw [countP_eq_card, queuedWith]
  refine congrArg Finset.card (Finset.ext fun drv => ?_)
  simp only [Finset.mem_filter, inv.mem_queuedIds, Finset.mem_range]
  constructor
  · rintro ⟨⟨ent, live, waits⟩, counts⟩
    refine ⟨lt_of_entry live, ?_⟩
    rw [live] at counts
    rw [getElem?_of_entry live]
    simpa [waits] using counts
  · rintro ⟨drv_lt, counts⟩
    obtain ⟨slot, slot_eq, counts⟩ := (Option.any_eq_true ..).mp counts
    obtain ⟨ent, rfl, holds_ent⟩ := (Option.any_eq_true ..).mp counts
    have live : s.entry drv = some ent := by simp [entry, slot_eq]
    obtain ⟨waits, counts⟩ := (Bool.and_eq_true ..).mp holds_ent
    refine ⟨⟨ent, live, of_decide_eq_true waits⟩, ?_⟩
    rw [live]
    exact counts

/-- Each waiting entry adds one to the number of queued ones, whatever its key. -/
theorem total_foldl_countEntry (can : Entry → Bool) (slots : List (Option Entry)) (out : StatsMap)
    (memo : AList fun _ : StatsKey => Bool) :
    Records.total Stats.queued (slots.foldl (countEntry can) (out, memo)).1 =
      Records.total Stats.queued out + slots.countP fun slot => (waitingKey slot).isSome := by
  induction slots generalizing out memo with
  | nil => rfl
  | cons slot slots ih =>
    rw [foldl_cons, List.countP_cons]
    cases slot with
    | none => exact ih out memo
    | some ent =>
      by_cases skipped : ent.followers.isEmpty ∨ ent.worker ≠ none
      · have no_key : waitingKey (some ent) = none := if_pos skipped
        rw [countEntry, if_pos skipped, ih, no_key]
        rfl
      · have own_key : waitingKey (some ent) = some (entryKey ent) := if_neg skipped
        have touched := @Records.total_touch _ _ _ _ out (entryKey ent) Stats.queued rfl
          (countWaiting ((memo.lookup (entryKey ent)).getD (can ent)))
        rw [countEntry, if_neg skipped]
        simp only
        rw [ih, own_key]
        simp only [countWaiting, Option.isSome_some, if_true] at touched ⊢
        omega

theorem Inv.total_queued (inv : Inv s) : Records.total Stats.queued s.stats = s.queuedIds.card := by
  have waiting : (s.queuedWith fun _ => true) = s.queuedIds := by
    refine Finset.filter_true_of_mem fun drv mem => ?_
    obtain ⟨ent, live, waits⟩ := inv.mem_queuedIds.mp mem
    have followed := inv.bookkeeping.followed drv ent live waits
    simpa [live] using followed
  unfold stats
  simp only
  rw [total_foldl_countEntry, Records.total_foldl_enter rfl fun wkr sst => ?_,
    Records.total_foldl_enter rfl fun _ _ => rfl,
    ← waiting, inv.card_queuedWith]
  · rw [show Records.total Stats.queued (∅ : StatsMap) = 0 from rfl, Nat.zero_add]
    refine countP_congr fun slot _ => ?_
    simp only [Option.isSome_iff_exists, waitingKey_eq_some, Option.any_eq_true, Bool.and_true, Bool.and_eq_true,
      decide_eq_true_eq, Bool.not_eq_true', List.isEmpty_eq_false_iff]
    constructor
    · rintro ⟨_, ent, is_slot, followed, waits, -⟩
      exact ⟨ent, is_slot, waits, followed⟩
    · rintro ⟨ent, is_slot, waits, followed⟩
      exact ⟨_, ent, is_slot, followed, waits, rfl⟩
  · unfold countWorker
    simp only
    split_ifs <;> rfl

/-- A derivation is in the queue of its own system only, so the sizes of the queues add up. -/
theorem Inv.queued_eq (inv : Inv s) : s.queued = s.queuedIds.card := by
  have queued_iff := inv.bookkeeping.queued_iff
  have own : ∀ name drv, (s.systems.key name drv).isSome →
      ∃ ent, s.entry drv = some ent ∧ ent.system = name := by
    intro name drv is_queued
    obtain ⟨key, key_eq⟩ := Option.isSome_iff_exists.mp is_queued
    obtain ⟨ent, live, -, own, -⟩ := (queued_iff name drv key).mp key_eq
    exact ⟨ent, live, own⟩
  let inQueue (name : String) : Finset DrvId :=
    (Finset.range s.entries.length).filter fun drv => (s.systems.key name drv).isSome = true
  have sizes : s.queued = (s.systems.keys.map fun name => (inQueue name).card).sum := by
    have keys_map : s.systems.keys.map (fun name => (inQueue name).card) =
        s.systems.entries.map fun st => (inQueue st.1).card := by
      rw [AList.keys, List.keys, List.map_map]
      rfl
    rw [keys_map, queued]
    refine congrArg List.sum (List.map_congr_left fun st mem => ?_)
    have lookup_eq : s.systems.lookup st.1 = some st.2 := AList.mem_lookup_iff.mpr mem
    have key_eq : ∀ drv, s.systems.key st.1 drv = st.2.queue.key drv := by
      intro drv
      rw [Systems.key, lookup_eq, Option.bind_some]
    simp only [inQueue, key_eq]
    refine st.2.queue.size_eq_card fun drv is_queued => ?_
    rw [← key_eq] at is_queued
    obtain ⟨ent, live, -⟩ := own st.1 drv is_queued
    exact lt_of_entry live
  have union : s.queuedIds = s.systems.keys.toFinset.biUnion inQueue := by
    ext drv
    simp only [queuedIds, inQueue, Finset.mem_filter, Finset.mem_biUnion, List.mem_toFinset, List.any_eq_true]
    constructor
    · rintro ⟨drv_lt, name, known, is_queued⟩
      exact ⟨name, known, drv_lt, is_queued⟩
    · rintro ⟨name, known, drv_lt, is_queued⟩
      exact ⟨drv_lt, name, known, is_queued⟩
  rw [sizes, union, Finset.card_biUnion, List.sum_toFinset _ s.systems.keys_nodup]
  intro name _ other _ name_ne
  refine Finset.disjoint_left.mpr fun drv mem other_mem => name_ne ?_
  obtain ⟨ent, live, rfl⟩ := own name drv (Finset.mem_filter.mp mem).2
  obtain ⟨found, found_live, rfl⟩ := own other drv (Finset.mem_filter.mp other_mem).2
  rw [Option.some.inj (live.symm.trans found_live)]

/-- What a worker has left is counted in the index of its native system. -/
theorem Inv.free_eq (inv : Inv s) {wid : WorkerId} {wkr : Worker} (get_eq : s.workers[wid]? = some wkr)
    {req : String × List String} (offered : wkr.offer = some req) (takes : wkr.takesWork = true) :
    (s.freeOf wid).toNat = (max 0 (wkr.maxJobs - wkr.running.length)).toNat := by
  have listed : wkr.systems ≠ [] := by
    rintro empty
    simp [Worker.offer, empty] at offered
  have most : wkr.maxJobs ≤ FreeIndex.maxSlots := inv.counts.maxJobs_le wkr (List.mem_of_getElem? get_eq)
  rw [freeOf_eq inv.counts get_eq listed, Worker.slots, if_pos takes]
  omega

theorem Clean.of_mem (clean : Clean s) {ent : Entry} (mem : some ent ∈ s.entries) :
    CleanFeatures ent.features := by
  obtain ⟨drv, slot_eq⟩ := List.getElem?_of_mem mem
  exact clean.entries drv ent (by simp [entry, slot_eq])

theorem Clean.alike (clean : Clean s) (ent other : Entry) (mem : some ent ∈ s.entries)
    (other_mem : some other ∈ s.entries) (same : entryKey ent = entryKey other) :
    s.placeable ent = s.placeable other := by
  refine s.placeable_of_requirement ?_
  have iff := entryKey_eq_iff (clean.of_mem mem) (clean.of_mem other_mem) other.system
  exact iff.mp same

/-- The statistics of a requirement are the direct count. -/
theorem Inv.recordAt_stats (inv : Inv s) (clean : Clean s) (system : String)
    (feats_clean : CleanFeatures feats) :
    Records.recordAt s.stats { system, features := featureKey feats } = s.counted (system, sortedFeatures feats) := by
  have waiting_iff : ∀ slot ∈ s.entries, waitingKey slot = some { system, features := featureKey feats } ↔
      ∃ ent, slot = some ent ∧ ent.worker = none ∧ ent.followers ≠ [] ∧
        ent.requirement = (system, sortedFeatures feats) := by
    intro slot mem
    rw [waitingKey_eq_some]
    refine exists_congr fun ent => and_congr_right ?_
    rintro rfl
    rw [entryKey_eq_iff (clean.of_mem mem) feats_clean, ← and_assoc, ← and_assoc]
    exact and_congr_left fun _ => and_comm
  have worker_iff : ∀ wkr ∈ s.workers, workerKey wkr = some { system, features := featureKey feats } ↔
      wkr.offer = some (system, sortedFeatures feats) :=
    fun wkr mem => workerKey_eq_iff (clean.workers wkr mem) feats_clean system
  rw [Core.recordAt_stats, counted, Stats.mk.injEq]
  · refine ⟨?_, ?_, ?_, ?_, ?_⟩
    · rw [inv.card_queuedWith]
      refine countP_congr fun slot mem => ?_
      simp only [decide_eq_true_eq, waiting_iff slot mem, Option.any_eq_true, Bool.and_eq_true, Bool.not_eq_true',
        List.isEmpty_eq_false_iff]
    · rw [inv.card_queuedWith]
      refine countP_congr fun slot mem => ?_
      simp only [Bool.and_eq_true, decide_eq_true_eq, waiting_iff slot mem, Option.any_eq_true, Bool.not_eq_true',
        List.isEmpty_eq_false_iff]
      constructor
      · rintro ⟨⟨ent, rfl, waits, followed, required⟩, unplaceable⟩
        exact ⟨ent, rfl, waits, followed, required, unplaceable⟩
      · rintro ⟨ent, rfl, waits, followed, required, unplaceable⟩
        exact ⟨⟨ent, rfl, waits, followed, required⟩, unplaceable⟩
    · rw [filter_congr fun wkr mem => decide_eq_decide.mpr (worker_iff wkr mem)]
    · rw [filter_congr fun wkr mem => decide_eq_decide.mpr (and_congr_left fun _ => worker_iff wkr mem)]
    · rw [filter_congr fun wkr mem => decide_eq_decide.mpr (and_congr_left fun _ => worker_iff wkr mem)]
      refine (sum_range_filter s.workers _ _ fun wid wkr get_eq counts => ?_).symm
      obtain ⟨offered, takes⟩ := of_decide_eq_true counts
      exact inv.free_eq get_eq offered takes
  · exact clean.alike

theorem Clean.key_of_mem (clean : Clean s) {key : StatsKey} (mem : key ∈ s.stats) :
    ∃ feats, CleanFeatures feats ∧ key.features = featureKey feats := by
  rw [stats_eq clean.alike, Records.mem_foldl_enter, Records.mem_foldl_enter, Records.mem_foldl_enter] at mem
  rcases mem with ((mem | ⟨name, -, is_key⟩) | ⟨wkr, wkr_mem, is_key⟩) | ⟨slot, slot_mem, is_key⟩
  · cases mem
  · refine ⟨[], by simp [CleanFeatures], ?_⟩
    rw [← Option.some.inj is_key]
    rfl
  · refine ⟨wkr.features, clean.workers wkr wkr_mem, ?_⟩
    obtain ⟨native, -, rfl⟩ := Option.map_eq_some_iff.mp is_key
    rfl
  · obtain ⟨ent, rfl, -, -, rfl⟩ := waitingKey_eq_some.mp is_key
    exact ⟨ent.features, clean.of_mem slot_mem, rfl⟩

/-- Where no feature is empty or has a comma, statistics are the direct count. -/
theorem stats_are_true_counts {log : List Assign} (reached : Reached s log) (clean : Clean s) :
    (∀ system feats, CleanFeatures feats →
      Records.recordAt s.stats { system, features := featureKey feats } = s.counted (system, sortedFeatures feats)) ∧
    (∀ key ∈ s.stats, ∃ feats, CleanFeatures feats ∧ key.features = featureKey feats) ∧
    Records.total Stats.queued s.stats = s.queued ∧
    ∀ feats others, CleanFeatures feats → CleanFeatures others → featureKey feats = featureKey others →
      sortedFeatures feats = sortedFeatures others := by
  have inv := reached.inv.1
  refine ⟨fun system feats => inv.recordAt_stats clean system, fun key => clean.key_of_mem, ?_,
    fun feats others => featureKey_injective⟩
  rw [inv.total_queued, inv.queued_eq]

/-- A worker with two features, and a derivation that needs both. -/
def twoFeatures : List Op :=
  [.hello { addr := "w0", systems := ["x86_64-linux"], features := ["kvm", "big"], maxJobs := 2 },
    .want 7 { drvPath := "a.drv", system := "x86_64-linux", features := ["kvm", "big"] } 0]

/-- Whether a feature can be told from others in a key. -/
def isClean (feat : String) : Bool := feat ≠ "" && !feat.toList.contains ','

theorem clean_of_all (entries_clean : (s.entries.all fun slot => slot.all fun ent => ent.features.all isClean) = true)
    (workers_clean : (s.workers.all fun wkr => wkr.features.all isClean) = true) : Clean s := by
  have clean_of : ∀ feats : List String, feats.all isClean = true → CleanFeatures feats := by
    intro feats all_clean feat mem
    have is_clean := all_eq_true.mp all_clean feat mem
    simpa [isClean, CleanFeature] using is_clean
  constructor
  · intro drv ent live
    have slot_clean := all_eq_true.mp entries_clean _ (List.mem_of_getElem? (getElem?_of_entry live))
    exact clean_of ent.features slot_clean
  · intro wkr mem
    exact clean_of wkr.features (all_eq_true.mp workers_clean wkr mem)

theorem stats_are_true_counts_twoFeatures :
    ∃ s, Reached s [] ∧ s.counted ("x86_64-linux", ["big", "kvm"]) = { queued := 1, slots := 2, free := 2 } ∧
      Records.recordAt s.stats { system := "x86_64-linux", features := featureKey ["kvm", "big"] } =
        s.counted ("x86_64-linux", sortedFeatures ["kvm", "big"]) := by
  have value_eq : value (Core.runAll twoFeatures {}) = some [] := by decide +kernel
  obtain ⟨s, ok⟩ := eq_ok_of_value value_eq
  have state_eq : s = after (Core.runAll twoFeatures {}) := by rw [ok, after_ok]
  have reached : Reached s [] := by
    refine Reached.runAll (.start ⟨{}, rfl⟩) (fun op mem => ?_) ok
    simp only [twoFeatures, List.mem_cons, List.not_mem_nil, or_false] at mem
    rcases mem with rfl | rfl <;> simp [Op.Named]
  have clean : Clean s := by
    rw [state_eq]
    exact clean_of_all (by decide +kernel) (by decide +kernel)
  refine ⟨s, reached, ?_, (stats_are_true_counts reached clean).1 "x86_64-linux" ["kvm", "big"] ?_⟩
  · rw [state_eq]
    decide +kernel
  · simp [CleanFeatures, CleanFeature]

/-- A worker with a feature that has a comma, a derivation that needs it, and one that needs two others. -/
def commaFeature : List Op :=
  [.hello { addr := "w0", systems := ["x86_64-linux"], features := ["a,b"], maxJobs := 1 },
    .want 7 { drvPath := "a.drv", system := "x86_64-linux", features := ["a,b"] } 0,
    .want 7 { drvPath := "b.drv", system := "x86_64-linux", features := ["a", "b"] } 0]

/-- Two feature lists share a key, and with it the answer whether they can be placed. -/
theorem comma_features_counted_as_one :
    ∃ s, Reached s [] ∧ featureKey ["a,b"] = featureKey ["a", "b"] ∧
      (Records.recordAt s.stats { system := "x86_64-linux", features := featureKey ["a", "b"] }) =
        { queued := 2, unplaceable := 0, slots := 1, free := 1 } ∧
      s.counted ("x86_64-linux", sortedFeatures ["a", "b"]) = { queued := 1, unplaceable := 1 } := by
  have value_eq : value (Core.runAll commaFeature {}) = some [] := by decide +kernel
  obtain ⟨s, ok⟩ := eq_ok_of_value value_eq
  have state_eq : s = after (Core.runAll commaFeature {}) := by rw [ok, after_ok]
  have reached : Reached s [] := by
    refine Reached.runAll (.start ⟨{}, rfl⟩) (fun op mem => ?_) ok
    simp only [commaFeature, List.mem_cons, List.not_mem_nil, or_false] at mem
    rcases mem with rfl | rfl | rfl <;> simp [Op.Named]
  refine ⟨s, reached, by decide +kernel, ?_, ?_⟩
  · rw [state_eq]
    decide +kernel
  · rw [state_eq]
    decide +kernel

end Core

end NixGrpcStore.Sched
