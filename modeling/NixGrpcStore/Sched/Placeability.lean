import NixGrpcStore.Sched.Invariant

/-!
# Placeability

Clients are told when no worker could ever run what they wait for.  The core keeps what it last told
them in a flag of each entry; `placeabilityChanges` brings the flags up to date.
-/

namespace NixGrpcStore.Sched

open StateExcept

namespace Core

/-- A queued entry whose flag does not tell the truth. -/
def Disagrees (can : Entry → Bool) (ent : Entry) : Prop :=
  ent.worker = none ∧ ent.followers ≠ [] ∧ ent.unplaceable = can ent

/-- An entry with its flag brought up to date, if it is queued. -/
def withFlag (can : Entry → Bool) (ent : Entry) : Entry :=
  if ent.worker = none ∧ ent.followers ≠ [] then { ent with unplaceable := !can ent } else ent

variable {can : Entry → Bool}

theorem withFlag_of_not_disagrees {ent : Entry} (agrees : ¬ Disagrees can ent) : withFlag can ent = ent := by
  unfold withFlag
  split
  · rename_i queued
    have flag_ne : ent.unplaceable ≠ can ent := fun same => agrees ⟨queued.1, queued.2, same⟩
    rw [← Bool.eq_not.mpr flag_ne]
  · rfl

/-- Answers that were remembered under system and features are right. -/
def Memo.Right (memo : Memo) (can : Entry → Bool) : Prop :=
  ∀ ent answer, memo.lookup (ent.system, ent.features) = some answer → can ent = answer

theorem Memo.Right.insert {memo : Memo} {ent : Entry} (right : memo.Right can)
    (congr : ∀ ent other : Entry, ent.system = other.system → ent.features = other.features →
      can ent = can other) :
    Memo.Right (AList.insert (ent.system, ent.features) (can ent) memo) can := by
  intro other answer found
  by_cases same : (other.system, other.features) = (ent.system, ent.features)
  · rw [same, AList.lookup_insert, Option.some.injEq] at found
    rw [← found]
    exact congr other ent (congrArg Prod.fst same) (congrArg Prod.snd same)
  · rw [AList.lookup_insert_ne same] at found
    exact right other answer found

/-- The slots, counted from `idx`, whose flag does not tell the truth, each once. -/
structure Flips (can : Entry → Bool) (idx : ℕ) (slots : List (Option Entry)) (changed : List ℕ) :
    Prop where
  nodup : changed.Nodup
  mem_iff : ∀ drv : ℕ, drv ∈ changed ↔
    ∃ i ent, drv = idx + i ∧ slots[i]? = some (some ent) ∧ Disagrees can ent

section Flips

variable {idx : ℕ} {slots : List (Option Entry)} {changed : List ℕ}

theorem Flips.cons {slot : Option Entry} (flips : Flips can (idx + 1) slots changed)
    (agrees : ∀ ent, slot = some ent → ¬ Disagrees can ent) :
    Flips can idx (slot :: slots) changed := by
  refine ⟨flips.nodup, fun drv => ?_⟩
  rw [flips.mem_iff]
  constructor
  · rintro ⟨i, ent, rfl, slot_eq, disagrees⟩
    exact ⟨i + 1, ent, by omega, slot_eq, disagrees⟩
  · rintro ⟨i, ent, rfl, slot_eq, disagrees⟩
    cases i with
    | zero => exact absurd disagrees (agrees ent (Option.some.inj slot_eq))
    | succ i => exact ⟨i, ent, by omega, slot_eq, disagrees⟩

theorem Flips.cons_disagrees {ent : Entry} (flips : Flips can (idx + 1) slots changed)
    (disagrees : Disagrees can ent) : Flips can idx (some ent :: slots) (idx :: changed) := by
  refine ⟨List.nodup_cons.mpr ⟨fun mem => ?_, flips.nodup⟩, fun drv => ?_⟩
  · obtain ⟨i, -, idx_eq, -⟩ := (flips.mem_iff idx).mp mem
    omega
  · rw [List.mem_cons, flips.mem_iff]
    constructor
    · rintro (rfl | ⟨i, other, rfl, slot_eq, other_disagrees⟩)
      · exact ⟨0, ent, rfl, rfl, disagrees⟩
      · exact ⟨i + 1, other, by omega, slot_eq, other_disagrees⟩
    · rintro ⟨i, other, rfl, slot_eq, other_disagrees⟩
      cases i with
      | zero => exact .inl rfl
      | succ i => exact .inr ⟨i, other, by omega, slot_eq, other_disagrees⟩

end Flips

/-- The walk over the table writes each flag as it should be and lists what it changed. -/
theorem flipAll_spec (congr : ∀ ent other : Entry, ent.system = other.system →
      ent.features = other.features → can ent = can other)
    (idx : ℕ) {memo : Memo} (right : memo.Right can) (slots : List (Option Entry)) :
    (flipAll can idx memo slots).1 = slots.map (Option.map (withFlag can)) ∧
      Flips can idx slots (flipAll can idx memo slots).2 := by
  induction slots generalizing idx memo with
  | nil => exact ⟨rfl, List.nodup_nil, by simp [flipAll]⟩
  | cons slot slots ih =>
    cases slot with
    | none =>
      obtain ⟨slots_eq, flips⟩ := ih (idx + 1) right
      exact ⟨congrArg (none :: ·) slots_eq, flips.cons (by simp)⟩
    | some ent =>
      rw [flipAll]
      split
      · rename_i not_queued
        obtain ⟨slots_eq, flips⟩ := ih (idx + 1) right
        have agrees : ¬ Disagrees can ent := by
          rintro ⟨idle, followed, -⟩
          simp [idle, List.isEmpty_iff, followed] at not_queued
        refine ⟨?_, flips.cons fun other other_eq => Option.some.inj other_eq ▸ agrees⟩
        rw [List.map_cons, Option.map_some, withFlag_of_not_disagrees agrees, ← slots_eq]
      · rename_i queued
        obtain ⟨idle, followed⟩ : ent.worker = none ∧ ent.followers ≠ [] := by
          simpa [List.isEmpty_iff] using queued
        have answer_eq : (memo.lookup (ent.system, ent.features)).getD (can ent) = can ent := by
          cases found : memo.lookup (ent.system, ent.features) with
          | none => rfl
          | some answer => exact (right ent answer found).symm
        simp only [answer_eq]
        have still_right : Memo.Right (memo.insert (ent.system, ent.features) (can ent)) can :=
          right.insert congr
        obtain ⟨slots_eq, flips⟩ := ih (idx + 1) still_right
        split
        · rename_i disagrees
          refine ⟨?_, flips.cons_disagrees ⟨idle, followed, disagrees⟩⟩
          rw [List.map_cons, Option.map_some, withFlag, if_pos ⟨idle, followed⟩, ← slots_eq]
        · rename_i agrees
          have agrees : ¬ Disagrees can ent := fun disagrees => agrees disagrees.2.2
          refine ⟨?_, flips.cons fun other other_eq => Option.some.inj other_eq ▸ agrees⟩
          rw [List.map_cons, Option.map_some, withFlag_of_not_disagrees agrees, ← slots_eq]

theorem offers_congr {ent other : Entry} (system_eq : ent.system = other.system)
    (features_eq : ent.features = other.features) (wkr : Worker) :
    offers wkr ent = offers wkr other := by
  simp [offers, system_eq, features_eq]

theorem placeable_congr (s : Core) (ent other : Entry) (system_eq : ent.system = other.system)
    (features_eq : ent.features = other.features) : s.placeable ent = s.placeable other := by
  simp [placeable, offers_congr system_eq features_eq]

section Flags

variable (can : Entry → Bool) (ent : Entry)

@[simp] theorem withFlag_drvPath :
    (withFlag can ent).drvPath = ent.drvPath := by
  unfold withFlag
  split <;> rfl

@[simp] theorem withFlag_worker :
    (withFlag can ent).worker = ent.worker := by
  unfold withFlag
  split <;> rfl

@[simp] theorem withFlag_assignId :
    (withFlag can ent).assignId = ent.assignId := by
  unfold withFlag
  split <;> rfl

@[simp] theorem withFlag_followers :
    (withFlag can ent).followers = ent.followers := by
  unfold withFlag
  split <;> rfl

theorem withFlag_eq :
    ∃ unplaceable, withFlag can ent = { ent with unplaceable } := by
  unfold withFlag
  split
  · exact ⟨_, rfl⟩
  · exact ⟨ent.unplaceable, rfl⟩

end Flags

/-- Entries may change in a way that leaves their path, worker and expected keys alone. -/
theorem Inv.mapEntries {s : Core} (inv : Inv s) {change : Entry → Entry}
    (flag_only : ∀ ent, ∃ unplaceable, change ent = { ent with unplaceable }) :
    Inv { s with entries := s.entries.map (Option.map change) } ∧
      ∀ drv, entry { s with entries := s.entries.map (Option.map change) } drv =
        (s.entry drv).map change := by
  have entry_eq : ∀ drv, entry { s with entries := s.entries.map (Option.map change) } drv =
      (s.entry drv).map change := by
    intro drv
    rw [entry, entry, List.getElem?_map]
    cases s.entries[drv]? <;> rfl
  have key_eq : ∀ ent name, queueKey s.cfg name (change ent) = queueKey s.cfg name ent := by
    intro ent name
    obtain ⟨unplaceable, same⟩ := flag_only ent
    rw [same]
    rfl
  refine ⟨⟨?_, ?_, ?_, inv.counts, inv.addrs⟩, entry_eq⟩
  · have keys_eq : slotKeys (s.entries.map (Option.map change)) = slotKeys s.entries := by
      rw [slotKeys, slotKeys, List.map_map]
      refine List.map_congr_left fun slot _ => ?_
      cases slot with
      | none => rfl
      | some ent =>
        obtain ⟨unplaceable, same⟩ := flag_only ent
        simp only [Function.comp_apply, Option.map_some, same]
        rfl
    exact keys_eq ▸ inv.ids
  · refine ⟨by simp, by simp, fun drv _ name => ?_, fun drv _ ent live => ?_, fun drv ent live => ?_⟩
    · rw [entry_eq]
      change s.systems.key name drv = _
      rw [inv.queues.key_eq drv (Set.notMem_empty drv)]
      cases s.entry drv with
      | none => rfl
      | some ent => exact (key_eq ent name).symm
    · rw [entry_eq] at live
      obtain ⟨old, old_live, rfl⟩ := Option.map_eq_some_iff.mp live
      obtain ⟨unplaceable, same⟩ := flag_only old
      rw [same]
      exact inv.queues.followed drv (Set.notMem_empty drv) old old_live
    · rw [entry_eq] at live
      obtain ⟨old, old_live, rfl⟩ := Option.map_eq_some_iff.mp live
      obtain ⟨unplaceable, same⟩ := flag_only old
      rw [same]
      exact inv.queues.named drv old old_live
  · have worker_eq : ∀ ent, (change ent).worker = ent.worker := by
      intro ent
      obtain ⟨unplaceable, same⟩ := flag_only ent
      rw [same]
    refine ⟨fun wid wkr get_eq drv => ?_, fun drv _ ent wid live assigned => ?_,
      inv.runs.running_nodup, inv.runs.down_idle⟩
    · rw [inv.runs.running_iff wid wkr get_eq, entry_eq]
      cases s.entry drv with
      | none => simp
      | some ent => simp [worker_eq]
    · rw [entry_eq] at live
      obtain ⟨old, old_live, rfl⟩ := Option.map_eq_some_iff.mp live
      rw [worker_eq] at assigned
      exact inv.runs.worker_lt drv (Set.notMem_empty drv) old wid old_live assigned

/-- All flags are brought up to date, and nothing else changes. -/
theorem Inv.placeabilityChanges {s : Core} (inv : Inv s) :
    ∃ changed s', Core.placeabilityChanges s = .ok changed s' ∧ Inv s' ∧ s' = { s with entries := s'.entries } ∧
      (∀ drv, s'.entry drv = (s.entry drv).map (withFlag s.placeable)) ∧
      changed.Nodup ∧
      ∀ drv, drv ∈ changed ↔ ∃ ent, s.entry drv = some ent ∧ Disagrees s.placeable ent := by
  have right : Memo.Right ∅ s.placeable := fun _ _ found => by simp at found
  obtain ⟨slots_eq, flips⟩ := flipAll_spec s.placeable_congr 0 right s.entries
  obtain ⟨next_inv, next_entry⟩ := inv.mapEntries (withFlag_eq s.placeable)
  refine ⟨_, _, rfl, ?_, rfl, ?_, flips.nodup, fun drv => ?_⟩
  · rw [slots_eq]
    exact next_inv
  · rw [slots_eq]
    exact next_entry
  · rw [flips.mem_iff]
    simp only [Nat.zero_add, entry, Option.join_eq_some_iff]
    constructor
    · rintro ⟨i, ent, rfl, slot_eq, disagrees⟩
      exact ⟨ent, slot_eq, disagrees⟩
    · rintro ⟨ent, slot_eq, disagrees⟩
      exact ⟨drv, ent, rfl, slot_eq, disagrees⟩

/-- A flag may be written at any time. -/
theorem Inv.markUnplaceable {s s' : Core} (inv : Inv s) {drv : DrvId} {unplaceable : Bool}
    (ok : Core.markUnplaceable drv unplaceable s = .ok () s') :
    Inv s' ∧ s' = { s with entries := s'.entries } ∧
      s'.entry = Function.update s.entry drv
        ((s.entry drv).map fun ent => { ent with unplaceable }) := by
  cases live : s.entry drv with
  | none =>
    obtain rfl : s = s' := by
      rw [Core.markUnplaceable, bind_eq_ok] at ok
      obtain ⟨slot, mid, at_drv, ok⟩ := ok
      cases slot_eq : s.entries[drv]? with
      | none => simp [entryAt, slot_eq] at at_drv
      | some slot' =>
        obtain ⟨rfl, rfl⟩ : slot' = slot ∧ s = mid := by
          simpa [entryAt, slot_eq] using at_drv
        obtain rfl : none = slot' := by simpa [entry, slot_eq] using live.symm
        simpa using ok
    refine ⟨inv, rfl, ?_⟩
    rw [Option.map_none, ← live, Function.update_eq_self]
  | some ent =>
    rw [Core.markUnplaceable, bind_of_ok (entryAt_of_entry live)] at ok
    simp only [setEntry, modify_apply, EStateM.Result.ok.injEq, true_and] at ok
    subst ok
    refine ⟨InvOff.setEntry inv _ (Set.notMem_empty drv) live rfl rfl (fun _ => rfl)
      (inv.queues.followed drv (Set.notMem_empty drv) ent live) (inv.queues.named drv ent live), rfl,
      ?_⟩
    exact entry_set (lt_of_entry live) _

end Core

end NixGrpcStore.Sched
