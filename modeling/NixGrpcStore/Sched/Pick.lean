import NixGrpcStore.Sched.Invariant

/-!
# The choice of a worker

`pick` looks for a worker on three paths: the free-slot index, a scan over the workers for entries
with features, and a second scan that avoids the worker an entry was given back by.  Locality may
then override the result.  Where the slot counts are right, all of them find workers that offer the
entry and have room, and they find one whenever there is one.
-/

namespace NixGrpcStore.Sched

/-- The worker takes work and is not full. -/
def Worker.HasRoom (wkr : Worker) : Prop :=
  wkr.takesWork = true ∧ (wkr.running.length : ℤ) < wkr.maxJobs

theorem Worker.slots_pos_iff {wkr : Worker} (maxJobs_le : wkr.maxJobs ≤ FreeIndex.maxSlots) :
    0 < wkr.slots ↔ wkr.HasRoom := by
  unfold Worker.slots Worker.HasRoom
  split
  · rename_i takes
    simp only [takes, true_and, FreeIndex.maxSlots] at maxJobs_le ⊢
    omega
  · rename_i refuses
    simp [refuses]

theorem Worker.up_of_takesWork {wkr : Worker} (takes : wkr.takesWork = true) : wkr.up = true := by
  simp only [Worker.takesWork, Bool.and_eq_true] at takes
  exact takes.1.1

theorem Worker.maxJobs_pos_of_takesWork {wkr : Worker} (takes : wkr.takesWork = true) : 0 < wkr.maxJobs := by
  simp only [Worker.takesWork, Bool.and_eq_true, decide_eq_true_eq] at takes
  exact takes.2

theorem mem_systems_of_offers {wkr : Worker} {ent : Entry} (offered : offers wkr ent = true) :
    ent.system ∈ wkr.systems := by
  simp only [offers, Bool.and_eq_true, List.contains_eq_mem, decide_eq_true_eq] at offered
  exact offered.1

namespace Core

/-- A worker that can take an entry now. -/
def Fits (s : Core) (ent : Entry) (wid : WorkerId) : Prop :=
  ∃ wkr, s.workers[wid]? = some wkr ∧ wkr.HasRoom ∧ offers wkr ent = true

/-- A worker that could take an entry if it had room. -/
def Serves (s : Core) (ent : Entry) (wid : WorkerId) : Prop :=
  ∃ wkr, s.workers[wid]? = some wkr ∧ wkr.takesWork = true ∧ offers wkr ent = true

variable {s : Core} {ent : Entry} {wid : WorkerId} {wkr : Worker}

theorem Fits.serves (fits : s.Fits ent wid) : s.Serves ent wid := by
  obtain ⟨wkr, get_eq, room, offered⟩ := fits
  exact ⟨wkr, get_eq, room.1, offered⟩

theorem placeable_iff : s.placeable ent = true ↔ ∃ wid, s.Serves ent wid := by
  simp only [placeable, List.any_eq_true, Bool.and_eq_true, Serves]
  constructor
  · rintro ⟨wkr, mem, serves⟩
    obtain ⟨wid, get_eq⟩ := List.getElem?_of_mem mem
    exact ⟨wid, wkr, get_eq, serves⟩
  · rintro ⟨wid, wkr, get_eq, serves⟩
    exact ⟨wkr, List.mem_of_getElem? get_eq, serves⟩

/-! ## Scans -/

section MostFree

variable {eligible : WorkerId → Bool} {free : WorkerId → ℤ}

theorem mostFree_eq_some {best : Option WorkerId} {wids : List WorkerId}
    (most_eq : mostFree eligible free best wids = some wid) :
    best = some wid ∨ wid ∈ wids ∧ eligible wid = true := by
  induction wids generalizing best with
  | nil => exact .inl most_eq
  | cons first wids ih =>
    rcases ih most_eq with chosen | ⟨mem, is_eligible⟩
    · split at chosen
      · rename_i better
        obtain rfl : first = wid := Option.some.inj chosen
        exact .inr ⟨List.mem_cons_self, (Bool.and_eq_true_iff.mp better).1⟩
      · exact .inl chosen
    · exact .inr ⟨List.mem_cons_of_mem first mem, is_eligible⟩

theorem mostFree_eq_none {best : Option WorkerId} {wids : List WorkerId}
    (most_eq : mostFree eligible free best wids = none) :
    best = none ∧ ∀ wid ∈ wids, eligible wid = false := by
  induction wids generalizing best with
  | nil => exact ⟨most_eq, by simp⟩
  | cons first wids ih =>
    obtain ⟨kept, rest⟩ := ih most_eq
    split at kept
    · simp at kept
    · rename_i not_better
      subst kept
      refine ⟨rfl, fun wid mem => ?_⟩
      rcases List.mem_cons.mp mem with rfl | mem
      · simpa using not_better
      · exact rest wid mem

end MostFree

theorem isWorker_iff {holds : Worker → Bool} :
    s.isWorker wid holds = true ↔ ∃ wkr, s.workers[wid]? = some wkr ∧ holds wkr = true := by
  simp [isWorker, Option.any_eq_true]

theorem mem_range_of_get (get_eq : s.workers[wid]? = some wkr) : wid ∈ List.range s.workers.length :=
  List.mem_range.mpr (List.getElem?_eq_some_iff.mp get_eq).1

/-! ## Slot counts -/

section Counts

variable (counts : Counts s.workers s.systems.free ∅)

include counts

theorem get_eq_slots (get_eq : s.workers[wid]? = some wkr) {name : String} (listed : name ∈ wkr.systems) :
    ∃ st, s.systems.lookup name = some st ∧ st.free.get wid = wkr.slots := by
  have free_eq := counts.free_eq wid (Set.notMem_empty wid) wkr get_eq name listed
  obtain ⟨st, lookup_eq, value_eq⟩ := Option.bind_eq_some_iff.mp free_eq
  exact ⟨st, lookup_eq, by rw [st.free.get_eq, value_eq, Option.getD_some]⟩

/-- The slots a worker has left, if it lists any system. -/
theorem freeOf_eq (get_eq : s.workers[wid]? = some wkr) (listed : wkr.systems ≠ []) :
    s.freeOf wid = wkr.slots := by
  obtain ⟨native, rest, systems_eq⟩ := List.exists_cons_of_ne_nil listed
  have native_mem : native ∈ wkr.systems := by simp [systems_eq]
  obtain ⟨st, lookup_eq, slots_eq⟩ := get_eq_slots counts get_eq native_mem
  simp [freeOf, get_eq, systems_eq, lookup_eq, slots_eq]

theorem freeOf_pos_iff (get_eq : s.workers[wid]? = some wkr) (offered : offers wkr ent = true) :
    0 < s.freeOf wid ↔ wkr.HasRoom := by
  rw [freeOf_eq counts get_eq (List.ne_nil_of_mem (mem_systems_of_offers offered))]
  exact Worker.slots_pos_iff (counts.maxJobs_le wkr (List.mem_of_getElem? get_eq))

/-- A worker with a free slot in the index of a system lists it and has room. -/
theorem hasRoom_of_value {st : SystemState} {name : String} {val : ℤ}
    (lookup_eq : s.systems.lookup name = some st) (value_eq : st.free.value wid = some val)
    (val_pos : 0 < val) : ∃ wkr, s.workers[wid]? = some wkr ∧ name ∈ wkr.systems ∧ wkr.HasRoom := by
  have free_eq : s.systems.free name wid = some val := by
    rw [Systems.free, lookup_eq, Option.bind_some, value_eq]
  obtain ⟨wkr, get_eq, listed⟩ : ∃ wkr, s.workers[wid]? = some wkr ∧ name ∈ wkr.systems := by
    by_contra none_lists
    have val_zero := counts.unlisted name wid val free_eq fun wkr get_eq listed =>
      none_lists ⟨wkr, get_eq, listed⟩
    exact val_pos.ne' val_zero
  have slots_eq := counts.free_eq wid (Set.notMem_empty wid) wkr get_eq name listed
  rw [free_eq] at slots_eq
  refine ⟨wkr, get_eq, listed, ?_⟩
  rw [← Worker.slots_pos_iff (counts.maxJobs_le wkr (List.mem_of_getElem? get_eq)), ← Option.some.inj slots_eq]
  exact val_pos

/-! ## The paths of `pick` -/

theorem fits_of_emptiestFor (found : s.emptiestFor ent = some wid) : s.Fits ent wid := by
  unfold emptiestFor at found
  split at found
  · simp at found
  · rename_i st lookup_eq
    split at found
    · rename_i plain
      obtain ⟨val, value_eq, val_pos, -⟩ := FreeIndex.emptiest_eq_some found
      obtain ⟨wkr, get_eq, listed, room⟩ := hasRoom_of_value counts lookup_eq value_eq val_pos
      refine ⟨wkr, get_eq, room, ?_⟩
      simp [offers, listed, List.isEmpty_iff.mp plain]
    · obtain ⟨-, is_eligible⟩ := (mostFree_eq_some found).resolve_left (by simp)
      obtain ⟨wkr, get_eq, holds⟩ := isWorker_iff.mp is_eligible
      simp only [Bool.and_eq_true, decide_eq_true_eq] at holds
      obtain ⟨⟨-, val_pos⟩, offered⟩ := holds
      obtain ⟨st', lookup_eq', slots_eq⟩ := get_eq_slots counts get_eq (mem_systems_of_offers offered)
      cases lookup_eq.symm.trans lookup_eq'
      refine ⟨wkr, get_eq, ?_, offered⟩
      rw [← Worker.slots_pos_iff (counts.maxJobs_le wkr (List.mem_of_getElem? get_eq)), ← slots_eq]
      exact val_pos

theorem not_fits_of_emptiestFor (found : s.emptiestFor ent = none) : ¬ s.Fits ent wid := by
  rintro ⟨wkr, get_eq, room, offered⟩
  have listed := mem_systems_of_offers offered
  obtain ⟨st, lookup_eq, slots_eq⟩ := get_eq_slots counts get_eq listed
  have slots_pos : 0 < st.free.get wid := by
    rw [slots_eq]
    exact (Worker.slots_pos_iff (counts.maxJobs_le wkr (List.mem_of_getElem? get_eq))).mpr room
  unfold emptiestFor at found
  rw [lookup_eq] at found
  simp only at found
  split at found
  · rw [FreeIndex.emptiest_eq_none_iff] at found
    rw [st.free.get_eq] at slots_pos
    cases value_eq : st.free.value wid with
    | none => simp [value_eq] at slots_pos
    | some val =>
      rw [value_eq, Option.getD_some] at slots_pos
      exact absurd slots_pos (not_lt.mpr (found wid val value_eq))
  · have refused := (mostFree_eq_none found).2 wid (mem_range_of_get get_eq)
    rw [Bool.eq_false_iff] at refused
    apply refused
    rw [isWorker_iff]
    refine ⟨wkr, get_eq, ?_⟩
    simp [Worker.up_of_takesWork room.1, slots_pos, offered]

omit counts in
theorem isOther_iff : s.isOther ent wid = true ↔ some wid ≠ ent.avoid ∧ s.Serves ent wid := by
  simp [isOther, isWorker_iff, Serves]

theorem fits_of_isOther (other : s.isOther ent wid = true) (free_pos : 0 < s.freeOf wid) :
    s.Fits ent wid := by
  obtain ⟨-, wkr, get_eq, -, offered⟩ := isOther_iff.mp other
  exact ⟨wkr, get_eq, (freeOf_pos_iff counts get_eq offered).mp free_pos, offered⟩

/-- The scan that avoids a worker finds another one that fits, or falls back to the avoided worker
if no other could ever take the entry. -/
theorem avoiding_eq_some (found : s.avoiding ent = some wid) :
    some wid ≠ ent.avoid ∧ s.Fits ent wid ∨
      some wid = ent.avoid ∧ ∀ other, some other ≠ ent.avoid → ¬ s.Serves ent other := by
  unfold avoiding at found
  simp only at found
  split at found
  · obtain ⟨-, is_eligible⟩ := (mostFree_eq_some found).resolve_left (by simp)
    simp only [Bool.and_eq_true, decide_eq_true_eq] at is_eligible
    exact .inl ⟨(isOther_iff.mp is_eligible.1).1, fits_of_isOther counts is_eligible.1 is_eligible.2⟩
  · rename_i alone
    refine .inr ⟨found.symm, fun other other_ne serves => alone ?_⟩
    obtain ⟨wkr, get_eq, -⟩ := id serves
    rw [Bool.or_eq_true]
    exact .inr (List.any_eq_true.mpr ⟨other, mem_range_of_get get_eq, isOther_iff.mpr ⟨other_ne, serves⟩⟩)

theorem avoiding_eq_none (found : s.avoiding ent = none) (avoids : ent.avoid.isSome) :
    (∀ other, some other ≠ ent.avoid → ¬ s.Fits ent other) ∧
      ∃ other, some other ≠ ent.avoid ∧ s.Serves ent other := by
  unfold avoiding at found
  simp only at found
  split at found
  · rename_i others
    rw [found, Option.isSome_none, Bool.false_or, List.any_eq_true] at others
    obtain ⟨other, -, is_other⟩ := others
    refine ⟨fun wid wid_ne fits => ?_, other, isOther_iff.mp is_other⟩
    obtain ⟨wkr, get_eq, room, offered⟩ := id fits
    have refused := (mostFree_eq_none found).2 wid (mem_range_of_get get_eq)
    have free_pos := (freeOf_pos_iff counts get_eq offered).mpr room
    have is_wid : s.isOther ent wid = true := isOther_iff.mpr ⟨wid_ne, fits.serves⟩
    simp [is_wid, free_pos] at refused
  · simp [found] at avoids

theorem fits_of_isCandidate (cand : s.isCandidate ent wid = true) :
    some wid ≠ ent.avoid ∧ s.Fits ent wid := by
  simp only [isCandidate, Bool.and_eq_true, decide_eq_true_eq, isWorker_iff] at cand
  obtain ⟨wid_ne, wkr, get_eq, ⟨-, free_pos⟩, offered⟩ := cand
  exact ⟨wid_ne, wkr, get_eq, (freeOf_pos_iff counts get_eq offered).mp free_pos, offered⟩

omit counts in
theorem mem_credit {size total : ℚ} {other : WorkerId} {cands : List (WorkerId × ℚ)}
    (mem : (other, total) ∈ credit wid size cands) : other = wid ∨ ∃ old, (other, old) ∈ cands := by
  induction cands with
  | nil =>
    rw [credit, List.mem_singleton] at mem
    exact .inl (congrArg Prod.fst mem)
  | cons cand cands ih =>
    obtain ⟨first, old⟩ := cand
    rw [credit] at mem
    split at mem
    · rename_i same
      rcases List.mem_cons.mp mem with head | mem
      · exact .inl ((congrArg Prod.fst head).trans same)
      · exact .inr ⟨total, List.mem_cons_of_mem _ mem⟩
    · rcases List.mem_cons.mp mem with head | mem
      · obtain ⟨rfl, -⟩ := Prod.mk.inj head
        exact .inr ⟨old, List.mem_cons_self⟩
      · rcases ih mem with same | ⟨prev, mem⟩
        · exact .inl same
        · exact .inr ⟨prev, List.mem_cons_of_mem _ mem⟩

omit counts in
theorem isCandidate_of_mem_addCandidate {cands : List (WorkerId × ℚ)} {input : PathKey}
    (all : ∀ cand ∈ cands, s.isCandidate ent cand.1 = true) :
    ∀ cand ∈ s.addCandidate ent cands input, s.isCandidate ent cand.1 = true := by
  intro cand mem
  unfold addCandidate at mem
  split at mem
  · exact all cand mem
  · split at mem
    · rename_i is_cand
      rcases mem_credit mem with same | ⟨old, mem⟩
      · exact same ▸ is_cand
      · exact all (cand.1, old) mem
    · exact all cand mem

omit counts in
/-- Locality looks at workers only that may take the entry. -/
theorem isCandidate_of_mem {total : ℚ} (mem : (wid, total) ∈ s.candidates ent) :
    s.isCandidate ent wid = true := by
  have all : ∀ cand ∈ s.candidates ent, s.isCandidate ent cand.1 = true :=
    List.foldlRecOn (motive := fun cands => ∀ cand ∈ cands, s.isCandidate ent cand.1 = true)
      ent.inputs (s.addCandidate ent) (by simp) fun _ all _ _ => isCandidate_of_mem_addCandidate all
  exact all (wid, total) mem

omit counts in
theorem preferred_cases (s : Core) (best picked : WorkerId) (bestScore : ℚ) (cands : List (WorkerId × ℚ)) :
    s.preferred best picked bestScore cands = picked ∨
      ∃ total, (s.preferred best picked bestScore cands, total) ∈ cands := by
  induction cands generalizing picked bestScore with
  | nil => exact .inl rfl
  | cons cand cands ih =>
    obtain ⟨wid, size⟩ := cand
    rw [preferred]
    split
    · rcases ih wid (s.score best wid size) with same | ⟨total, mem⟩
      · exact .inr ⟨size, by rw [same]; exact List.mem_cons_self⟩
      · exact .inr ⟨total, List.mem_cons_of_mem _ mem⟩
    · rcases ih picked bestScore with same | ⟨total, mem⟩
      · exact .inl same
      · exact .inr ⟨total, List.mem_cons_of_mem _ mem⟩

/-- The picked worker fits, and it is the avoided one only if no other could take the entry. -/
theorem pick_eq_some (picked : s.pick ent = some wid) :
    s.Fits ent wid ∧
      (some wid = ent.avoid → ∀ other, some other ≠ ent.avoid → ¬ s.Serves ent other) := by
  unfold pick at picked
  simp only at picked
  obtain ⟨best, best_eq, preferred_eq⟩ := Option.map_eq_some_iff.mp picked
  rcases preferred_cases s best best (s.score best best 0) (s.candidates ent) with same | ⟨total, mem⟩
  · rw [preferred_eq] at same
    subst same
    split at best_eq
    · rename_i avoided
      rcases avoiding_eq_some counts best_eq with ⟨wid_ne, fits⟩ | ⟨wid_eq, alone⟩
      · exact ⟨fits, fun same => absurd same wid_ne⟩
      · refine ⟨fits_of_emptiestFor counts ?_, fun _ => alone⟩
        rw [avoided.2, wid_eq]
    · rename_i not_avoided
      refine ⟨fits_of_emptiestFor counts best_eq, fun same => absurd ?_ not_avoided⟩
      exact ⟨by simp [best_eq], best_eq.trans same⟩
  · rw [preferred_eq] at mem
    obtain ⟨wid_ne, fits⟩ := fits_of_isCandidate counts (isCandidate_of_mem mem)
    exact ⟨fits, fun same => absurd same wid_ne⟩

/-- If no worker is picked, only the avoided one may fit, and only while another could take the
entry once it has room. -/
theorem pick_eq_none (picked : s.pick ent = none) (fits : s.Fits ent wid) :
    some wid = ent.avoid ∧ ∃ other ≠ wid, s.Serves ent other := by
  unfold pick at picked
  simp only [Option.map_eq_none_iff] at picked
  split at picked
  · rename_i avoided
    have avoids : ent.avoid.isSome := avoided.2 ▸ avoided.1
    obtain ⟨no_other, other, other_ne, serves⟩ := avoiding_eq_none counts picked avoids
    have wid_eq : some wid = ent.avoid := by
      by_contra wid_ne
      exact no_other wid wid_ne fits
    exact ⟨wid_eq, other, fun same => other_ne (same ▸ wid_eq), serves⟩
  · exact absurd fits (not_fits_of_emptiestFor counts picked)

end Counts

end Core

end NixGrpcStore.Sched
