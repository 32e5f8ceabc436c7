import NixGrpcStore.Builder.Model
import NixGrpcStore.Lib.Tally

/-!
# One owner per build

A row of the table that runs was claimed, and whatever takes rows away, for a Revoke, a timeout or a
drain, leaves alone what was claimed or runs.  So the call that was admitted first owns its row until
its own `finished`, later callers attach to its build, and it reports once.
-/

namespace NixGrpcStore.Builder

open Tally (lt_length)

open AList (lookup_erase lookup_erase_ne lookup_insert lookup_insert_ne)
open List (append_nil getElem?_set_ne getElem?_set_self mem_append mem_of_getElem? mem_singleton)
open Remote

variable {opts : Options} {b b' : Builder} {w w' : Bench} {path : String} {ent : Expected}

/-! ## The table -/

theorem lookup_keepOnly {keep : Expected → Bool} {table : Table} :
    (keepOnly keep table).lookup path = some ent ↔ table.lookup path = some ent ∧ keep ent = true := by
  rw [← Option.mem_def, AList.mem_lookup_iff, ← Option.mem_def, AList.mem_lookup_iff]
  exact List.mem_filter

/-- What most sections do: rows that run stay, other rows come and go, and no result is published. -/
structure Tends (b b' : Builder) : Prop where
  running : ∀ path ent, b.expected.lookup path = some ent → ent.claimed = true → ent.running = true →
    b'.expected.lookup path = some ent
  rows : ∀ path new, b'.expected.lookup path = some new →
    (∃ ent, b.expected.lookup path = some ent ∧ new.shared = ent.shared ∧ new.running = ent.running ∧
      (ent.claimed = true → new.claimed = true)) ∨
    b.expected.lookup path = none ∧ new.running = false ∧ new.shared = b.shareds.length ∧
      b.shareds.length < b'.shareds.length
  single : ∀ path other new row, b.expected.lookup path = none → b.expected.lookup other = none →
    b'.expected.lookup path = some new → b'.expected.lookup other = some row → path = other
  kept : ∀ (sid : SharedId) (shared : Shared), b.shareds[sid]? = some shared →
    ∃ new : Shared, b'.shareds[sid]? = some new ∧ new.finished = shared.finished ∧ new.resultWire = shared.resultWire
  fresh : ∀ (sid : SharedId) (new : Shared), b'.shareds[sid]? = some new → b.shareds.length ≤ sid →
    new.finished = false ∧ new.resultWire = ""

theorem tends_of_rows {expected : Table}
    (running : ∀ path ent, b.expected.lookup path = some ent → ent.claimed = true → ent.running = true →
      expected.lookup path = some ent)
    (rows : ∀ path new, expected.lookup path = some new →
      ∃ ent, b.expected.lookup path = some ent ∧ new.shared = ent.shared ∧ new.running = ent.running ∧
        (ent.claimed = true → new.claimed = true)) : Tends b { b with expected } where
  running := running
  rows path new found := .inl (rows path new found)
  single path _ new _ absent _ found _ := by
    obtain ⟨ent, old, -⟩ := rows path new found
    cases absent.symm.trans old
  kept _ shared found := ⟨shared, found, rfl, rfl⟩
  fresh _ _ found length_le := absurd (lt_length found) (not_lt.mpr length_le)

theorem Tends.refl (b : Builder) : Tends b b :=
  tends_of_rows (fun _ _ found _ _ => found) fun _ new found => ⟨new, found, rfl, rfl, id⟩

theorem tends_flag (b : Builder) (draining : Bool) : Tends b { b with draining } := { Tends.refl b with }

/-- A row is replaced by one for the same build. -/
theorem tends_insert {new : Expected} (found : b.expected.lookup path = some ent)
    (kept : ent.claimed = true → ent.running = true → new = ent) (shared_eq : new.shared = ent.shared)
    (running_eq : new.running = ent.running) (claimed : ent.claimed = true → new.claimed = true) :
    Tends b { b with expected := b.expected.insert path new } := by
  refine tends_of_rows (fun other row other_found is_claimed is_running => ?_) fun other row other_found => ?_
  · by_cases same : other = path
    · subst same
      cases found.symm.trans other_found
      rw [lookup_insert, kept is_claimed is_running]
    · rwa [lookup_insert_ne same]
  · by_cases same : other = path
    · subst same
      rw [lookup_insert] at other_found
      cases other_found
      exact ⟨ent, found, shared_eq, running_eq, claimed⟩
    · rw [lookup_insert_ne same] at other_found
      exact ⟨row, other_found, rfl, rfl, id⟩

theorem tends_expect (drvPath : String) (assignId : ℕ) (now : ℚ) (b : Builder) :
    Tends b (b.expect drvPath assignId now) := by
  unfold expect
  cases found : b.expected.lookup drvPath with
  | none =>
    refine ⟨fun other row other_found _ _ => ?_, fun other row other_found => ?_,
      fun path other new row absent other_absent path_found other_found => ?_, fun sid shared known => ?_,
      fun sid shared known length_le => ?_⟩
    · have other_ne : other ≠ drvPath := by
        rintro rfl
        cases found.symm.trans other_found
      rwa [lookup_insert_ne other_ne]
    · by_cases same : other = drvPath
      · subst same
        rw [lookup_insert] at other_found
        cases other_found
        exact .inr ⟨found, rfl, rfl, by simp⟩
      · rw [lookup_insert_ne same] at other_found
        exact .inl ⟨row, other_found, rfl, rfl, id⟩
    · have is_path : ∀ path row, b.expected.lookup path = none → (b.expected.insert drvPath
          { assignId, since := now, shared := b.shareds.length }).lookup path = some row → path = drvPath := by
        intro path row absent found
        by_contra path_ne
        rw [lookup_insert_ne path_ne, absent] at found
        cases found
      exact (is_path path new absent path_found).trans (is_path other row other_absent other_found).symm
    · have sid_lt := lt_length known
      exact ⟨shared, by rw [List.getElem?_append_left sid_lt, known], rfl, rfl⟩
    · rw [List.getElem?_append_right length_le] at known
      obtain ⟨-, rfl⟩ : sid - b.shareds.length = 0 ∧ {} = shared := by
        simpa [List.getElem?_singleton] using known
      exact ⟨rfl, rfl⟩
  | some ent =>
    dsimp only
    split_ifs with claimed
    · exact Tends.refl b
    · exact tends_insert found (fun is_claimed => absurd is_claimed claimed) rfl rfl
        fun is_claimed => absurd is_claimed claimed

theorem tends_claim (drvPath : String) (b : Builder) : Tends b (b.claim drvPath) := by
  unfold claim
  cases found : b.expected.lookup drvPath with
  | none => exact Tends.refl b
  | some ent =>
    refine tends_insert found (fun is_claimed _ => ?_) rfl rfl fun _ => rfl
    obtain ⟨assignId, since, claimed, running, shared⟩ := ent
    cases is_claimed
    rfl

theorem tends_erase (found : b.expected.lookup path = some ent) (idle : ent.running = false) :
    Tends b { b with expected := b.expected.erase path } := by
  refine tends_of_rows (fun other row other_found _ running => ?_) fun other row other_found => ?_
  · have other_ne : other ≠ path := by
      rintro rfl
      cases found.symm.trans other_found
      cases idle.symm.trans running
    rwa [lookup_erase_ne other_ne]
  · have other_ne : other ≠ path := by
      rintro rfl
      rw [lookup_erase] at other_found
      cases other_found
    rw [lookup_erase_ne other_ne] at other_found
    exact ⟨row, other_found, rfl, rfl, id⟩

theorem tends_revoke (drvPath : String) (b : Builder) : Tends b (b.revoke drvPath).2 := by
  unfold revoke
  cases found : b.expected.lookup drvPath with
  | none => exact Tends.refl b
  | some ent =>
    dsimp only
    split_ifs with running
    · refine ⟨fun _ _ found _ _ => found, fun _ row found => .inl ⟨row, found, rfl, rfl, id⟩,
        fun path _ _ _ absent _ found _ => ?_, fun sid shared known => ?_, fun sid shared known length_le => ?_⟩
      · cases absent.symm.trans found
      · by_cases same : ent.shared = sid
        · subst same
          exact ⟨{ shared with revoked := true }, by simp [known], rfl, rfl⟩
        · exact ⟨shared, by simp [same, known], rfl, rfl⟩
      · have sid_lt := lt_length known
        rw [List.length_modify] at sid_lt
        exact absurd sid_lt (not_lt.mpr length_le)
    · exact tends_erase found (Bool.eq_false_iff.mpr running)

theorem tends_takeUnclaimed (pred : Expected → Bool) (b : Builder) : Tends b (b.takeUnclaimed pred).2 := by
  refine tends_of_rows (fun other row found claimed _ => ?_) fun other row found => ?_
  · exact lookup_keepOnly.mpr ⟨found, by simp [claimed]⟩
  · exact ⟨row, (lookup_keepOnly.mp found).1, rfl, rfl, id⟩

theorem tends_next (now : ℚ) (b : Builder) (task : Task) : Tends b (task.next now b).1 := by
  cases task with
  | expect drvPath assignId => exact tends_expect drvPath assignId now b
  | takeAll => exact tends_takeUnclaimed _ b
  | expire draining now => exact tends_takeUnclaimed _ b
  | say msgs =>
    cases msgs with
    | nil => exact Tends.refl b
    | cons msg msgs => exact Tends.refl b
  | announce draining => exact Tends.refl b
  | greet hel => exact Tends.refl b
  | greeted => exact Tends.refl b

/-! ## Owners -/

/-- The result that an owner has published. -/
def Phase.result : Phase → Option String
  | .published wire _ => some wire
  | .reported wire _ => some wire
  | _ => none

/-- The Done of an owner is for its own assignment, and it publishes to its own build. -/
def Owner.Faithful (owner : Owner) : Prop :=
  match owner.phase with
  | .building => True
  | .taken shared _ done =>
    shared = some owner.shared ∧ done.drvPath = owner.drvPath ∧ done.assignId = owner.assignId
  | .published _ done => done.drvPath = owner.drvPath ∧ done.assignId = owner.assignId
  | .reported _ done => done.drvPath = owner.drvPath ∧ done.assignId = owner.assignId

/-- Rows, shared builds and owners fit together. -/
structure Sound (w : Bench) : Prop where
  claimed : ∀ path ent, w.builder.expected.lookup path = some ent → ent.running = true → ent.claimed = true
  bound : ∀ path ent, w.builder.expected.lookup path = some ent → ent.shared < w.builder.shareds.length
  apart : ∀ path other ent row, w.builder.expected.lookup path = some ent →
    w.builder.expected.lookup other = some row → ent.shared = row.shared → path = other
  owned : ∀ path ent, w.builder.expected.lookup path = some ent → ent.running = true →
    ∃ owner ∈ w.owners, owner.phase = .building ∧ owner.drvPath = path
  unowned : ∀ path ent, w.builder.expected.lookup path = some ent → ent.running = false →
    ∀ owner ∈ w.owners, owner.shared ≠ ent.shared
  blank : ∀ path ent, w.builder.expected.lookup path = some ent → ent.running = false →
    ∃ shared : Shared, w.builder.shareds[ent.shared]? = some shared ∧ shared.finished = false
  holds : ∀ owner ∈ w.owners, owner.phase = .building → ∃ ent,
    w.builder.expected.lookup owner.drvPath = some ent ∧ ent.running = true ∧ ent.shared = owner.shared ∧
      ent.assignId = owner.assignId
  once : w.owners.Pairwise fun owner other => owner.shared ≠ other.shared
  faithful : ∀ owner ∈ w.owners, owner.Faithful
  results : ∀ owner ∈ w.owners, ∃ shared : Shared, w.builder.shareds[owner.shared]? = some shared ∧
    shared.finished = owner.phase.result.isSome ∧ ∀ wire, owner.phase.result = some wire → shared.resultWire = wire

theorem Tends.length_le (tends : Tends b b') : b.shareds.length ≤ b'.shareds.length := by
  by_contra shorter
  have last_lt : b'.shareds.length < b.shareds.length := not_le.mp shorter
  obtain ⟨new, found, -⟩ := tends.kept b'.shareds.length _ (List.getElem?_eq_getElem last_lt)
  exact lt_irrefl _ (lt_length found)

section Steps

variable (sound : Sound w)
include sound

theorem Sound.tends (tends : Tends w.builder b') {tasks : List Task} :
    Sound { w with builder := b', tasks } where
  claimed path new found running := by
    rcases tends.rows path new found with ⟨ent, old, -, running_eq, claimed⟩ | ⟨-, idle, -⟩
    · exact claimed (sound.claimed path ent old (running_eq ▸ running))
    · cases idle.symm.trans running
  bound path new found := by
    rcases tends.rows path new found with ⟨ent, old, shared_eq, -⟩ | ⟨-, -, shared_eq, longer⟩
    · exact shared_eq ▸ (sound.bound path ent old).trans_le tends.length_le
    · exact shared_eq ▸ longer
  apart path other new row found other_found same := by
    rcases tends.rows path new found with ⟨ent, old, shared_eq, -⟩ | ⟨absent, -, shared_eq, -⟩
    · rcases tends.rows other row other_found with ⟨ent', old', shared_eq', -⟩ | ⟨-, -, shared_eq', -⟩
      · exact sound.apart path other ent ent' old old' (by rw [← shared_eq, ← shared_eq', same])
      · exact absurd (sound.bound path ent old) (by rw [← shared_eq, same, shared_eq']; exact lt_irrefl _)
    · rcases tends.rows other row other_found with ⟨ent', old', shared_eq', -⟩ | ⟨absent', -⟩
      · exact absurd (sound.bound other ent' old') (by rw [← shared_eq', ← same, shared_eq]; exact lt_irrefl _)
      · exact tends.single path other new row absent absent' found other_found
  owned path new found running := by
    rcases tends.rows path new found with ⟨ent, old, -, running_eq, -⟩ | ⟨-, idle, -⟩
    · exact sound.owned path ent old (running_eq ▸ running)
    · cases idle.symm.trans running
  unowned path new found idle owner mem := by
    rcases tends.rows path new found with ⟨ent, old, shared_eq, running_eq, -⟩ | ⟨-, -, shared_eq, -⟩
    · exact shared_eq ▸ sound.unowned path ent old (running_eq ▸ idle) owner mem
    · obtain ⟨shared, known, -⟩ := sound.results owner mem
      exact shared_eq ▸ (lt_length known).ne
  blank path new found idle := by
    rcases tends.rows path new found with ⟨ent, old, shared_eq, running_eq, -⟩ | ⟨-, -, shared_eq, longer⟩
    · obtain ⟨shared, known, unfinished⟩ := sound.blank path ent old (running_eq ▸ idle)
      obtain ⟨new', new_known, finished_eq, -⟩ := tends.kept _ shared known
      exact ⟨new', shared_eq ▸ new_known, finished_eq.trans unfinished⟩
    · refine ⟨_, by rw [shared_eq]; exact List.getElem?_eq_getElem longer, ?_⟩
      exact (tends.fresh _ _ (List.getElem?_eq_getElem longer) le_rfl).1
  holds owner mem building := by
    obtain ⟨ent, found, running, same⟩ := sound.holds owner mem building
    exact ⟨ent, tends.running _ ent found (sound.claimed _ ent found running) running, running, same⟩
  once := sound.once
  faithful := sound.faithful
  results owner mem := by
    obtain ⟨shared, known, finished_eq, wire_eq⟩ := sound.results owner mem
    obtain ⟨new, new_known, new_finished, new_wire⟩ := tends.kept owner.shared shared known
    exact ⟨new, new_known, new_finished.trans finished_eq, fun wire result => new_wire.trans (wire_eq wire result)⟩

/-- Two owners of one shared build are one. -/
theorem Sound.owner_unique {i j : ℕ} {owner other : Owner} (at_i : w.owners[i]? = some owner)
    (at_j : w.owners[j]? = some other) (same : owner.shared = other.shared) : i = j := by
  obtain ⟨i_lt, rfl⟩ := List.getElem?_eq_some_iff.mp at_i
  obtain ⟨j_lt, rfl⟩ := List.getElem?_eq_some_iff.mp at_j
  rcases lt_trichotomy i j with less | equal | more
  · exact absurd same (List.pairwise_iff_getElem.mp sound.once i j i_lt j_lt less)
  · exact equal
  · exact absurd same.symm (List.pairwise_iff_getElem.mp sound.once j i j_lt i_lt more)

/-- Owners that are building the same derivation are one. -/
theorem Sound.building_unique {i j : ℕ} {owner other : Owner} (at_i : w.owners[i]? = some owner)
    (at_j : w.owners[j]? = some other) (building : owner.phase = .building)
    (building' : other.phase = .building) (same : owner.drvPath = other.drvPath) : i = j := by
  obtain ⟨ent, found, -, shared_eq, -⟩ := sound.holds owner (mem_of_getElem? at_i) building
  obtain ⟨row, found', -, shared_eq', -⟩ := sound.holds other (mem_of_getElem? at_j) building'
  rw [← same, found] at found'
  cases found'
  exact sound.owner_unique at_i at_j (shared_eq.symm.trans shared_eq')

/-- An owner goes on to another phase, and the table and the shared builds with it. -/
theorem Sound.advance {i : ℕ} {owner : Owner} (at_i : w.owners[i]? = some owner) {phase : Phase}
    {b' : Builder} (not_building : phase ≠ .building)
    (rows : ∀ path ent, b'.expected.lookup path = some ent → w.builder.expected.lookup path = some ent)
    (others : ∀ path ent, w.builder.expected.lookup path = some ent → ent.shared ≠ owner.shared →
      b'.expected.lookup path = some ent)
    (gone : ∀ path ent, b'.expected.lookup path = some ent → ent.running = true → ent.shared ≠ owner.shared)
    (length_eq : b'.shareds.length = w.builder.shareds.length)
    (faithful : ({ owner with phase } : Owner).Faithful)
    (own : ∃ shared : Shared, b'.shareds[owner.shared]? = some shared ∧ shared.finished = phase.result.isSome ∧
      ∀ wire, phase.result = some wire → shared.resultWire = wire)
    (elsewhere : ∀ sid, sid ≠ owner.shared → b'.shareds[sid]? = w.builder.shareds[sid]?) :
    Sound { w with builder := b', owners := w.owners.set i { owner with phase } } := by
  have i_lt := lt_length at_i
  have same_shared : (w.owners.set i { owner with phase }).map Owner.shared = w.owners.map Owner.shared :=
    Tally.map_set_of_eq Owner.shared at_i rfl
  have mem_cases : ∀ other ∈ w.owners.set i { owner with phase },
      other = { owner with phase } ∨ other ∈ w.owners ∧ other.shared ≠ owner.shared := by
    intro other mem
    obtain ⟨j, at_j⟩ := List.getElem?_of_mem mem
    rcases Tally.set_cases at_j with ⟨-, is_new⟩ | ⟨differs, at_j⟩
    · exact .inl is_new
    · exact .inr ⟨mem_of_getElem? at_j, fun equal => differs (sound.owner_unique at_j at_i equal)⟩
  refine ⟨fun path ent found => sound.claimed path ent (rows path ent found), fun path ent found => ?_,
    fun path other ent row found found' => sound.apart path other ent row (rows _ _ found) (rows _ _ found'),
    fun path ent found running => ?_, fun path ent found idle other mem => ?_, fun path ent found idle => ?_,
    fun other mem building => ?_, ?_, fun other mem => ?_, fun other mem => ?_⟩
  · exact length_eq ▸ sound.bound path ent (rows path ent found)
  · obtain ⟨other, mem, building, is_path⟩ := sound.owned path ent (rows path ent found) running
    obtain ⟨row, row_found, -, shared_eq, -⟩ := sound.holds other mem building
    rw [is_path, rows path ent found] at row_found
    cases row_found
    obtain ⟨j, at_j⟩ := List.getElem?_of_mem mem
    refine ⟨other, mem_of_getElem? (getElem?_set_ne ?_ ▸ at_j), building, is_path⟩
    rintro rfl
    cases at_i.symm.trans at_j
    exact gone path ent found running shared_eq
  · have old : other.shared ∈ w.owners.map Owner.shared := same_shared ▸ List.mem_map_of_mem mem
    obtain ⟨owner', mem', shared_eq⟩ := List.mem_map.mp old
    exact shared_eq ▸ sound.unowned path ent (rows path ent found) idle owner' mem'
  · obtain ⟨shared, known, unfinished⟩ := sound.blank path ent (rows path ent found) idle
    have other_ne := sound.unowned path ent (rows path ent found) idle owner (mem_of_getElem? at_i)
    exact ⟨shared, by rw [elsewhere _ other_ne.symm, known], unfinished⟩
  · rcases mem_cases other mem with rfl | ⟨old, other_ne⟩
    · exact absurd building not_building
    · obtain ⟨ent, found, running, shared_eq, id_eq⟩ := sound.holds other old building
      exact ⟨ent, others _ ent found (shared_eq ▸ other_ne), running, shared_eq, id_eq⟩
  · rw [← List.pairwise_map, same_shared, List.pairwise_map]
    exact sound.once
  · rcases mem_cases other mem with rfl | ⟨old, -⟩
    · exact faithful
    · exact sound.faithful other old
  · rcases mem_cases other mem with rfl | ⟨old, other_ne⟩
    · exact own
    · obtain ⟨shared, known, same⟩ := sound.results other old
      exact ⟨shared, by rw [elsewhere _ other_ne, known], same⟩

/-- A caller is admitted to a row that does not run: it becomes the owner. -/
theorem Sound.own (found : w.builder.expected.lookup path = some ent) (idle : ent.running = false) :
    Sound
      { w with
        builder :=
          { w.builder with
            expected := w.builder.expected.insert path { ent with claimed := true, running := true } }
        owners := w.owners ++ [{ drvPath := path, shared := ent.shared, assignId := ent.assignId }] } := by
  have rows : ∀ other row, (w.builder.expected.insert path { ent with claimed := true, running := true }).lookup other =
      some row → other = path ∧ row = { ent with claimed := true, running := true } ∨
        other ≠ path ∧ w.builder.expected.lookup other = some row := by
    intro other row row_found
    by_cases same : other = path
    · subst same
      rw [lookup_insert] at row_found
      exact .inl ⟨rfl, (Option.some.inj row_found).symm⟩
    · rw [lookup_insert_ne same] at row_found
      exact .inr ⟨same, row_found⟩
  have old_row : ∀ other row, w.builder.expected.lookup other = some row → row.shared = ent.shared → other = path :=
    fun other row row_found => sound.apart other path row ent row_found found
  refine ⟨fun other row row_found running => ?_, fun other row row_found => ?_,
    fun other third row row' row_found row_found' same => ?_, fun other row row_found running => ?_,
    fun other row row_found row_idle owner mem => ?_, fun other row row_found row_idle => ?_,
    fun owner mem building => ?_, ?_, fun owner mem => ?_, fun owner mem => ?_⟩
  · rcases rows other row row_found with ⟨-, rfl⟩ | ⟨-, old⟩
    · rfl
    · exact sound.claimed other row old running
  · rcases rows other row row_found with ⟨-, rfl⟩ | ⟨-, old⟩
    · exact sound.bound path ent found
    · exact sound.bound other row old
  · rcases rows other row row_found with ⟨rfl, rfl⟩ | ⟨other_ne, old⟩
    · rcases rows third row' row_found' with ⟨rfl, -⟩ | ⟨third_ne, old'⟩
      · rfl
      · exact absurd (old_row third row' old' same.symm) third_ne
    · rcases rows third row' row_found' with ⟨rfl, rfl⟩ | ⟨-, old'⟩
      · exact absurd (old_row other row old same) other_ne
      · exact sound.apart other third row row' old old' same
  · rcases rows other row row_found with ⟨rfl, -⟩ | ⟨-, old⟩
    · exact ⟨_, List.mem_append_right _ (List.mem_singleton_self _), rfl, rfl⟩
    · obtain ⟨owner, mem, held⟩ := sound.owned other row old running
      exact ⟨owner, List.mem_append_left _ mem, held⟩
  · rcases rows other row row_found with ⟨-, rfl⟩ | ⟨other_ne, old⟩
    · cases row_idle
    · rcases mem_append.mp mem with known | new
      · exact sound.unowned other row old row_idle owner known
      · rw [mem_singleton.mp new]
        exact fun same => other_ne (old_row other row old same.symm)
  · rcases rows other row row_found with ⟨-, rfl⟩ | ⟨-, old⟩
    · cases row_idle
    · exact sound.blank other row old row_idle
  · rcases mem_append.mp mem with known | new
    · obtain ⟨row, row_found, running, shared_eq, id_eq⟩ := sound.holds owner known building
      have other_ne : owner.drvPath ≠ path := by
        intro same
        rw [same, found] at row_found
        cases row_found
        cases idle.symm.trans running
      exact ⟨row, by rw [lookup_insert_ne other_ne, row_found], running, shared_eq, id_eq⟩
    · rw [mem_singleton.mp new]
      exact ⟨_, lookup_insert _, rfl, rfl, rfl⟩
  · refine List.pairwise_append.mpr ⟨sound.once, List.pairwise_singleton _ _, fun owner mem other new => ?_⟩
    rw [mem_singleton.mp new]
    exact sound.unowned path ent found idle owner mem
  · rcases mem_append.mp mem with known | new
    · exact sound.faithful owner known
    · rw [mem_singleton.mp new]
      trivial
  · rcases mem_append.mp mem with known | new
    · exact sound.results owner known
    · rw [mem_singleton.mp new]
      obtain ⟨shared, known, unfinished⟩ := sound.blank path ent found idle
      exact ⟨shared, known, unfinished, fun wire result => by cases result⟩

theorem Sound.admission (drvPath : String) :
    ∃ w', Act.perform opts w (.admission drvPath) = some (w', []) ∧ Sound w' := by
  simp only [Act.perform, Builder.admission]
  cases found : w.builder.expected.lookup drvPath with
  | none => exact ⟨_, rfl, by simpa using sound⟩
  | some ent =>
    cases running : ent.running with
    | true =>
      have claimed := sound.claimed drvPath ent found running
      have tends : Tends w.builder
          { w.builder with
            expected := w.builder.expected.insert drvPath { ent with claimed := true, running := true } } := by
        refine tends_insert found (fun _ _ => ?_) rfl running.symm fun _ => rfl
        obtain ⟨assignId, since, is_claimed, is_running, shared⟩ := ent
        cases claimed
        cases running
        rfl
      exact ⟨_, rfl, by simpa [Option.filter, running] using sound.tends tends⟩
    | false => exact ⟨_, rfl, by simpa [Option.filter, running] using sound.own found running⟩

end Steps

/-- The Done that an owner should send. -/
def Owner.doneFor (owner : Owner) (outcome : Outcome) (outputs : List (String × ℕ)) (reason : Reason) : Done where
  drvPath := owner.drvPath
  assignId := owner.assignId
  outcome
  outputs
  reason

/-- The table section of `finished`. -/
theorem Sound.finish (sound : Sound w) {i : ℕ} {owner : Owner} (at_i : w.owners[i]? = some owner)
    (building : owner.phase = .building) (outcome : Outcome) (outputs : List (String × ℕ)) (wire : String)
    (reason : Reason) :
    ∃ w', Act.perform opts w (.finished i outcome outputs wire reason) = some (w', []) ∧ Sound w' ∧
      w'.owners = w.owners.set i
        { owner with phase := .taken (some owner.shared) wire (owner.doneFor outcome outputs reason) } := by
  obtain ⟨ent, found, running, shared_eq, id_eq⟩ := sound.holds owner (mem_of_getElem? at_i) building
  obtain ⟨shared, known, unfinished, -⟩ := sound.results owner (mem_of_getElem? at_i)
  refine ⟨_, by simp only [Act.perform, at_i, building]; rfl, ?_, ?_⟩
  · have taken : doneOf owner.drvPath (some ent) outcome outputs reason = owner.doneFor outcome outputs reason := by
      simp [doneOf, Owner.doneFor, id_eq]
    simp only [take, found, Option.map_some, shared_eq, taken]
    refine sound.advance at_i (by simp) (fun other row row_found => ?_) (fun other row row_found other_ne => ?_)
      (fun other row row_found running => ?_) rfl ⟨rfl, rfl, rfl⟩ ⟨shared, known, ?_, by simp [Phase.result]⟩
      fun _ _ => rfl
    · have other_ne : other ≠ owner.drvPath := by
        rintro rfl
        rw [lookup_erase] at row_found
        cases row_found
      rwa [lookup_erase_ne other_ne] at row_found
    · have path_ne : other ≠ owner.drvPath := by
        rintro rfl
        rw [found] at row_found
        cases row_found
        exact other_ne shared_eq
      rwa [lookup_erase_ne path_ne]
    · intro same
      have other_ne : other ≠ owner.drvPath := by
        rintro rfl
        rw [lookup_erase] at row_found
        cases row_found
      rw [lookup_erase_ne other_ne] at row_found
      exact other_ne (sound.apart other owner.drvPath row ent row_found found (same.trans shared_eq.symm))
    · rw [unfinished, building]
      rfl
  · simp only [take, found, Option.map_some, shared_eq]
    simp [doneOf, Owner.doneFor, id_eq]

/-- A row that runs has an owner that is still building. -/
theorem Sound.released (sound : Sound w) {i : ℕ} {owner : Owner} (at_i : w.owners[i]? = some owner)
    (not_building : owner.phase ≠ .building) (found : w.builder.expected.lookup path = some ent)
    (running : ent.running = true) : ent.shared ≠ owner.shared := by
  intro same
  obtain ⟨other, mem, building, rfl⟩ := sound.owned path ent found running
  obtain ⟨row, row_found, -, shared_eq, -⟩ := sound.holds other mem building
  cases found.symm.trans row_found
  obtain ⟨j, at_j⟩ := List.getElem?_of_mem mem
  obtain rfl := sound.owner_unique at_i at_j (same.symm.trans shared_eq)
  cases at_i.symm.trans at_j
  exact not_building building

/-- The section of `finished` that publishes. -/
theorem Sound.publish (sound : Sound w) {i : ℕ} {owner : Owner} (at_i : w.owners[i]? = some owner)
    {shared : Option SharedId} {wire : String} {done : Done} (taken : owner.phase = .taken shared wire done) :
    ∃ w', Act.perform opts w (.proceed i) = some (w', []) ∧ Sound w' ∧
      w'.owners = w.owners.set i { owner with phase := .published wire done } := by
  have faithful := sound.faithful owner (mem_of_getElem? at_i)
  simp only [Owner.Faithful, taken] at faithful
  obtain ⟨rfl, own⟩ := faithful
  obtain ⟨shared, known, -⟩ := sound.results owner (mem_of_getElem? at_i)
  refine ⟨_, by simp only [Act.perform, at_i, taken]; rfl, ?_, rfl⟩
  refine sound.advance at_i (by simp) (fun _ _ found => found) (fun _ _ found _ => found)
    (fun _ _ => sound.released at_i (by simp [taken])) (by simp [Builder.publish]) own ?_ fun sid other_ne => ?_
  · exact ⟨{ shared with finished := true, resultWire := wire }, by simp [Builder.publish, known], rfl,
      fun wire' result => by cases result; rfl⟩
  · simp [Builder.publish, other_ne.symm]

/-- The section of `finished` that sends. -/
theorem Sound.report (sound : Sound w) {i : ℕ} {owner : Owner} (at_i : w.owners[i]? = some owner)
    {wire : String} {done : Done} (published : owner.phase = .published wire done) :
    ∃ w', Act.perform opts w (.proceed i) = some (w', [(some i, .done done)]) ∧ Sound w' ∧
      w'.owners = w.owners.set i { owner with phase := .reported wire done } := by
  have faithful := sound.faithful owner (mem_of_getElem? at_i)
  simp only [Owner.Faithful, published] at faithful
  have result := sound.results owner (mem_of_getElem? at_i)
  rw [published] at result
  refine ⟨_, by simp only [Act.perform, at_i, published]; rfl, ?_, rfl⟩
  exact sound.advance at_i (by simp) (fun _ _ found => found) (fun _ _ found _ => found)
    (fun _ _ => sound.released at_i (by simp [published])) rfl faithful result fun _ _ => rfl

/-! ## Runs -/

/-- The owner whose `finished` an act is part of. -/
def Act.owner? : Act → Option ℕ
  | .finished index _ _ _ _ => some index
  | .proceed index => some index
  | _ => none

/-- What an owner has sent. -/
def Phase.told : Phase → List WorkerMsg
  | .reported _ done => [.done done]
  | _ => []

/-- One section of `finished`. -/
inductive Phase.Turns : Phase → Phase → List WorkerMsg → Prop
  | finish {shared wire done} : Turns .building (.taken shared wire done) []
  | publish {shared wire done} : Turns (.taken shared wire done) (.published wire done) []
  | report {wire done} : Turns (.published wire done) (.reported wire done) [.done done]

/-- What a step does to the owners. -/
inductive Turned (act : Act) (w w' : Bench) (sent : List Sent) : Prop
  | other (act_other : act.owner? = none) {new : List Owner} (owners_eq : w'.owners = w.owners ++ new)
      (building : ∀ owner ∈ new, owner.phase = .building) (anonymous : ∀ msg ∈ sent, msg.1 = none)
  | own {i : ℕ} (act_own : act.owner? = some i) {owner : Owner} (at_i : w.owners[i]? = some owner) {phase : Phase}
      (owners_eq : w'.owners = w.owners.set i { owner with phase }) {msgs : List WorkerMsg}
      (turns : owner.phase.Turns phase msgs) (sent_eq : sent = msgs.map fun msg => (some i, msg))

theorem Turned.same {act : Act} {sent : List Sent} (act_other : act.owner? = none)
    (owners_eq : w'.owners = w.owners) (anonymous : ∀ msg ∈ sent, msg.1 = none) :
    Turned act w w' sent :=
  .other act_other (by rw [owners_eq, append_nil]) (by simp) anonymous

theorem Sound.perform (sound : Sound w) {act : Act} {sent : List Sent}
    (performed : act.perform opts w = some (w', sent)) : Sound w' ∧ Turned act w w' sent := by
  cases act with
  | onExpect drvPath assignId =>
    cases performed
    exact ⟨sound.tends (Tends.refl _), .same rfl rfl (by simp)⟩
  | onRevoke drvPath =>
    cases performed
    exact ⟨sound.tends (tends_revoke drvPath _), .same rfl rfl (by simp)⟩
  | claim drvPath =>
    cases performed
    exact ⟨sound.tends (tends_claim drvPath _), .same rfl rfl (by simp)⟩
  | admission drvPath =>
    obtain ⟨after, performed', sound'⟩ := @Sound.admission opts w sound drvPath
    cases performed'.symm.trans performed
    refine ⟨sound', ?_⟩
    cases performed
    refine .other rfl rfl (fun owner mem => ?_) (by simp)
    obtain ⟨adm, -, rfl⟩ := Option.mem_map.mp (Option.mem_toList.mp mem)
    rfl
  | finished index outcome outputs wire reason =>
    cases at_i : w.owners[index]? with
    | none => simp [Act.perform, at_i] at performed
    | some owner =>
      cases building : owner.phase with
      | building =>
        obtain ⟨after, performed', sound', owners_eq⟩ :=
          @Sound.finish opts w sound index owner at_i building outcome outputs wire reason
        cases performed'.symm.trans performed
        exact ⟨sound', .own rfl at_i owners_eq (by rw [building]; exact .finish) List.map_nil.symm⟩
      | _ => simp [Act.perform, at_i, building] at performed
  | proceed index =>
    cases at_i : w.owners[index]? with
    | none => simp [Act.perform, at_i] at performed
    | some owner =>
      cases phase_eq : owner.phase with
      | taken shared wire done =>
        obtain ⟨after, performed', sound', owners_eq⟩ := @Sound.publish opts w sound index owner at_i _ _ _ phase_eq
        cases performed'.symm.trans performed
        exact ⟨sound', .own rfl at_i owners_eq (by rw [phase_eq]; exact .publish) List.map_nil.symm⟩
      | published wire done =>
        obtain ⟨after, performed', sound', owners_eq⟩ := @Sound.report opts w sound index owner at_i _ _ phase_eq
        cases performed'.symm.trans performed
        have turns : owner.phase.Turns (.reported wire done) [.done done] := by
          rw [phase_eq]
          exact .report
        exact ⟨sound', .own rfl at_i owners_eq turns rfl⟩
      | _ => simp [Act.perform, at_i, phase_eq] at performed
  | setDraining draining =>
    simp only [Act.perform] at performed
    split_ifs at performed with same
    · cases performed
      exact ⟨sound, .same rfl rfl (by simp)⟩
    · cases performed
      exact ⟨sound.tends (tends_flag _ draining), .same rfl rfl (by simp)⟩
  | tick now =>
    cases performed
    exact ⟨sound.tends (Tends.refl _), .same rfl rfl (by simp)⟩
  | greet =>
    cases performed
    exact ⟨sound.tends (Tends.refl _), .same rfl rfl (by simp)⟩
  | resume index now =>
    simp only [Act.perform] at performed
    split at performed
    · cases performed
      exact ⟨sound.tends (tends_next now _ _), .same rfl rfl (by simp)⟩
    · cases performed

/-- An owner is moved by its own `finished` only. -/
theorem Turned.kept {act : Act} {sent : List Sent} (turned : Turned act w w' sent) {i : ℕ} {owner : Owner}
    (at_i : w.owners[i]? = some owner) (not_own : act.owner? ≠ some i) : w'.owners[i]? = some owner := by
  cases turned with
  | other _ owners_eq => rw [owners_eq, List.getElem?_append_left (lt_length at_i), at_i]
  | @own j act_own other at_j phase owners_eq =>
    have other_ne : j ≠ i := by
      rintro rfl
      exact not_own act_own
    rw [owners_eq, getElem?_set_ne other_ne, at_i]

/-- What an owner has sent so far, as the log shows it. -/
def toldBy (owners : List Owner) (i : ℕ) : List Sent :=
  ((owners[i]?.map fun owner => owner.phase.told).getD []).map fun msg => (some i, msg)

theorem Phase.Turns.told {phase phase' : Phase} {msgs : List WorkerMsg} (turns : phase.Turns phase' msgs) :
    phase.told = [] ∧ phase'.told = msgs := by
  cases turns with
  | finish => exact ⟨rfl, rfl⟩
  | publish => exact ⟨rfl, rfl⟩
  | report => exact ⟨rfl, rfl⟩

theorem Turned.told {act : Act} {sent : List Sent} (turned : Turned act w w' sent) (i : ℕ) :
    toldBy w'.owners i = toldBy w.owners i ++ sent.filter fun msg => msg.1 = some i := by
  cases turned with
  | @other act_other new owners_eq building anonymous =>
    have nothing : (sent.filter fun msg => msg.1 = some i) = [] :=
      List.filter_eq_nil_iff.mpr fun msg mem => by simp [anonymous msg mem]
    rw [nothing, append_nil, owners_eq]
    rcases lt_or_ge i w.owners.length with inside | beyond
    · rw [toldBy, toldBy, List.getElem?_append_left inside]
    · rw [toldBy, toldBy, List.getElem?_eq_none beyond, List.getElem?_append_right beyond]
      cases found : new[i - w.owners.length]? with
      | none => rfl
      | some owner => simp [building owner (mem_of_getElem? found), Phase.told]
  | @own j act_own owner at_j phase owners_eq msgs turns sent_eq =>
    obtain ⟨before, after⟩ := turns.told
    by_cases same : j = i
    · subst same
      have all : (sent.filter fun msg => msg.1 = some j) = sent := by
        rw [sent_eq]
        exact List.filter_eq_self.mpr (by simp)
      rw [all, sent_eq, toldBy, toldBy, owners_eq, getElem?_set_self (lt_length at_j), at_j]
      simp [before, after]
    · have nothing : (sent.filter fun msg => msg.1 = some i) = [] := by
        rw [sent_eq]
        exact List.filter_eq_nil_iff.mpr (by simp [same])
      rw [nothing, append_nil, toldBy, toldBy, owners_eq, getElem?_set_ne same]

theorem sound_empty : Sound {} where
  claimed _ _ found := by cases found
  bound _ _ found := by cases found
  apart _ _ _ _ found := by cases found
  owned _ _ found := by cases found
  unowned _ _ found := by cases found
  blank _ _ found := by cases found
  holds _ mem := by cases mem
  once := .nil
  faithful _ mem := by cases mem
  results _ mem := by cases mem

theorem Reached.sound {sent : List Sent} (reached : Reached opts w sent) :
    Sound w ∧ ∀ i, (sent.filter fun msg => msg.1 = some i) = toldBy w.owners i := by
  refine reached.invariant (P := fun w sent =>
    Sound w ∧ ∀ i, (sent.filter fun msg => msg.1 = some i) = toldBy w.owners i)
    ?_ ?_
  · rintro _ rfl
    exact ⟨sound_empty, fun i => rfl⟩
  · rintro w sent out w' ⟨sound, told⟩ ⟨act, performed⟩
    obtain ⟨sound', turned⟩ := sound.perform performed
    refine ⟨sound', fun i => ?_⟩
    rw [List.filter_append, told i, turned.told i]

/-- A derivation has at most one owner that has not finished.  Until it does, other callers are told to attach to
its build and no other step takes its row away.  It sends one Done, for the assignment of that row, and the
attached callers see the build finished exactly when its result is there. -/
theorem one_owner_reports_once {sent : List Sent} (reached : Reached opts w sent) :
    (∀ (i j : ℕ) (owner other : Owner), w.owners[i]? = some owner → w.owners[j]? = some other →
    owner.phase = .building →
      other.phase = .building → owner.drvPath = other.drvPath → i = j) ∧
    (∀ (i : ℕ) (owner : Owner), w.owners[i]? = some owner → owner.phase = .building →
      (∃ ent, w.builder.expected.lookup owner.drvPath = some ent ∧ ent.shared = owner.shared ∧
        ent.assignId = owner.assignId) ∧
      (w.builder.admission owner.drvPath).1 =
        some { shared := owner.shared, assignId := owner.assignId, attach := true } ∧
      (∀ (act : Act) (w' : Bench) (msgs : List Sent), act.perform opts w = some (w', msgs) → act.owner? ≠ some i →
        w'.owners[i]? = some owner ∧ ∃ ent, w'.builder.expected.lookup owner.drvPath = some ent ∧
          ent.shared = owner.shared ∧ ent.assignId = owner.assignId) ∧
      ∀ outcome outputs wire reason, ∃ w₁ w₂ w₃,
        Act.perform opts w (.finished i outcome outputs wire reason) = some (w₁, []) ∧
        w₁.builder.expected.lookup owner.drvPath = none ∧
        Act.perform opts w₁ (.proceed i) = some (w₂, []) ∧
        (∃ shared : Shared, w₂.builder.shareds[owner.shared]? = some shared ∧ shared.finished = true ∧
          shared.resultWire = wire) ∧
        Act.perform opts w₂ (.proceed i) = some (w₃, [(some i, .done (owner.doneFor outcome outputs reason))])) ∧
    ∀ (i : ℕ) (owner : Owner), w.owners[i]? = some owner → owner.Faithful ∧
      (sent.filter fun msg => msg.1 = some i) = owner.phase.told.map (fun msg => (some i, msg)) ∧
      ∃ shared : Shared, w.builder.shareds[owner.shared]? = some shared ∧ shared.finished = owner.phase.result.isSome ∧
        ∀ wire, owner.phase.result = some wire → shared.resultWire = wire := by
  obtain ⟨sound, told⟩ := Reached.sound reached
  refine ⟨fun i j owner other at_i at_j building building' => sound.building_unique at_i at_j building building',
    fun i owner at_i building => ?_, fun i owner at_i => ⟨?_, ?_, ?_⟩⟩
  · obtain ⟨ent, found, running, shared_eq, id_eq⟩ := sound.holds owner (mem_of_getElem? at_i) building
    refine ⟨⟨ent, found, shared_eq, id_eq⟩, ?_, fun act w' msgs performed not_own => ?_,
      fun outcome outputs wire reason => ?_⟩
    · simp [admission, found, running, shared_eq, id_eq]
    · obtain ⟨sound', turned⟩ := sound.perform performed
      have at_i' := turned.kept at_i not_own
      obtain ⟨ent', found', -, same⟩ := sound'.holds owner (mem_of_getElem? at_i') building
      exact ⟨at_i', ent', found', same⟩
    · have i_lt := lt_length at_i
      obtain ⟨w₁, first, sound₁, owners₁⟩ := @Sound.finish opts w sound i owner at_i building
        outcome outputs wire reason
      have at₁ : w₁.owners[i]? = some _ := owners₁ ▸ getElem?_set_self i_lt
      obtain ⟨w₂, second, sound₂, owners₂⟩ := @Sound.publish opts w₁ sound₁ i _ at₁ _ _ _ rfl
      have at₂ : w₂.owners[i]? = some _ := owners₂ ▸ getElem?_set_self (by simpa [owners₁] using i_lt)
      obtain ⟨w₃, third, -⟩ := @Sound.report opts w₂ sound₂ i _ at₂ _ _ rfl
      obtain ⟨shared, known, is_finished, published⟩ := sound₂.results _ (mem_of_getElem? at₂)
      refine ⟨w₁, w₂, w₃, first, ?_, second, ⟨shared, known, is_finished, published wire rfl⟩, third⟩
      simp only [Act.perform, at_i, building] at first
      cases first
      exact lookup_erase _ _
  · exact sound.faithful owner (mem_of_getElem? at_i)
  · rw [told i, toldBy, at_i]
    rfl
  · exact sound.results owner (mem_of_getElem? at_i)

/-- The steps of a run, one after the other. -/
def performAll (opts : Options) : List Act → Bench → Option (Bench × List Sent)
  | [], w => some (w, [])
  | act :: acts, w => do
    let (w, sent) ← act.perform opts w
    let (w, rest) ← performAll opts acts w
    some (w, sent ++ rest)

theorem reached_performAll {acts : List Act} {sent rest : List Sent} (reached : Reached opts w sent)
    (performed : performAll opts acts w = some (w', rest)) : Reached opts w' (sent ++ rest) := by
  induction acts generalizing w sent rest with
  | nil =>
    cases performed
    simpa using reached
  | cons act acts ih =>
    simp only [performAll, Option.bind_eq_bind, Option.bind_eq_some_iff] at performed
    obtain ⟨⟨w₁, out⟩, first, ⟨w₂, later⟩, others, equal⟩ := performed
    cases equal
    rw [← List.append_assoc]
    exact ih (.step reached ⟨act, first⟩) others

/-- A builder that was admitted once for an assignment. -/
def admittedOnce : Bench where
  builder :=
    { expected := AList.singleton "d" { assignId := 7, since := 0, claimed := true, running := true, shared := 0 }
      shareds := [{}] }
  owners := [{ drvPath := "d", shared := 0, assignId := 7 }]

theorem reached_admittedOnce : Reached { advertise := "w", thisSystem := "x" } admittedOnce [] :=
  @reached_performAll { advertise := "w", thisSystem := "x" } {} admittedOnce
    [.onExpect "d" 7, .resume 0 0, .admission "d"] [] [] (.start rfl) rfl

theorem one_owner_reports_once_admitted : Reached { advertise := "w", thisSystem := "x" } admittedOnce [] ∧
    (admittedOnce.builder.admission "d").1 = some { shared := 0, assignId := 7, attach := true } :=
  ⟨reached_admittedOnce, ((one_owner_reports_once reached_admittedOnce).2.1 0 _ rfl rfl).2.1⟩

end NixGrpcStore.Builder
