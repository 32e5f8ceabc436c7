import NixGrpcStore.Sched.Basic

/-!
# Workers bucketed by free slots

`FreeIndex` answers "which worker has most free slots" in constant time: workers sit in 64
buckets by their clamped slot count, `pos` is the place of each worker inside its bucket, and
bit `i` of `nonempty` tells whether bucket `i` has a worker.  A worker leaves a bucket by
swapping places with the last one there.  `push` computes the new size of its vectors in 32 bits,
which matters for the largest number only.
-/

namespace NixGrpcStore.Sched

open Tally (lt_length)
open Function (update update_of_ne)
open List (getElem?_set_ne)
variable {wid : WorkerId}

namespace FreeIndex

/-- The largest slot count that is told apart. -/
def maxSlots : ℕ := 63

/-- The bucket of a slot count. -/
def bucket (val : ℤ) : ℕ := (max 0 (min val maxSlots)).toNat

theorem bucket_lt (val : ℤ) : bucket val < 64 := by
  unfold bucket maxSlots
  omega

theorem bucket_pos_iff (val : ℤ) : 0 < bucket val ↔ 0 < val := by
  unfold bucket maxSlots
  omega

/-- The vectors and the bit mask of the source. -/
structure Raw where
  /-- Slot count of each worker; may be negative. -/
  free : List ℤ
  /-- Place of each worker in its bucket. -/
  pos : List ℕ
  /-- Whether the worker was pushed. -/
  tracked : List Bool
  /-- The buckets. -/
  byFree : List (List WorkerId)
  /-- Which buckets have a worker. -/
  nonempty : BitVec 64
  deriving DecidableEq

namespace Raw

/-- Swap `wid` with the last worker of bucket `origin` and drop it there. -/
def takeOut (wid : WorkerId) (origin : ℕ) (f : Raw) : Except Error Raw :=
  match f.byFree[origin]?, f.pos[wid]? with
  | some src, some idx =>
    if src[idx]? ≠ some wid then
      .error (.corruptBucket wid)
    else
      match src.getLast? with
      | none => .error .outOfRange
      | some last =>
        let src := (src.set idx last).dropLast
        .ok
          { f with
            pos := f.pos.set last idx
            byFree := f.byFree.set origin src
            nonempty :=
              if src.isEmpty then f.nonempty &&& ~~~(1#64 <<< origin) else f.nonempty }
  | _, _ => .error .outOfRange

/-- Append `wid` to bucket `dest`. -/
def putIn (wid : WorkerId) (dest : ℕ) (f : Raw) : Except Error Raw :=
  match f.byFree[dest]? with
  | none => .error .outOfRange
  | some bucket =>
    .ok
      { f with
        pos := f.pos.set wid bucket.length
        byFree := f.byFree.set dest (bucket ++ [wid])
        nonempty := f.nonempty ||| 1#64 <<< dest }

/-- Whether a worker was pushed. -/
def isTracked (f : Raw) (wid : WorkerId) : Bool := f.tracked[wid]?.getD false

/-- All vectors get a size; what is new in them reads as not pushed. -/
def resize (f : Raw) (size : ℕ) : Raw :=
  { f with
    free := f.free.take size ++ List.replicate (size - f.free.length) 0
    pos := f.pos.take size ++ List.replicate (size - f.pos.length) 0
    tracked := f.tracked.take size ++ List.replicate (size - f.tracked.length) false }

/-- Make `wid` known with zero free slots; the vectors get a size if they are too short. -/
def enter (wid size : ℕ) (f : Raw) : Except Error Raw :=
  if f.isTracked wid then
    .ok f
  else
    let f := if wid < f.free.length then f else f.resize size
    if wid < f.tracked.length then
      putIn wid 0 { f with tracked := f.tracked.set wid true }
    else
      .error .outOfRange

/-- Make `wid` known with zero free slots.  The new size is a 32-bit number. -/
def push (wid : WorkerId) (f : Raw) : Except Error Raw := f.enter wid ((wid + 1) % 2 ^ 32)

/-- `push` for the placement core, whose workers are numbered without a bound. -/
def track (wid : WorkerId) (f : Raw) : Except Error Raw := f.enter wid (wid + 1)

/-- The slot count of a worker; ids not pushed read as zero. -/
def get (f : Raw) (wid : WorkerId) : ℤ := f.free[wid]?.getD 0

/-- Give a known worker another slot count. -/
def set (wid : WorkerId) (val : ℤ) (f : Raw) : Except Error Raw :=
  if !f.isTracked wid then
    .error (.unknownWorker wid)
  else
    let origin := bucket (f.get wid)
    let dest := bucket val
    let f := { f with free := f.free.set wid val }
    if origin = dest then
      .ok f
    else do
      (← f.takeOut wid origin).putIn wid dest

/-- The largest slot count of any worker, clamped. -/
def maxFree (f : Raw) : ℕ :=
  if f.nonempty = 0#64 then 0 else maxSlots - f.nonempty.clz.toNat

/-- Some worker with the largest slot count, if that is positive. -/
def emptiest (f : Raw) : Option WorkerId :=
  if f.maxFree = 0 then none else (f.byFree[f.maxFree]?).bind List.head?

/-! ## Buckets -/

/-- Buckets, places and bit mask all describe the same map from workers to bucket numbers. -/
structure Buckets (f : Raw) (level : WorkerId → Option ℕ) : Prop where
  size_eq : f.byFree.length = 64
  seated : ∀ ⦃wid lvl⦄, level wid = some lvl →
    ∃ src idx, f.byFree[lvl]? = some src ∧ f.pos[wid]? = some idx ∧ src[idx]? = some wid
  member : ∀ ⦃lvl src idx wid⦄, f.byFree[lvl]? = some src → src[idx]? = some wid →
    level wid = some lvl ∧ f.pos[wid]? = some idx
  bits : ∀ ⦃lvl src⦄, f.byFree[lvl]? = some src → (f.nonempty.getLsbD lvl = true ↔ src ≠ [])

variable {f : Raw} {level : WorkerId → Option ℕ}

/-- Only buckets, places and bit mask matter. -/
theorem Buckets.congr (buckets : f.Buckets level) {g : Raw} (byFree_eq : g.byFree = f.byFree)
    (pos_eq : g.pos = f.pos) (nonempty_eq : g.nonempty = f.nonempty) : g.Buckets level where
  size_eq := byFree_eq ▸ buckets.size_eq
  seated wid lvl level_eq := by
    rw [byFree_eq, pos_eq]
    exact buckets.seated level_eq
  member lvl src idx wid src_eq idx_eq := by
    rw [byFree_eq] at src_eq
    rw [pos_eq]
    exact buckets.member src_eq idx_eq
  bits lvl src src_eq := by
    rw [byFree_eq] at src_eq
    rw [nonempty_eq]
    exact buckets.bits src_eq

/-- A worker sits at a place of a bucket, and `last` is the last one there. -/
structure Sits (f : Raw) (wid lvl : ℕ) (src : List WorkerId) (idx : ℕ) (last : WorkerId) : Prop where
  src_eq : f.byFree[lvl]? = some src
  pos_eq : f.pos[wid]? = some idx
  at_idx : src[idx]? = some wid
  last_eq : src[src.length - 1]? = some last

/-- The last worker of a bucket has taken a place there. -/
def vacated (f : Raw) (lvl : ℕ) (src : List WorkerId) (idx : ℕ) (last : WorkerId) : Raw :=
  { f with
    pos := f.pos.set last idx
    byFree := f.byFree.set lvl (src.set idx last).dropLast
    nonempty := if (src.set idx last).dropLast.isEmpty then f.nonempty &&& ~~~(1#64 <<< lvl) else f.nonempty }

section Vacated

variable {wid lvl idx last : ℕ} {src : List WorkerId}

theorem Buckets.sits (buckets : f.Buckets level) (level_eq : level wid = some lvl) :
    ∃ src idx last, f.Sits wid lvl src idx last := by
  obtain ⟨src, idx, src_eq, pos_eq, at_idx⟩ := buckets.seated level_eq
  have idx_lt : idx < src.length := lt_length at_idx
  exact ⟨src, idx, _, src_eq, pos_eq, at_idx, List.getElem?_eq_getElem (by omega)⟩

section Sits

variable (sits : f.Sits wid lvl src idx last)
include sits

theorem Sits.idx_lt : idx < src.length :=
  lt_length sits.at_idx

theorem Sits.lvl_lt : lvl < f.byFree.length :=
  lt_length sits.src_eq

theorem Sits.takeOut_eq :
    f.takeOut wid lvl = .ok (f.vacated lvl src idx last) := by
  have read_last : src.getLast? = some last := by rw [List.getLast?_eq_getElem?, sits.last_eq]
  simp only [takeOut, sits.src_eq, sits.pos_eq, sits.at_idx, read_last, ne_eq, not_true_eq_false, if_false, vacated]

theorem Sits.get_rest (place : ℕ) :
    (src.set idx last).dropLast[place]? =
      if place < src.length - 1 then (if place = idx then some last else src[place]?) else none := by
  simp only [List.getElem?_dropLast, List.length_set, List.getElem?_set, sits.idx_lt, if_true, eq_comm (a := idx)]

theorem Sits.vacated_get :
    (f.vacated lvl src idx last).byFree[lvl]? = some (src.set idx last).dropLast := by
  rw [vacated, List.getElem?_set_self sits.lvl_lt]

/-- Everybody else still has a place. -/
theorem Sits.seated (buckets : f.Buckets level) {other otherLvl : ℕ}
    (other_ne : other ≠ wid) (other_eq : level other = some otherLvl) :
    ∃ otherSrc place, (f.vacated lvl src idx last).byFree[otherLvl]? = some otherSrc ∧
      (f.vacated lvl src idx last).pos[other]? = some place ∧ otherSrc[place]? = some other := by
  have idx_lt := sits.idx_lt
  obtain ⟨last_level, last_pos⟩ := buckets.member sits.src_eq sits.last_eq
  obtain ⟨otherSrc, place, otherSrc_eq, place_eq, at_place⟩ := buckets.seated other_eq
  by_cases other_last : other = last
  · -- the last worker of the bucket takes the free place
    subst other_last
    cases other_eq.symm.trans last_level
    have last_ne : idx ≠ src.length - 1 := by
      rintro rfl
      exact other_ne (Option.some.inj (sits.last_eq.symm.trans sits.at_idx))
    refine ⟨_, idx, sits.vacated_get, List.getElem?_set_self (lt_length last_pos), ?_⟩
    rw [sits.get_rest, if_pos (by omega), if_pos rfl]
  · have kept : (f.vacated lvl src idx last).pos[other]? = some place := by
      rw [vacated, getElem?_set_ne (Ne.symm other_last), place_eq]
    by_cases same : otherLvl = lvl
    · subst same
      cases sits.src_eq.symm.trans otherSrc_eq
      have place_lt : place < src.length := lt_length at_place
      have place_ne : place ≠ idx := by
        rintro rfl
        exact other_ne (Option.some.inj (at_place.symm.trans sits.at_idx))
      have place_inner : place ≠ src.length - 1 := by
        rintro rfl
        exact other_last (Option.some.inj (at_place.symm.trans sits.last_eq))
      refine ⟨_, place, sits.vacated_get, kept, ?_⟩
      rw [sits.get_rest, if_pos (by omega), if_neg place_ne, at_place]
    · refine ⟨otherSrc, place, ?_, kept, at_place⟩
      rw [vacated, getElem?_set_ne (Ne.symm same), otherSrc_eq]

/-- Nobody is in a bucket who was not there. -/
theorem Sits.member (buckets : f.Buckets level) (level_eq : level wid = some lvl)
    {otherLvl place other : ℕ} {otherSrc : List WorkerId}
    (otherSrc_eq : (f.vacated lvl src idx last).byFree[otherLvl]? = some otherSrc)
    (at_place : otherSrc[place]? = some other) :
    other ≠ wid ∧ level other = some otherLvl ∧ (f.vacated lvl src idx last).pos[other]? = some place := by
  have idx_lt := sits.idx_lt
  obtain ⟨last_level, last_pos⟩ := buckets.member sits.src_eq sits.last_eq
  by_cases same : otherLvl = lvl
  · subst same
    cases sits.vacated_get.symm.trans otherSrc_eq
    rw [sits.get_rest] at at_place
    split_ifs at at_place with place_lt place_idx
    · cases at_place
      refine ⟨?_, last_level, ?_⟩
      · rintro rfl
        have := Option.some.inj (sits.pos_eq.symm.trans last_pos)
        omega
      · rw [place_idx]
        exact List.getElem?_set_self (lt_length last_pos)
    · obtain ⟨other_level, other_pos⟩ := buckets.member sits.src_eq at_place
      have other_last : other ≠ last := by
        rintro rfl
        have := Option.some.inj (other_pos.symm.trans last_pos)
        omega
      refine ⟨?_, other_level, by rw [vacated, getElem?_set_ne (Ne.symm other_last), other_pos]⟩
      rintro rfl
      exact place_idx (Option.some.inj (other_pos.symm.trans sits.pos_eq))
  · rw [vacated, getElem?_set_ne (Ne.symm same)] at otherSrc_eq
    obtain ⟨other_level, other_pos⟩ := buckets.member otherSrc_eq at_place
    have other_last : other ≠ last := by
      rintro rfl
      exact same (Option.some.inj (other_level.symm.trans last_level))
    refine ⟨?_, other_level, by rw [vacated, getElem?_set_ne (Ne.symm other_last), other_pos]⟩
    rintro rfl
    exact same (Option.some.inj (other_level.symm.trans level_eq))

/-- The mask follows. -/
theorem Sits.bits (buckets : f.Buckets level) {otherLvl : ℕ} {otherSrc : List WorkerId}
    (otherSrc_eq : (f.vacated lvl src idx last).byFree[otherLvl]? = some otherSrc) :
    (f.vacated lvl src idx last).nonempty.getLsbD otherLvl = true ↔ otherSrc ≠ [] := by
  have otherLvl_lt : otherLvl < 64 := by
    have := lt_length otherSrc_eq
    simpa [vacated, buckets.size_eq] using this
  by_cases same : otherLvl = lvl
  · subst same
    cases sits.vacated_get.symm.trans otherSrc_eq
    have src_ne : src ≠ [] := by
      rintro rfl
      simpa using sits.idx_lt
    by_cases rest_nil : (src.set idx last).dropLast = []
    · simp [vacated, rest_nil, otherLvl_lt]
    · simp [vacated, rest_nil, (buckets.bits sits.src_eq).mpr src_ne]
  · rw [vacated, getElem?_set_ne (Ne.symm same)] at otherSrc_eq
    rw [← buckets.bits otherSrc_eq]
    by_cases rest_nil : (src.set idx last).dropLast = []
    · simp [vacated, rest_nil, otherLvl_lt]
      omega
    · simp [vacated, rest_nil]

end Sits

/-- A worker taken out is in no bucket, and no other worker moves to another one. -/
theorem Buckets.takeOut_spec (buckets : f.Buckets level) (wid : WorkerId)
    (level_eq : level wid = some lvl) :
    ∃ next, f.takeOut wid lvl = .ok next ∧ next.Buckets (update level wid none) ∧
      next.free = f.free ∧ next.tracked = f.tracked ∧ next.pos.length = f.pos.length := by
  obtain ⟨src, idx, last, sits⟩ := buckets.sits level_eq
  refine ⟨_, sits.takeOut_eq, ⟨by simpa [vacated] using buckets.size_eq, fun other otherLvl other_eq => ?_,
    fun otherLvl otherSrc place other otherSrc_eq at_place => ?_, fun _ _ => sits.bits buckets⟩, rfl, rfl,
    by simp [vacated]⟩
  · have other_ne : other ≠ wid := by
      rintro rfl
      simp at other_eq
    rw [update_of_ne other_ne] at other_eq
    exact sits.seated buckets other_ne other_eq
  · obtain ⟨other_ne, other_level, other_pos⟩ := sits.member buckets level_eq otherSrc_eq at_place
    exact ⟨by rw [update_of_ne other_ne, other_level], other_pos⟩

end Vacated

/-- A worker in no bucket can be put into any. -/
theorem Buckets.putIn_spec (buckets : f.Buckets level) (wid : WorkerId) {dest : ℕ}
    (dest_lt : dest < 64) (wid_lt : wid < f.pos.length) (level_eq : level wid = none) :
    ∃ next, f.putIn wid dest = .ok next ∧ next.Buckets (update level wid (some dest)) ∧
      next.free = f.free ∧ next.tracked = f.tracked ∧ next.pos.length = f.pos.length := by
  have dest_lt' : dest < f.byFree.length := buckets.size_eq ▸ dest_lt
  obtain ⟨src, src_eq⟩ : ∃ src, f.byFree[dest]? = some src := ⟨_, List.getElem?_eq_getElem dest_lt'⟩
  refine ⟨{ f with
      pos := f.pos.set wid src.length
      byFree := f.byFree.set dest (src ++ [wid])
      nonempty := f.nonempty ||| 1#64 <<< dest },
    by simp only [putIn, src_eq], ?_, rfl, rfl, by simp⟩
  constructor
  · simpa using buckets.size_eq
  · intro other lvl other_eq
    by_cases other_wid : other = wid
    · subst other_wid
      rw [Function.update_self] at other_eq
      cases other_eq
      exact ⟨src ++ [other], src.length, by simp [dest_lt'], by simp [wid_lt], by simp⟩
    · rw [update_of_ne other_wid] at other_eq
      obtain ⟨otherSrc, place, otherSrc_eq, place_eq, at_place⟩ := buckets.seated other_eq
      have place_lt : place < otherSrc.length := lt_length at_place
      by_cases same : lvl = dest
      · subst same
        cases src_eq.symm.trans otherSrc_eq
        refine ⟨src ++ [wid], place, by simp [dest_lt'], ?_, ?_⟩
        · rw [getElem?_set_ne (Ne.symm other_wid), place_eq]
        · rw [List.getElem?_append_left place_lt, at_place]
      · refine ⟨otherSrc, place, ?_, ?_, at_place⟩
        · rw [getElem?_set_ne (Ne.symm same), otherSrc_eq]
        · rw [getElem?_set_ne (Ne.symm other_wid), place_eq]
  · have kept : ∀ {lvl otherSrc place other}, f.byFree[lvl]? = some otherSrc →
        otherSrc[place]? = some other → update level wid (some dest) other = some lvl ∧
          (f.pos.set wid src.length)[other]? = some place := by
      intro lvl otherSrc place other otherSrc_eq at_place
      obtain ⟨other_level, other_pos⟩ := buckets.member otherSrc_eq at_place
      have other_ne : other ≠ wid := by
        rintro rfl
        simp [level_eq] at other_level
      exact ⟨by rw [update_of_ne other_ne, other_level],
        by rw [getElem?_set_ne (Ne.symm other_ne), other_pos]⟩
    intro lvl otherSrc place other otherSrc_eq at_place
    by_cases same : lvl = dest
    · subst same
      obtain rfl : src ++ [wid] = otherSrc := by simpa [dest_lt'] using otherSrc_eq
      by_cases place_lt : place < src.length
      · rw [List.getElem?_append_left place_lt] at at_place
        exact kept src_eq at_place
      · rw [List.getElem?_append_right (Nat.le_of_not_lt place_lt)] at at_place
        have place_eq : place = src.length := by
          have := lt_length at_place
          simp at this
          omega
        obtain rfl : wid = other := by simpa [place_eq] using at_place
        exact ⟨by simp, by simp [wid_lt, place_eq]⟩
    · rw [getElem?_set_ne (Ne.symm same)] at otherSrc_eq
      exact kept otherSrc_eq at_place
  · intro lvl otherSrc otherSrc_eq
    have lvl_lt : lvl < 64 := by
      have := lt_length otherSrc_eq
      simpa [buckets.size_eq] using this
    by_cases same : lvl = dest
    · subst same
      obtain rfl : src ++ [wid] = otherSrc := by simpa [dest_lt'] using otherSrc_eq
      simp [lvl_lt]
    · rw [getElem?_set_ne (Ne.symm same)] at otherSrc_eq
      rw [← buckets.bits otherSrc_eq]
      simp [lvl_lt]
      omega

/-! ## Slot counts -/

/-- The index describes the map `values` from pushed workers to their last slot count. -/
structure Denotes (f : Raw) (values : WorkerId → Option ℤ) : Prop where
  buckets : f.Buckets fun wid => (values wid).map bucket
  pos_length : f.pos.length = f.free.length
  tracked_length : f.tracked.length = f.free.length
  tracked_iff : ∀ wid, f.isTracked wid = true ↔ (values wid).isSome
  get_eq : ∀ wid, f.get wid = (values wid).getD 0

variable {values : WorkerId → Option ℤ}

/-- The pushed workers with their slot counts. -/
def valueOf (f : Raw) (wid : WorkerId) : Option ℤ :=
  if f.isTracked wid then some (f.get wid) else none

theorem Denotes.valueOf_eq (denotes : f.Denotes values) : f.valueOf = values := by
  funext wid
  have tracked := denotes.tracked_iff wid
  have read := denotes.get_eq wid
  cases value_eq : values wid with
  | none => simp [valueOf, Bool.eq_false_iff.mpr (by simpa [value_eq] using tracked)]
  | some value =>
    have is_tracked : f.isTracked wid = true := by simpa [value_eq] using tracked
    simp [valueOf, is_tracked, read, value_eq]

theorem Denotes.wid_lt (denotes : f.Denotes values) {value : ℤ}
    (value_eq : values wid = some value) : wid < f.free.length := by
  have is_tracked := (denotes.tracked_iff wid).mpr (by simp [value_eq])
  rw [← denotes.tracked_length]
  by_contra beyond
  simp [isTracked, List.getElem?_eq_none (Nat.le_of_not_lt beyond)] at is_tracked

theorem level_update (values : WorkerId → Option ℤ) (wid : WorkerId) (value : ℤ) :
    (fun other => (update values wid (some value) other).map bucket) =
      update (fun other => (values other).map bucket) wid (some (bucket value)) := by
  funext other
  by_cases other_wid : other = wid
  · subst other_wid
    simp
  · simp [other_wid]

theorem get_append_replicate (f : Raw) (more : ℕ) (wid : WorkerId) :
    (f.free ++ List.replicate more 0)[wid]?.getD 0 = f.get wid := by
  simp only [get, List.getElem?_append]
  split
  · rfl
  · rename_i beyond
    rw [List.getElem?_eq_none (Nat.le_of_not_lt beyond), List.getElem?_replicate]
    split <;> rfl

theorem resize_tracked_length (f : Raw) (size : ℕ) : (f.resize size).tracked.length = size := by
  simp only [resize, List.length_append, List.length_take, List.length_replicate]
  omega

/-- The vectors grow by as much as a worker needs. -/
theorem Denotes.track_eq (denotes : f.Denotes values) (wid : ℕ)
    (unknown : f.isTracked wid = false) :
    f.track wid =
      putIn wid 0
        { f with
          free := f.free ++ List.replicate (wid + 1 - f.free.length) 0
          pos := f.pos ++ List.replicate (wid + 1 - f.free.length) 0
          tracked := (f.tracked ++ List.replicate (wid + 1 - f.free.length) false).set wid true } := by
  rw [track, enter, unknown, if_neg Bool.false_ne_true]
  by_cases inside : wid < f.free.length
  · rw [if_pos inside, if_pos (denotes.tracked_length ▸ inside), Nat.sub_eq_zero_of_le inside]
    simp
  · have wider : f.free.length ≤ wid + 1 := by omega
    rw [if_neg inside, if_pos]
    · simp only [resize, denotes.pos_length, denotes.tracked_length, List.take_of_length_le,
        wider]
    · rw [resize_tracked_length]
      exact Nat.lt_succ_self wid

/-- A worker can be made known with zero slots, and no known one changes. -/
theorem Denotes.track_spec (denotes : f.Denotes values) (wid : ℕ) :
    ∃ next, f.track wid = .ok next ∧
      next.Denotes (update values wid (some ((values wid).getD 0))) := by
  cases value_eq : values wid with
  | some value =>
    have is_tracked : f.isTracked wid = true := (denotes.tracked_iff wid).mpr (by simp [value_eq])
    refine ⟨f, by simp [track, enter, is_tracked], ?_⟩
    rwa [Option.getD_some, ← value_eq, Function.update_eq_self]
  | none =>
    have not_tracked : f.isTracked wid = false :=
      Bool.eq_false_iff.mpr fun is_tracked => by
        simpa [value_eq] using (denotes.tracked_iff wid).mp is_tracked
    let more := wid + 1 - f.free.length
    have wid_lt : wid < (f.free ++ List.replicate more 0).length := by
      simp only [List.length_append, List.length_replicate, more]
      omega
    let wide : Raw :=
      { f with
        free := f.free ++ List.replicate more 0
        pos := f.pos ++ List.replicate more 0
        tracked := (f.tracked ++ List.replicate more false).set wid true }
    have wide_buckets : wide.Buckets fun other => (values other).map bucket := by
      have buckets := denotes.buckets
      refine ⟨buckets.size_eq, ?_, ?_, buckets.bits⟩
      · intro other lvl level_eq
        obtain ⟨src, idx, src_eq, pos_eq, at_idx⟩ := buckets.seated level_eq
        have other_lt := lt_length pos_eq
        exact ⟨src, idx, src_eq, by simpa [wide, List.getElem?_append_left other_lt] using pos_eq, at_idx⟩
      · intro lvl src idx other src_eq at_idx
        obtain ⟨level_eq, pos_eq⟩ := buckets.member src_eq at_idx
        have other_lt := lt_length pos_eq
        exact ⟨level_eq, by simpa [wide, List.getElem?_append_left other_lt] using pos_eq⟩
    obtain ⟨next, next_eq, next_buckets, next_free, next_tracked, next_length⟩ :=
      wide_buckets.putIn_spec wid (show 0 < 64 by decide)
        (by simpa [wide, denotes.pos_length] using wid_lt) (by simp [value_eq])
    refine ⟨next, (denotes.track_eq wid not_tracked).trans next_eq, ?_⟩
    constructor
    · rw [level_update]
      exact next_buckets
    · rw [next_length, next_free]
      simp [wide, denotes.pos_length]
    · rw [next_tracked, next_free]
      simp [wide, denotes.tracked_length]
    · intro other
      rw [isTracked, next_tracked]
      by_cases other_wid : other = wid
      · subst other_wid
        have tracked_lt : other < (f.tracked ++ List.replicate more false).length := by
          simpa [denotes.tracked_length] using wid_lt
        rw [List.getElem?_set_self tracked_lt]
        simp
      · rw [update_of_ne other_wid, ← denotes.tracked_iff other]
        simp only [wide, getElem?_set_ne (Ne.symm other_wid), isTracked, List.getElem?_append]
        split
        · rfl
        · rename_i beyond
          rw [List.getElem?_eq_none (Nat.le_of_not_lt beyond), List.getElem?_replicate]
          split <;> rfl
    · intro other
      rw [get, next_free, get_append_replicate]
      by_cases other_wid : other = wid
      · subst other_wid
        simp [denotes.get_eq, value_eq]
      · rw [update_of_ne other_wid, denotes.get_eq]

/-- The new size of the vectors fits. -/
theorem push_of_fits {wid : ℕ} (fits : wid + 1 < 2 ^ 32) (f : Raw) : f.push wid = f.track wid := by
  rw [push, track, Nat.mod_eq_of_lt fits]

/-- Where the new size wraps around, the worker is outside the vectors. -/
theorem track_of_push {wid : ℕ} {next : Raw} (pushed : f.push wid = .ok next) :
    f.track wid = .ok next := by
  by_cases fits : wid + 1 < 2 ^ 32
  · rwa [← push_of_fits fits]
  have size_le : (wid + 1) % 2 ^ 32 ≤ wid := by omega
  rw [push, enter] at pushed
  rw [track, enter]
  by_cases tracked : f.isTracked wid
  · rwa [if_pos tracked] at pushed ⊢
  by_cases inside : wid < f.free.length
  · rwa [if_neg tracked, if_pos inside] at pushed ⊢
  · rw [if_neg tracked, if_neg inside, if_neg (by rw [resize_tracked_length]; omega)] at pushed
    cases pushed

/-- `set` on a known worker succeeds and changes that worker only. -/
theorem Denotes.set_spec (denotes : f.Denotes values) (known : (values wid).isSome) (value : ℤ) :
    ∃ next, f.set wid value = .ok next ∧
      next.Denotes (update values wid (some value)) := by
  obtain ⟨old, old_eq⟩ := Option.isSome_iff_exists.mp known
  have is_tracked : f.isTracked wid = true := (denotes.tracked_iff wid).mpr known
  have read : f.get wid = old := by simp [denotes.get_eq, old_eq]
  have wid_lt := denotes.wid_lt old_eq
  have tracked_next : ∀ other, f.isTracked other = true ↔
      (update values wid (some value) other).isSome := by
    intro other
    by_cases other_wid : other = wid
    · subst other_wid
      simp [is_tracked]
    · rw [update_of_ne other_wid, denotes.tracked_iff]
  have get_next : ∀ other, (f.free.set wid value)[other]?.getD 0 =
      (update values wid (some value) other).getD 0 := by
    intro other
    by_cases other_wid : other = wid
    · subst other_wid
      simp [wid_lt]
    · rw [getElem?_set_ne (Ne.symm other_wid), update_of_ne other_wid]
      exact denotes.get_eq other
  by_cases same : bucket old = bucket value
  · refine ⟨{ f with free := f.free.set wid value }, by simp [set, is_tracked, read, same], ?_⟩
    refine ⟨?_, by simpa using denotes.pos_length, by simpa using denotes.tracked_length,
      tracked_next, get_next⟩
    rw [level_update, ← same, show some (bucket old) = (values wid).map bucket by simp [old_eq],
      Function.update_eq_self]
    exact denotes.buckets.congr rfl rfl rfl
  · have buckets : Buckets { f with free := f.free.set wid value }
        fun other => (values other).map bucket := denotes.buckets.congr rfl rfl rfl
    obtain ⟨mid, mid_eq, mid_buckets, mid_free, mid_tracked, mid_length⟩ :=
      buckets.takeOut_spec wid (show _ = some (bucket old) by simp [old_eq])
    obtain ⟨next, next_eq, next_buckets, next_free, next_tracked, next_length⟩ :=
      mid_buckets.putIn_spec wid (bucket_lt value)
        (by rw [mid_length]; simpa [denotes.pos_length] using wid_lt) (by simp)
    refine ⟨next, ?_, ?_⟩
    · simp only [set, is_tracked, Bool.not_true, Bool.false_eq_true, if_false, read, same]
      rw [mid_eq]
      exact next_eq
    · constructor
      · rw [level_update]
        rwa [Function.update_idem] at next_buckets
      · rw [next_length, mid_length, next_free, mid_free]
        simpa using denotes.pos_length
      · rw [next_tracked, mid_tracked, next_free, mid_free]
        simpa using denotes.tracked_length
      · intro other
        rw [isTracked, next_tracked, mid_tracked]
        exact tracked_next other
      · intro other
        rw [get, next_free, mid_free]
        exact get_next other

/-- No worker is in a bucket above `maxFree`. -/
theorem Denotes.bucket_le_maxFree (denotes : f.Denotes values) {value : ℤ}
    (value_eq : values wid = some value) : bucket value ≤ f.maxFree := by
  have level_eq : (values wid).map bucket = some (bucket value) := by simp [value_eq]
  obtain ⟨src, idx, src_eq, -, at_idx⟩ := denotes.buckets.seated level_eq
  have src_ne : src ≠ [] := by
    rintro rfl
    simp at at_idx
  have bit := (denotes.buckets.bits src_eq).mpr src_ne
  have mask_ne : f.nonempty ≠ 0#64 := by
    intro mask_eq
    simp [mask_eq] at bit
  have below : f.nonempty.toNat < 2 ^ (64 - f.nonempty.clz.toNat) := BitVec.toNat_lt_two_pow_sub_clz
  have value_lt : 2 ^ bucket value ≤ f.nonempty.toNat := Nat.ge_two_pow_of_testBit bit
  have exponent_lt := (Nat.pow_lt_pow_iff_right (by decide)).mp (value_lt.trans_lt below)
  rw [maxFree, if_neg mask_ne, maxSlots]
  omega

/-- Bucket `maxFree` has a worker unless no worker has a free slot. -/
theorem Denotes.exists_maxFree (denotes : f.Denotes values) (positive : 0 < f.maxFree) :
    ∃ src first, f.byFree[f.maxFree]? = some src ∧ src.head? = some first ∧
      ∃ value, values first = some value ∧ bucket value = f.maxFree := by
  have mask_ne : f.nonempty ≠ 0#64 := by
    intro mask_eq
    simp [maxFree, mask_eq] at positive
  have bit : f.nonempty.getLsbD f.maxFree = true := by
    rw [maxFree, if_neg mask_ne]
    exact BitVec.getLsbD_true_clz_of_ne_zero (by decide) mask_ne
  have max_lt : f.maxFree < f.byFree.length := by
    rw [denotes.buckets.size_eq, maxFree, if_neg mask_ne, maxSlots]
    omega
  obtain ⟨src, src_eq⟩ : ∃ src, f.byFree[f.maxFree]? = some src := ⟨_, List.getElem?_eq_getElem max_lt⟩
  obtain ⟨first, rest, src_cons⟩ := List.exists_cons_of_ne_nil ((denotes.buckets.bits src_eq).mp bit)
  obtain ⟨level_eq, -⟩ := denotes.buckets.member src_eq (show src[0]? = some first by simp [src_cons])
  obtain ⟨value, value_eq, bucket_eq⟩ := Option.map_eq_some_iff.mp level_eq
  exact ⟨src, first, src_eq, by simp [src_cons], value, value_eq, bucket_eq⟩

end Raw

end FreeIndex

/-- A free-slot index whose vectors agree. -/
structure FreeIndex extends FreeIndex.Raw where
  denotes : toRaw.Denotes toRaw.valueOf

namespace FreeIndex

/-- A pushed worker's last slot count. -/
def value (f : FreeIndex) (wid : WorkerId) : Option ℤ := f.valueOf wid

/-- A raw index that describes some map is an index. -/
def ofDenotes (f : Raw) (values : WorkerId → Option ℤ) (denotes : f.Denotes values) :
    FreeIndex where
  toRaw := f
  denotes := by rwa [denotes.valueOf_eq]

theorem value_ofDenotes {f : Raw} {values : WorkerId → Option ℤ} (denotes : f.Denotes values) :
    (ofDenotes f values denotes).value = values :=
  denotes.valueOf_eq

/-- The index of no worker. -/
def empty : FreeIndex :=
  ofDenotes
    { free := [], pos := [], tracked := [], byFree := List.replicate 64 [], nonempty := 0 }
    (fun _ => none)
    { buckets :=
        { size_eq := by simp
          seated := fun _ _ level_eq => by simp at level_eq
          member := fun _ src _ _ src_eq at_idx => by
            obtain rfl : src = [] := List.eq_of_mem_replicate (List.mem_of_getElem? src_eq)
            simp at at_idx
          bits := fun _ src src_eq => by
            obtain rfl : src = [] := List.eq_of_mem_replicate (List.mem_of_getElem? src_eq)
            simp }
      pos_length := rfl
      tracked_length := rfl
      tracked_iff := fun wid => by simp [Raw.isTracked]
      get_eq := fun wid => by simp [Raw.get] }

@[simp] theorem value_empty (wid : WorkerId) : empty.value wid = none :=
  congrFun (value_ofDenotes _) wid

/-- Make a worker known with zero free slots. -/
def push (f : FreeIndex) (wid : WorkerId) : Except Error FreeIndex :=
  match eq : f.toRaw.push wid with
  | .error err => .error err
  | .ok next =>
    .ok (ofDenotes next (update f.value wid (some ((f.value wid).getD 0)))
      (by
        obtain ⟨next', next_eq, next_denotes⟩ := f.denotes.track_spec wid
        obtain rfl : next' = next := Except.ok.inj (next_eq.symm.trans (Raw.track_of_push eq))
        exact next_denotes))

/-- `push` for the placement core. -/
def track (f : FreeIndex) (wid : WorkerId) : Except Error FreeIndex :=
  match eq : f.toRaw.track wid with
  | .error err => .error err
  | .ok next =>
    .ok (ofDenotes next (update f.value wid (some ((f.value wid).getD 0)))
      (by
        obtain ⟨next', next_eq, next_denotes⟩ := f.denotes.track_spec wid
        obtain rfl : next' = next := Except.ok.inj (next_eq.symm.trans eq)
        exact next_denotes))

/-- Give a known worker another slot count. -/
def set (f : FreeIndex) (wid : WorkerId) (val : ℤ) : Except Error FreeIndex :=
  match eq : f.toRaw.set wid val with
  | .error err => .error err
  | .ok next =>
    .ok (ofDenotes next (update f.value wid (some val)) (by
      have known : (f.value wid).isSome := by
        by_contra unknown
        have not_tracked : f.isTracked wid = false :=
          Bool.eq_false_iff.mpr fun is_tracked => unknown ((f.denotes.tracked_iff wid).mp is_tracked)
        simp [Raw.set, not_tracked] at eq
      obtain ⟨next', next_eq, next_denotes⟩ := f.denotes.set_spec known val
      obtain rfl : next' = next := Except.ok.inj (next_eq.symm.trans eq)
      exact next_denotes))

theorem track_ok (f : FreeIndex) (wid : WorkerId) :
    ∃ next, f.track wid = .ok next ∧
      next.value = update f.value wid (some ((f.value wid).getD 0)) := by
  obtain ⟨raw, raw_eq, -⟩ := f.denotes.track_spec wid
  unfold track
  split
  · rename_i eq
    simp [raw_eq] at eq
  · exact ⟨_, rfl, value_ofDenotes _⟩

theorem push_ok (f : FreeIndex) {wid : ℕ} (fits : wid + 1 < 2 ^ 32) :
    ∃ next, f.push wid = .ok next ∧
      next.value = update f.value wid (some ((f.value wid).getD 0)) := by
  obtain ⟨raw, raw_eq, -⟩ := f.denotes.track_spec wid
  rw [← Raw.push_of_fits fits] at raw_eq
  unfold push
  split
  · rename_i eq
    simp [raw_eq] at eq
  · exact ⟨_, rfl, value_ofDenotes _⟩

theorem set_ok (f : FreeIndex) (known : (f.value wid).isSome) (val : ℤ) :
    ∃ next, f.set wid val = .ok next ∧ next.value = update f.value wid (some val) := by
  obtain ⟨raw, raw_eq, -⟩ := f.denotes.set_spec known val
  unfold set
  split
  · rename_i eq
    simp [raw_eq] at eq
  · exact ⟨_, rfl, value_ofDenotes _⟩

theorem get_eq (f : FreeIndex) (wid : WorkerId) : f.get wid = (f.value wid).getD 0 := f.denotes.get_eq wid

/-- Some worker has a free slot exactly if `maxFree` is positive. -/
theorem maxFree_pos_iff (f : FreeIndex) : 0 < f.maxFree ↔ ∃ wid val, f.value wid = some val ∧ 0 < val := by
  constructor
  · intro positive
    obtain ⟨-, first, -, -, val, val_eq, bucket_eq⟩ := f.denotes.exists_maxFree positive
    exact ⟨first, val, val_eq, (bucket_pos_iff val).mp (bucket_eq ▸ positive)⟩
  · rintro ⟨wid, val, val_eq, val_pos⟩
    exact ((bucket_pos_iff val).mpr val_pos).trans_le (f.denotes.bucket_le_maxFree val_eq)

/-- `emptiest` names a worker with a free slot, and one with the most if counts are in range. -/
theorem emptiest_eq_some {f : FreeIndex} (wid_eq : f.emptiest = some wid) :
    ∃ val, f.value wid = some val ∧ 0 < val ∧
      ∀ other otherVal, f.value other = some otherVal → bucket otherVal ≤ bucket val := by
  have positive : 0 < f.maxFree := by
    by_contra zero
    simp [Raw.emptiest, Nat.eq_zero_of_not_pos zero] at wid_eq
  obtain ⟨src, first, src_eq, first_eq, val, val_eq, bucket_eq⟩ := f.denotes.exists_maxFree positive
  obtain rfl : first = wid := by
    simpa [Raw.emptiest, positive.ne', src_eq, first_eq] using wid_eq
  refine ⟨val, val_eq, (bucket_pos_iff val).mp (bucket_eq ▸ positive), ?_⟩
  intro other otherVal other_eq
  exact bucket_eq ▸ f.denotes.bucket_le_maxFree other_eq

/-- `emptiest` is silent only if no worker has a free slot. -/
theorem emptiest_eq_none_iff (f : FreeIndex) :
    f.emptiest = none ↔ ∀ wid val, f.value wid = some val → val ≤ 0 := by
  constructor
  · intro none_eq wid val val_eq
    by_contra positive
    have max_pos := f.maxFree_pos_iff.mpr ⟨wid, val, val_eq, not_le.mp positive⟩
    obtain ⟨src, first, src_eq, first_eq, -⟩ := f.denotes.exists_maxFree max_pos
    simp [Raw.emptiest, max_pos.ne', src_eq, first_eq] at none_eq
  · intro no_slot
    by_contra some_ne
    obtain ⟨wid, wid_eq⟩ := Option.ne_none_iff_exists'.mp some_ne
    obtain ⟨val, val_eq, val_pos, -⟩ := emptiest_eq_some wid_eq
    exact absurd val_pos (not_lt.mpr (no_slot wid val val_eq))

/-! ## Histories -/

/-- What is done to an index. -/
inductive Op
  | push (wid : WorkerId)
  | set (wid : WorkerId) (val : ℤ)

/-- The index after an operation. -/
def Op.perform (f : FreeIndex) : Op → Except Error FreeIndex
  | .push wid => f.push wid
  | .set wid val => f.set wid val

/-- The last values after an operation; a worker that was pushed and never set has zero. -/
def Op.denote (values : WorkerId → Option ℤ) : Op → WorkerId → Option ℤ
  | .push wid => update values wid (some ((values wid).getD 0))
  | .set wid val => update values wid (some val)

/-- Values are set of pushed workers only. -/
def SetsPushed (values : WorkerId → Option ℤ) : List Op → Prop
  | [] => True
  | .push wid :: ops => SetsPushed (Op.denote values (.push wid)) ops
  | .set wid val :: ops => (values wid).isSome ∧ SetsPushed (Op.denote values (.set wid val)) ops

/-- All operations one after the other on an index of no worker. -/
def run (ops : List Op) : Except Error FreeIndex := ops.foldlM Op.perform empty

/-- The last value of each pushed worker. -/
def lastValues (ops : List Op) : WorkerId → Option ℤ := ops.foldl Op.denote fun _ => none

/-- A worker that is pushed has a number below the largest. -/
def Op.Fits : Op → Prop
  | .push wid => wid + 1 < 2 ^ 32
  | .set _ _ => True

theorem foldlM_perform_ok (f : FreeIndex) {ops : List Op} (sets : SetsPushed f.value ops)
    (fits : ∀ op ∈ ops, op.Fits) :
    ∃ next, ops.foldlM Op.perform f = .ok next ∧ next.value = ops.foldl Op.denote f.value := by
  induction ops generalizing f with
  | nil => exact ⟨f, rfl, rfl⟩
  | cons op ops ih =>
    have performed : ∃ mid, op.perform f = .ok mid ∧ mid.value = op.denote f.value ∧ SetsPushed mid.value ops := by
      cases op with
      | push wid =>
        obtain ⟨mid, pushed, value_eq⟩ := f.push_ok (fits _ List.mem_cons_self)
        exact ⟨mid, pushed, value_eq, value_eq ▸ sets⟩
      | set wid val =>
        obtain ⟨mid, was_set, value_eq⟩ := f.set_ok sets.1 val
        exact ⟨mid, was_set, value_eq, value_eq ▸ sets.2⟩
    obtain ⟨mid, performed, mid_eq, rest_sets⟩ := performed
    obtain ⟨next, rest, next_eq⟩ := ih mid rest_sets fun op mem => fits op (List.mem_cons_of_mem _ mem)
    refine ⟨next, ?_, by rw [next_eq, mid_eq, List.foldl_cons]⟩
    rw [List.foldlM_cons, performed]
    exact rest

/-- Whatever is pushed and set, no error is raised and the index is exact: each pushed worker sits in
the bucket of its last value, at its position and nowhere else, the mask tells the buckets that have
a worker, and the largest value and a worker with it are found.  Only the worker with the largest
32-bit number cannot be pushed. -/
theorem free_slots_exact (ops : List Op) (sets : SetsPushed (fun _ => none) ops)
    (fits : ∀ op ∈ ops, op.Fits) :
    ∃ f, run ops = .ok f ∧ f.byFree.length = 64 ∧
      (∀ wid val, lastValues ops wid = some val →
        ∃ src idx, f.byFree[bucket val]? = some src ∧ f.pos[wid]? = some idx ∧ src[idx]? = some wid) ∧
      (∀ lvl src idx wid, f.byFree[lvl]? = some src → src[idx]? = some wid →
        (lastValues ops wid).map bucket = some lvl ∧ f.pos[wid]? = some idx) ∧
      (∀ lvl src, f.byFree[lvl]? = some src → (f.nonempty.getLsbD lvl = true ↔ src ≠ [])) ∧
      (∀ wid, f.get wid = (lastValues ops wid).getD 0) ∧
      (∀ wid val, lastValues ops wid = some val → bucket val ≤ f.maxFree) ∧
      (0 < f.maxFree → ∃ wid val, f.emptiest = some wid ∧ lastValues ops wid = some val ∧ bucket val = f.maxFree) ∧
      (f.maxFree = 0 → f.emptiest = none) := by
  obtain ⟨f, ran, value_eq⟩ := @foldlM_perform_ok empty ops (funext value_empty ▸ sets) fits
  rw [show empty.value = fun _ => none from funext value_empty, ← lastValues] at value_eq
  have denotes : f.Denotes (lastValues ops) := value_eq ▸ f.denotes
  refine ⟨f, ran, denotes.buckets.size_eq, fun wid val last => denotes.buckets.seated (by simp [last]),
    fun lvl src idx wid src_eq at_idx => denotes.buckets.member src_eq at_idx, denotes.buckets.bits, denotes.get_eq,
    fun wid val last => denotes.bucket_le_maxFree last, fun positive => ?_, fun zero => if_pos zero⟩
  obtain ⟨src, first, src_eq, first_eq, val, last, bucket_eq⟩ := denotes.exists_maxFree positive
  refine ⟨first, val, ?_, last, bucket_eq⟩
  rw [Raw.emptiest, if_neg positive.ne', src_eq, Option.bind_some, first_eq]

/-- A worker goes below zero and another gets two slots. -/
theorem free_slots_exact_twoWorkers :
    ∃ f, run [.push 1, .push 0, .set 1 (-2), .set 0 2] = .ok f ∧ f.get 1 = -2 ∧ 2 ≤ f.maxFree := by
  obtain ⟨f, ran, -, -, -, -, get_eq, le, -⟩ :=
    free_slots_exact [.push 1, .push 0, .set 1 (-2), .set 0 2] ⟨rfl, rfl, trivial⟩ (by simp [Op.Fits])
  exact ⟨f, ran, get_eq 1, le 0 2 rfl⟩

/-- For the largest 32-bit number the new size of the vectors wraps around to zero: the push fails,
and the counts of all workers are lost. -/
theorem largest_id_not_pushed :
    SetsPushed (fun _ => none) [.push 0, .set 0 2, .push 4294967295] ∧
      run [.push 0, .set 0 2, .push 4294967295] = .error .outOfRange ∧
      ∃ f, run [.push 0, .set 0 2] = .ok f ∧ f.get 0 = 2 ∧
        (f.resize ((4294967295 + 1) % 2 ^ 32)).get 0 = 0 := by
  exact ⟨⟨rfl, trivial⟩, rfl, _, rfl, rfl, rfl⟩

end FreeIndex

end NixGrpcStore.Sched
