import NixGrpcStore.Sched.Placeability
import NixGrpcStore.Sched.ClientOps

/-!
# Who follows which slot

What holds of the followers of entries whatever else is in the core, so also after an operation that
threw half-way.  Only a Want makes a client a follower, and it notes the slot under the client; so a
client that leaves is taken off every entry it follows, although the slots noted under it may have
been given to other derivations.
-/

namespace NixGrpcStore.Sched

open Function (update update_of_ne update_self)
open Option (bind_assoc bind_some)
open StateExcept

namespace Core

/-- A client follows the entry in a slot. -/
def FollowsAt (s : Core) (drv : DrvId) (client : ClientId) : Prop :=
  ∃ ent, s.entry drv = some ent ∧ client ∈ ent.followers

/-- Every slot that a client follows is noted under the client. -/
def Traced (s : Core) : Prop :=
  ∀ drv client, s.FollowsAt drv client → drv ∈ (s.follows.lookup client).getD []

/-- Nobody follows more than before. -/
structure Sheds (s s' : Core) : Prop where
  follows_eq : s'.follows = s.follows
  fewer : ∀ drv client, s'.FollowsAt drv client → s.FollowsAt drv client
  bound : s.entries.length ≤ maxEntries → s'.entries.length ≤ maxEntries

instance : Std.Refl Sheds where
  refl _ := ⟨rfl, fun _ _ => id, id⟩

instance : IsTrans Core Sheds where
  trans _ _ _ first second :=
    ⟨second.follows_eq.trans first.follows_eq,
      fun drv client follows => first.fewer drv client (second.fewer drv client follows),
      fun bound => second.bound (first.bound bound)⟩

theorem Sheds.traced {s s' : Core} (sheds : Sheds s s') (traced : Traced s) : Traced s' := by
  intro drv client follows
  rw [sheds.follows_eq]
  exact traced drv client (sheds.fewer drv client follows)

section Reads

variable {R : Core → Core → Prop} [Std.Refl R] {α : Type} {wid : WorkerId} {drv : DrvId}

/-- A worker is read, and then the rest runs in the same state. -/
theorem respects_workerAt_bind {f : Worker → CoreM α}
    (rest : ∀ s wkr, s.workers[wid]? = some wkr → R s (after (f wkr s))) :
    Respects R (workerAt wid >>= f) := by
  intro s
  unfold workerAt
  cases get_eq : s.workers[wid]? with
  | none =>
    simp only [bind_apply, get_apply, get_eq, throw_apply, after_error]
    exact Std.Refl.refl s
  | some wkr =>
    simp only [bind_apply, get_apply, get_eq, pure_apply]
    exact rest s wkr get_eq

/-- An entry is read, and then the rest runs in the same state. -/
theorem respects_entryAt_bind {f : Option Entry → CoreM α}
    (rest : ∀ s slot, s.entries[drv]? = some slot → s.entry drv = slot → R s (after (f slot s))) :
    Respects R (entryAt drv >>= f) := by
  intro s
  unfold entryAt
  cases slot_eq : s.entries[drv]? with
  | none =>
    simp only [bind_apply, get_apply, slot_eq, throw_apply, after_error]
    exact Std.Refl.refl s
  | some slot =>
    simp only [bind_apply, get_apply, slot_eq, pure_apply]
    exact rest s slot slot_eq (by simp [entry, slot_eq])

theorem respects_workerAt (wid : WorkerId) : Respects R (workerAt wid) := by
  rw [← bind_pure (workerAt wid)]
  exact respects_workerAt_bind fun s _ _ => Std.Refl.refl s

theorem respects_entryAt (drv : DrvId) : Respects R (entryAt drv) := by
  rw [← bind_pure (entryAt drv)]
  exact respects_entryAt_bind fun s _ _ _ => Std.Refl.refl s

theorem respects_onSystems (lax : ∀ (s : Core) systems, R s { s with systems })
    (change : Systems → Except Error Systems) : Respects R (onSystems change) := by
  intro s
  unfold onSystems
  cases change s.systems with
  | ok => exact lax s _
  | error => exact Std.Refl.refl s

variable [IsTrans Core R]

theorem respects_loseTo (released : ∀ wid, Respects R (release wid drv)) (wid : WorkerId)
    (ent : Entry) : Respects R (loseTo wid drv ent) := by
  unfold loseTo
  cases ent.worker with
  | none => exact respects_pure _
  | some other =>
    simp only
    split_ifs
    · exact respects_pure _
    · exact (released other).bind fun _ => respects_pure _

theorem respects_adoptAll (adopted : ∀ path assignId, Respects R (adopt wid path assignId))
    (running : List (String × ℕ)) : Respects R (adoptAll wid running) := by
  induction running with
  | nil => exact respects_pure []
  | cons report running ih => exact (adopted report.1 report.2).bind fun _ => ih.bind fun _ => respects_pure _

/-- A relation respects the steps of which the operations of workers are made. -/
structure Allows (R : Core → Core → Prop) : Prop where
  release : ∀ wid drv, Respects R (release wid drv)
  retire : ∀ drv, Respects R (retire drv)
  requeue : ∀ s drv ent avoid, s.entry drv = some ent →
    R s (after (requeue drv { ent with worker := none, avoid } s))
  takeId : Respects R takeId
  note : ∀ (s : Core) drvIds lastBuilder, R s { s with drvIds, lastBuilder }

section Compound

variable (allows : Allows R)
include allows

theorem Allows.drvId (path : String) : Respects R (Core.drvId path) := by
  refine respects_get.bind fun s => ?_
  cases s.drvIds.lookup (PathKey.ofPath path) with
  | some drv => exact respects_pure drv
  | none =>
    exact allows.takeId.bind fun _ => Respects.bind (respects_modify fun s => allows.note s _ s.lastBuilder)
      fun _ => respects_pure _

variable (wid : WorkerId)

theorem Allows.requeueAll (drvs : List DrvId) : Respects R (Core.requeueAll wid drvs) := by
  induction drvs with
  | nil => exact respects_pure ()
  | cons drv drvs ih =>
    intro s
    rw [Core.requeueAll, bind_get_apply]
    cases live : (s.entries[drv]?).join with
    | none => exact ih s
    | some ent =>
      simp only
      split_ifs
      · exact respects_bind_at (allows.requeue s drv ent ent.avoid live) fun _ _ _ => ih _
      · exact ih s

theorem Allows.takeOff (drv : DrvId) {next : Entry → CoreM Unit}
    (rest : ∀ s ent, s.entry drv = some ent → R s (after (next ent s))) :
    Respects R (Core.takeOff wid drv next) := by
  refine (allows.release wid drv).bind fun _ => respects_entryAt_bind fun s slot _ live => ?_
  cases slot with
  | none => exact Std.Refl.refl s
  | some ent =>
    simp only
    split_ifs
    · exact rest s ent live
    · exact Std.Refl.refl s

theorem Allows.done (drvPath : String) (outputs : List (String × ℕ)) :
    Respects R (Core.done wid drvPath outputs) := by
  have remembered : Respects R (rememberAll wid outputs) := by
    induction outputs with
    | nil => exact respects_pure ()
    | cons output outputs ih =>
      exact Respects.bind (respects_modify fun s => allows.note s s.drvIds _) fun _ => ih
  refine (respects_workerAt wid).bind fun _ => remembered.bind fun _ => respects_get.bind fun s => ?_
  cases s.findDrv drvPath with
  | none => exact respects_pure ()
  | some drv => exact allows.takeOff wid drv fun s _ _ => allows.retire drv s

theorem Allows.giveBack (drvPath : String) : Respects R (Core.giveBack wid drvPath) := by
  refine respects_get.bind fun s => ?_
  cases s.findDrv drvPath with
  | none => exact respects_pure ()
  | some drv => exact allows.takeOff wid drv fun s ent => allows.requeue s drv ent _

end Compound

end Reads

section Steps

variable {s : Core} {drv : DrvId}

theorem sheds_of_entries {s s' : Core} (follows_eq : s'.follows = s.follows)
    (entries_eq : s'.entries = s.entries) : Sheds s s' := by
  refine ⟨follows_eq, fun drv client follows => ?_, fun bound => entries_eq ▸ bound⟩
  simpa only [FollowsAt, entry, entries_eq] using follows

/-- A slot is written; whoever follows the new entry followed the old one. -/
theorem sheds_set (slot : Option Entry)
    (own : ∀ ent, slot = some ent → ∀ client ∈ ent.followers, s.FollowsAt drv client) :
    Sheds s { s with entries := s.entries.set drv slot } := by
  refine ⟨rfl, fun other client follows => ?_, fun bound => by simpa using bound⟩
  obtain ⟨ent, live, mem⟩ := follows
  by_cases known : drv < s.entries.length
  · rw [entry_set known] at live
    by_cases same : other = drv
    · subst same
      rw [update_self] at live
      exact own ent live client mem
    · rw [update_of_ne same] at live
      exact ⟨ent, live, mem⟩
  · rw [List.set_eq_of_length_le (Nat.le_of_not_lt known)] at live
    exact ⟨ent, live, mem⟩

theorem sheds_onSystems (change : Systems → Except Error Systems) :
    Respects Sheds (onSystems change) :=
  respects_onSystems (fun _ _ => sheds_of_entries rfl rfl) change

theorem sheds_setWorker (wid : WorkerId) (wkr : Worker) : Respects Sheds (setWorker wid wkr) :=
  respects_modify fun _ => sheds_of_entries rfl rfl

theorem sheds_refreshFree (wid : WorkerId) : Respects Sheds (refreshFree wid) :=
  (respects_workerAt wid).bind fun _ => sheds_onSystems _

theorem sheds_enqueue (drv : DrvId) (ent : Entry) : Respects Sheds (enqueue drv ent) :=
  respects_get.bind fun _ => sheds_onSystems _

theorem sheds_unqueue (drv : DrvId) (ent : Entry) : Respects Sheds (unqueue drv ent) := by
  refine respects_get.bind fun s => ?_
  split_ifs
  · refine (sheds_onSystems _).bind fun _ => respects_modify fun s => ?_
    split_ifs
    · exact sheds_of_entries rfl rfl
    · exact Std.Refl.refl s
  · exact respects_pure ()

theorem sheds_retire (drv : DrvId) : Respects Sheds (retire drv) := by
  refine (respects_entryAt drv).bind fun slot => ?_
  cases slot with
  | none => exact respects_pure ()
  | some ent =>
    refine (sheds_unqueue drv ent).bind fun _ => respects_modify fun s => ?_
    obtain ⟨-, fewer, bound⟩ := @sheds_set s drv none (by simp)
    exact ⟨rfl, fewer, bound⟩

theorem sheds_takeId : Respects Sheds takeId := by
  intro s
  unfold takeId
  rw [bind_get_apply]
  cases s.freeIds with
  | cons drv freeIds => exact sheds_of_entries rfl rfl
  | nil =>
    simp only
    split_ifs with full
    · exact Std.Refl.refl s
    · refine ⟨rfl, fun drv client follows => ?_, fun _ => ?_⟩
      · obtain ⟨ent, live, mem⟩ := follows
        refine ⟨ent, ?_, mem⟩
        simp only [bind_set_apply, pure_apply, after_ok, entry, List.getElem?_append] at live
        split_ifs at live with known
        · exact live
        · by_cases last : drv - s.entries.length = 0 <;> simp [last] at live
      · simp only [bind_set_apply, pure_apply, after_ok, List.length_append, List.length_singleton]
        omega

/-! ## Operations of workers -/

theorem sheds_release (wid : WorkerId) (drv : DrvId) : Respects Sheds (release wid drv) :=
  (respects_workerAt wid).bind fun _ => (sheds_setWorker _ _).bind fun _ => sheds_refreshFree wid

/-- An entry is put back with the followers it has. -/
theorem sheds_requeue {ent : Entry} (own : ∀ client ∈ ent.followers, s.FollowsAt drv client) :
    Sheds s (after (requeue drv ent s)) := by
  unfold requeue
  refine respects_bind_at ?_ fun _ _ _ => ?_
  · exact sheds_set (some ent) fun _ same => Option.some.inj same ▸ own
  · split_ifs
    · exact sheds_retire drv _
    · exact sheds_enqueue drv ent _

theorem sheds_allows : Allows Sheds where
  release := sheds_release
  retire := sheds_retire
  requeue _ _ ent _ live := sheds_requeue fun _ mem => ⟨ent, live, mem⟩
  takeId := sheds_takeId
  note _ _ _ := sheds_of_entries rfl rfl

section Worker

variable (wid : WorkerId)

theorem sheds_workerGone : Respects Sheds (workerGone wid) :=
  (respects_workerAt wid).bind fun _ => Respects.bind (respects_modify fun _ => sheds_of_entries rfl rfl) fun _ =>
    (sheds_refreshFree wid).bind fun _ =>
      Respects.bind (respects_modify fun _ => sheds_of_entries rfl rfl) fun _ => sheds_allows.requeueAll wid _

theorem sheds_setDraining (draining : Bool) : Respects Sheds (setDraining wid draining) :=
  (respects_workerAt wid).bind fun _ => (sheds_setWorker _ _).bind fun _ => sheds_refreshFree wid

/-- The table of derivations stays as it is. -/
def SameEntries (s s' : Core) : Prop := s'.entries = s.entries

instance : Std.Refl SameEntries where
  refl _ := rfl

instance : IsTrans Core SameEntries where
  trans _ _ _ first second := second.trans first

/-- What a Hello does between reading an entry and writing it leaves the entries alone. -/
theorem sameEntries_loseTo (drv : DrvId) (ent : Entry) :
    Respects SameEntries (loseTo wid drv ent) :=
  respects_loseTo (fun other => (respects_workerAt other).bind fun _ => Respects.bind (respects_modify fun _ => rfl)
    fun _ => (respects_workerAt other).bind fun _ => respects_onSystems (fun _ _ => rfl) _) wid ent

theorem sheds_adopt (path : String) (assignId : ℕ) : Respects Sheds (adopt wid path assignId) := by
  refine (sheds_allows.drvId path).bind fun drv => respects_entryAt_bind fun s slot _ live => ?_
  refine respects_bind_at (respects_loseTo (sheds_release · drv) wid _ s) fun superseded mid ran => ?_
  have mid_entry : mid.entry drv = slot := by
    have kept := sameEntries_loseTo wid drv (slot.getD { drvPath := path }) s
    rw [ran] at kept
    rw [← live, entry, entry, ← kept]
    rfl
  refine respects_bind_at (sheds_set _ fun ent same client mem => ?_) fun _ mid' _ => ?_
  · cases same
    cases slot with
    | none => simp at mem
    | some ent => exact ⟨ent, mid_entry, mem⟩
  · refine respects_bind_at ?_ fun _ _ _ => respects_pure _ _
    refine ((sheds_onSystems _).bind fun _ => (respects_workerAt wid).bind fun wkr => ?_) mid'
    split_ifs
    · exact respects_pure ()
    · exact sheds_setWorker _ _

end Worker

theorem sheds_workerId (addr : String) : Respects Sheds (workerId addr) := by
  intro s
  rw [workerId, bind_get_apply]
  cases s.workerIds.lookup addr with
  | some wid => exact Std.Refl.refl s
  | none => exact sheds_of_entries rfl rfl

theorem sheds_hello (info : HelloInfo) : Respects Sheds (hello info) := by
  unfold hello
  split_ifs
  · exact respects_throw _
  · refine (sheds_workerId _).bind fun wid => Respects.bind ?_ fun _ => Respects.bind ?_ fun _ =>
      (respects_adoptAll (sheds_adopt wid) _).bind fun _ => (sheds_refreshFree wid).bind fun _ => respects_pure _
    · refine (respects_workerAt wid).bind fun wkr => ?_
      split_ifs
      · exact sheds_workerGone wid
      · exact respects_pure ()
    · exact (respects_workerAt wid).bind fun _ =>
        Respects.bind (respects_modify fun _ => sheds_of_entries rfl rfl) fun _ => sheds_onSystems _

/-! ## Placement -/

theorem sheds_assign {ent : Entry} (wid : WorkerId) (live : s.entry drv = some ent) :
    Sheds s (after (assign drv ent wid s)) := by
  unfold assign
  rw [bind_get_apply, bind_modify_apply]
  refine IsTrans.trans _ { s with lastAssignId := s.lastAssignId + 1 } _ (sheds_of_entries rfl rfl) ?_
  refine respects_bind_at (sheds_set _ fun new same client mem => ?_) fun _ mid _ => ?_
  · cases same
    exact ⟨ent, live, mem⟩
  · exact ((respects_workerAt wid).bind fun _ => (sheds_setWorker _ _).bind fun _ =>
      (sheds_refreshFree wid).bind fun _ =>
      respects_pure _) mid

theorem sheds_dispatchHead (system : String) : Respects Sheds (dispatchHead system) := by
  refine respects_get.bind fun _ => (sheds_onSystems _).bind fun _ => respects_entryAt_bind fun s slot _ live => ?_
  cases slot with
  | none => exact Std.Refl.refl s
  | some ent =>
    simp only
    split_ifs
    · exact ((sheds_retire _).bind fun _ => respects_pure HeadResult.stale) s
    · exact Std.Refl.refl s
    · rw [bind_get_apply]
      cases s.pick ent with
      | none => exact Std.Refl.refl s
      | some wid => exact respects_bind_at (sheds_assign wid live) fun _ _ _ => respects_pure _ _

theorem sheds_dispatchLoop (order : VisitOrder) (rounds : ℕ) :
    Respects Sheds (dispatchLoop order rounds) := by
  induction rounds with
  | zero => exact respects_pure _
  | succ rounds ih =>
    refine respects_get.bind fun s => ?_
    cases s.bestSystem order with
    | none => exact respects_pure _
    | some best =>
      refine (sheds_dispatchHead _).bind fun result => ih.bind fun _ => ?_
      cases result with
      | stale => exact respects_pure _
      | skipped => exact respects_pure _
      | assigned => exact respects_pure _

theorem sheds_dispatch (order : VisitOrder) : Respects Sheds (dispatch order) := by
  have put_back : ∀ skipped, Respects Sheds (putBack skipped) := by
    intro skipped
    induction skipped with
    | nil => exact respects_pure ()
    | cons skip skipped ih => exact (sheds_onSystems _).bind fun _ => ih
  exact respects_get.bind fun _ => (sheds_dispatchLoop order _).bind fun _ => (put_back _).bind fun _ =>
    respects_pure _

theorem sheds_markUnplaceable (drv : DrvId) (flag : Bool) : Respects Sheds (markUnplaceable drv flag) := by
  refine respects_entryAt_bind fun s slot _ live => ?_
  cases slot with
  | none => exact Std.Refl.refl s
  | some ent =>
    refine sheds_set _ fun new same client mem => ?_
    cases same
    exact ⟨ent, live, mem⟩

theorem sheds_placeabilityChanges : Respects Sheds placeabilityChanges := by
  intro s
  have right : Memo.Right ∅ s.placeable := by simp [Memo.Right]
  obtain ⟨slots_eq, -⟩ := flipAll_spec s.placeable_congr 0 right s.entries
  rw [placeabilityChanges, bind_get_apply]
  simp only [bind_set_apply, pure_apply, after_ok, slots_eq]
  refine ⟨rfl, fun drv client follows => ?_, fun bound => by simpa using bound⟩
  obtain ⟨new, live, mem⟩ := follows
  have live : ((s.entries.map (Option.map (withFlag s.placeable)))[drv]?).join = some new := live
  rw [List.getElem?_map] at live
  cases slot_eq : s.entries[drv]? with
  | none => simp [slot_eq] at live
  | some slot =>
    cases slot with
    | none => simp [slot_eq] at live
    | some ent =>
      simp only [slot_eq, Option.map_some, Option.join_some, Option.some.injEq] at live
      rw [← live, withFlag_followers] at mem
      exact ⟨ent, by simp [entry, slot_eq], mem⟩

/-! ## Operations of clients -/

theorem sheds_cancelId (client : ClientId) (drv : DrvId) : Respects Sheds (cancelId client drv) := by
  intro s
  rw [cancelId, bind_get_apply]
  cases live : (s.entries[drv]?).join with
  | none => exact Std.Refl.refl s
  | some ent =>
    simp only
    split_ifs
    swap
    · exact Std.Refl.refl s
    · refine respects_bind_at (R := Sheds) (sheds_set _ fun new same other mem => ?_) fun _ mid _ => ?_
      · cases same
        exact ⟨ent, live, (List.mem_filter.mp mem).1⟩
      · cases ent.followers.filter (· ≠ client) with
        | nil =>
          cases ent.worker with
          | none => exact ((sheds_retire drv).bind fun _ => respects_pure none) mid
          | some wid => exact Std.Refl.refl mid
        | cons first others =>
          cases ent.worker with
          | none => exact ((sheds_enqueue drv _).bind fun _ => respects_pure none) mid
          | some wid => exact Std.Refl.refl mid

theorem sheds_cancel (client : ClientId) (drvPath : String) : Respects Sheds (cancel client drvPath) := by
  refine respects_get.bind fun s => ?_
  cases s.findDrv drvPath with
  | none => exact respects_pure none
  | some drv => exact sheds_cancelId client drv

/-- At most one client follows more than before, and what it follows is noted. -/
structure Joins (client : ClientId) (s s' : Core) : Prop where
  fewer : ∀ drv other, s'.FollowsAt drv other → s.FollowsAt drv other ∨ other = client
  traced : Traced s → Traced s'
  bound : s.entries.length ≤ maxEntries → s'.entries.length ≤ maxEntries

variable {client : ClientId}

instance : Std.Refl (Joins client) where
  refl _ := ⟨fun _ _ => .inl, id, id⟩

instance : IsTrans Core (Joins client) where
  trans _ _ _ first second :=
    ⟨fun drv other follows => (second.fewer drv other follows).elim (first.fewer drv other) .inr,
      fun traced => second.traced (first.traced traced), fun bound => second.bound (first.bound bound)⟩

theorem Sheds.joins {s' : Core} (sheds : Sheds s s') : Joins client s s' :=
  ⟨fun drv other follows => .inl (sheds.fewer drv other follows), sheds.traced, sheds.bound⟩

/-- The client is written into the entry and the slot is noted under the client. -/
theorem joins_set (info : WantInfo) (nowMs : ℚ) (client : ClientId) :
    Joins client s
      { s with
        follows := noteFollow s client drv (wantedEntry info nowMs (s.entry drv))
        entries := s.entries.set drv (some (wantEntry client info nowMs (s.entry drv))) } := by
  have followers_iff : ∀ other, other ∈ (wantedEntry info nowMs (s.entry drv)).followers ↔
      s.FollowsAt drv other := by
    intro other
    cases live : s.entry drv with
    | none => simp [wantedEntry, FollowsAt, live]
    | some ent => simp [wantedEntry_some, FollowsAt, live]
  have noted : ∀ other, ∀ slot ∈ (s.follows.lookup other).getD [],
      slot ∈ ((noteFollow s client drv (wantedEntry info nowMs (s.entry drv))).lookup other).getD [] := by
    intro other slot mem
    unfold noteFollow
    split_ifs
    · exact mem
    · by_cases same : other = client
      · subst same
        simp [mem]
      · rwa [AList.lookup_insert_ne same]
  have live_cases : ∀ {other ent}, (Core.entry { s with
      follows := noteFollow s client drv (wantedEntry info nowMs (s.entry drv))
      entries := s.entries.set drv (some (wantEntry client info nowMs (s.entry drv))) } other) = some ent →
      s.entry other = some ent ∨ other = drv ∧ ent = wantEntry client info nowMs (s.entry drv) := by
    intro other ent live
    have live : ((s.entries.set drv (some (wantEntry client info nowMs (s.entry drv))))[other]?).join = some ent :=
      live
    by_cases known : drv < s.entries.length
    · have updated := congrFun (join_getElem?_set known (some (wantEntry client info nowMs (s.entry drv)))) other
      rw [updated] at live
      by_cases same : other = drv
      · subst same
        rw [update_self] at live
        exact .inr ⟨rfl, (Option.some.inj live).symm⟩
      · rw [update_of_ne same] at live
        exact .inl live
    · rw [List.set_eq_of_length_le (Nat.le_of_not_lt known)] at live
      exact .inl live
  refine ⟨?_, ?_, fun bound => by simpa using bound⟩
  · rintro other follower ⟨ent, live, mem⟩
    rcases live_cases live with old | ⟨rfl, rfl⟩
    · exact .inl ⟨ent, old, mem⟩
    · rcases (mem_wantEntry_followers client info nowMs _).mp mem with is_client | ⟨old, old_live, old_mem⟩
      · exact .inr is_client
      · exact .inl ⟨old, old_live, old_mem⟩
  · rintro traced other follower ⟨ent, live, mem⟩
    rcases live_cases live with old | ⟨rfl, rfl⟩
    · exact noted follower other (traced other follower ⟨ent, old, mem⟩)
    · rcases (mem_wantEntry_followers client info nowMs _).mp mem with rfl | ⟨old, old_live, old_mem⟩
      · by_cases already : s.FollowsAt other follower
        · exact noted follower other (traced other follower already)
        · have absent := (followers_iff follower).not.mpr already
          simp [noteFollow, absent]
      · exact noted follower other (traced other follower ⟨old, old_live, old_mem⟩)

theorem joins_want (client : ClientId) (info : WantInfo) (nowMs : ℚ) :
    Respects (Joins client) (want client info nowMs) := by
  intro s
  have named : Joins client s _ := (sheds_allows.drvId info.drvPath s).joins
  cases found : drvId info.drvPath s with
  | error err mid =>
    rw [want, bind_of_error found]
    rwa [found] at named
  | ok drv mid =>
    rw [found] at named
    refine IsTrans.trans _ mid _ named ?_
    cases slot_eq : mid.entries[drv]? with
    | none =>
      have threw : entryAt drv mid = .error .outOfRange mid := by simp [entryAt, slot_eq]
      rw [want, bind_of_ok found, bind_of_error threw]
      exact Std.Refl.refl mid
    | some slot =>
      have slot_entry : mid.entry drv = slot := by simp [entry, slot_eq]
      have joined := @joins_set mid drv info nowMs client
      rw [want_of_drvId found slot_eq]
      rw [slot_entry] at joined
      refine IsTrans.trans _ _ _ joined ?_
      cases (wantEntry client info nowMs slot).worker with
      | some wid => exact Std.Refl.refl _
      | none => exact (((sheds_enqueue drv _).bind fun _ => respects_pure _) _).joins

/-! ## A client leaves -/

theorem ne_npos_of_entry {ent : Entry} (bound : s.entries.length ≤ maxEntries)
    (live : s.entry drv = some ent) : drv ≠ IndexedHeap.npos := by
  rintro rfl
  exact absurd ((lt_of_entry live).trans_le bound) (by decide)

theorem enqueue_ok (known : drv ≠ IndexedHeap.npos) (new : Entry) :
    ∃ systems, enqueue drv new s = .ok () { s with systems := systems } := by
  obtain ⟨next, next_ok, -⟩ := s.systems.setKey_ok new.system known (prio s.cfg new)
  exact ⟨next, by rw [enqueue, bind_get_apply]; exact onSystems_of_ok next_ok⟩

theorem unqueue_ok (drv : DrvId) (ent : Entry) :
    ∃ systems, unqueue drv ent s = .ok () { s with systems := systems } := by
  rw [unqueue, bind_get_apply]
  split_ifs
  · obtain ⟨next, next_ok, -⟩ := s.systems.eraseKey_ok ent.system drv
    rw [bind_of_ok (onSystems_of_ok next_ok), modify_apply]
    split_ifs
    · exact ⟨next.drop ent.system, rfl⟩
    · exact ⟨next, rfl⟩
  · exact ⟨s.systems, rfl⟩

/-- An entry is put back into its queue, or retired if nobody follows it. -/
theorem requeue_ok (bound : s.entries.length ≤ maxEntries) (known : drv < s.entries.length) (new : Entry) :
    ∃ s', requeue drv new s = .ok () s' ∧
      s'.entry = update s.entry drv (if new.followers = [] then none else some new) ∧
      s'.entries.length = s.entries.length := by
  rw [requeue, setEntry, bind_modify_apply]
  generalize left_eq : { s with entries := s.entries.set drv (some new) } = left
  have left_entry : left.entry = update s.entry drv (some new) := left_eq ▸ entry_set known _
  have left_length : left.entries.length = s.entries.length := by simp [← left_eq]
  have left_live : left.entry drv = some new := by rw [left_entry, update_self]
  by_cases alone : new.followers = []
  · obtain ⟨systems, unqueued⟩ := @unqueue_ok left drv new
    refine ⟨{ left with
      systems := systems
      drvIds := left.drvIds.erase new.pathKey
      entries := left.entries.set drv none
      freeIds := drv :: left.freeIds }, ?_, ?_, by simpa using left_length⟩
    · rw [if_pos (List.isEmpty_iff.mpr alone), retire, bind_of_ok (entryAt_of_entry left_live)]
      simp only
      rw [bind_of_ok unqueued, modify_apply]
    · have gone := join_getElem?_set (left_length ▸ known : drv < left.entries.length) none
      refine Eq.trans gone ?_
      rw [show (fun id => (left.entries[id]?).join) = left.entry from rfl, left_entry, Function.update_idem,
        if_pos alone]
  · obtain ⟨systems, queued⟩ := @enqueue_ok left drv (ne_npos_of_entry (left_length ▸ bound) left_live) new
    refine ⟨{ left with systems := systems }, ?_, ?_, left_length⟩
    · rw [if_neg (by simpa using alone), queued]
    · rw [if_neg alone]
      exact left_entry

/-- One client is taken off one entry. -/
theorem cancelId_ok (bound : s.entries.length ≤ maxEntries) (client : ClientId) (drv : DrvId) :
    ∃ s', cancelId client drv s = .ok ((s.entry drv).bind (orphanedBy client)) s' ∧
      s'.entry = update s.entry drv ((s.entry drv).bind (unfollow client)) ∧
      s'.entries.length = s.entries.length := by
  have unchanged : ∀ slot, s.entry drv = slot → s.entry = update s.entry drv slot := by
    rintro _ rfl
    exact (Function.update_eq_self drv s.entry).symm
  rw [cancelId, bind_get_apply]
  cases live : s.entry drv with
  | none =>
    have slot_eq : (s.entries[drv]?).join = none := live
    rw [slot_eq]
    exact ⟨s, rfl, unchanged none live, rfl⟩
  | some ent =>
    have slot_eq : (s.entries[drv]?).join = some ent := live
    have known := lt_of_entry live
    rw [slot_eq]
    simp only [bind_some]
    by_cases follows : client ∈ ent.followers
    · rw [if_neg (not_not.mpr follows)]
      cases assigned : ent.worker with
      | some wid =>
        let left : Entry := { ent with followers := ent.followers.filter (· ≠ client), worker := some wid }
        refine ⟨{ s with entries := s.entries.set drv (some left) }, ?_, ?_, by simp⟩
        · simp only [setEntry, bind_modify_apply, orphanedBy, follows, assigned, true_and, left]
          cases ent.followers.filter (· ≠ client) <;> rfl
        · rw [entry_set known]
          simp [unfollow, follows, assigned, left]
      | none =>
        obtain ⟨s', ran, s'_entry, s'_length⟩ := requeue_ok bound known
          { ent with followers := ent.followers.filter (· ≠ client), worker := none }
        refine ⟨s', ?_, ?_, s'_length⟩
        · rw [requeue] at ran
          simp only [orphanedBy, assigned, ite_self]
          rw [setEntry, bind_modify_apply] at ran ⊢
          cases left : ent.followers.filter (· ≠ client) with
          | nil =>
            simp only [left, List.isEmpty_nil, if_true] at ran
            exact bind_of_ok ran _
          | cons =>
            simp only [left, List.isEmpty_cons, Bool.false_eq_true, if_false] at ran
            exact bind_of_ok ran _
        · rw [s'_entry]
          simp [unfollow, follows, assigned]
    · rw [if_pos follows]
      refine ⟨s, ?_, unchanged _ (by rw [live, unfollow, if_neg follows]), rfl⟩
      simp [orphanedBy, follows]

/-- What a client leaves behind: it is off all entries, the queued entries that it alone followed are
retired, and the assigned ones are reported, each once. -/
structure Left (client : ClientId) (s s' : Core) (revokes : List (DrvId × WorkerId)) : Prop where
  removed : ∀ drv ent, s'.entry drv = some ent → client ∉ ent.followers
  kept : ∀ drv ent, s.entry drv = some ent →
    ¬ (ent.worker = none ∧ client ∈ ent.followers ∧ ∀ other ∈ ent.followers, other = client) →
      s'.entry drv = some { ent with followers := ent.followers.filter (· ≠ client) }
  retired_iff : ∀ drv, s'.entry drv = none ↔
    s.entry drv = none ∨ ∃ ent, s.entry drv = some ent ∧ ent.worker = none ∧
      client ∈ ent.followers ∧ ∀ other ∈ ent.followers, other = client
  revokes_iff : ∀ drv wid, (drv, wid) ∈ revokes ↔
    ∃ ent, s.entry drv = some ent ∧ ent.worker = some wid ∧
      client ∈ ent.followers ∧ ∀ other ∈ ent.followers, other = client
  once : (revokes.map Prod.fst).Nodup

theorem filter_ne_eq_nil {followers : List ClientId} :
    followers.filter (· ≠ client) = [] ↔ ∀ other ∈ followers, other = client := by
  simp [List.filter_eq_nil_iff]

/-- The slots of a list, one after the other. -/
theorem cancelAll_ok (bound : s.entries.length ≤ maxEntries) (client : ClientId) (drvs : List DrvId) :
    ∃ s' revokes, cancelAll client drvs s = .ok revokes s' ∧
      (∀ drv, s'.entry drv = if drv ∈ drvs then (s.entry drv).bind (unfollow client) else s.entry drv) ∧
      (∀ drv wid, (drv, wid) ∈ revokes ↔ drv ∈ drvs ∧ (s.entry drv).bind (orphanedBy client) = some wid) ∧
      (revokes.map Prod.fst).Nodup := by
  induction drvs generalizing s with
  | nil => exact ⟨s, [], rfl, by simp, by simp, by simp⟩
  | cons drv drvs ih =>
    obtain ⟨mid, ran, mid_entry, mid_length⟩ := cancelId_ok bound client drv
    obtain ⟨s', revokes, rest, s'_entry, revokes_iff, once⟩ := ih (mid_length ▸ bound : mid.entries.length ≤ _)
    have fresh : ∀ wid, (drv, wid) ∉ revokes := by
      intro wid mem
      have found := ((revokes_iff drv wid).mp mem).2
      rw [mid_entry, update_self, bind_assoc] at found
      simp [orphanedBy_unfollow] at found
    refine ⟨s', (((s.entry drv).bind (orphanedBy client)).map (drv, ·)).toList ++ revokes, ?_,
      fun other => ?_, fun other wid => ?_, ?_⟩
    · rw [cancelAll, bind_of_ok ran, bind_of_ok rest]
      rfl
    · rw [s'_entry, mid_entry]
      by_cases other_drv : other = drv
      · subst other_drv
        rw [update_self, if_pos List.mem_cons_self, bind_assoc]
        simp only [unfollow_unfollow, ite_self]
      · rw [update_of_ne other_drv]
        simp [other_drv]
    · rw [List.mem_append, revokes_iff, mid_entry, Option.mem_toList, Option.map_eq_some_iff]
      by_cases other_drv : other = drv
      · subst other_drv
        rw [update_self, bind_assoc]
        simp [orphanedBy_unfollow]
      · rw [update_of_ne other_drv]
        simp [other_drv, Ne.symm other_drv]
    · cases (s.entry drv).bind (orphanedBy client) with
      | none => simpa using once
      | some wid =>
        refine List.nodup_cons.mpr ⟨fun mem => ?_, once⟩
        obtain ⟨⟨_, other⟩, in_revokes, rfl⟩ := List.mem_map.mp mem
        exact fresh other in_revokes

theorem unfollow_eq (client : ClientId) (ent : Entry) :
    (ent.worker = none ∧ client ∈ ent.followers ∧ ∀ other ∈ ent.followers, other = client) ∧
        unfollow client ent = none ∨
      ¬ (ent.worker = none ∧ client ∈ ent.followers ∧ ∀ other ∈ ent.followers, other = client) ∧
        unfollow client ent = some { ent with followers := ent.followers.filter (· ≠ client) } := by
  rw [unfollow]
  by_cases follows : client ∈ ent.followers
  · rw [if_pos follows]
    split_ifs with alone
    · exact .inl ⟨⟨alone.2, follows, filter_ne_eq_nil.mp alone.1⟩, rfl⟩
    · exact .inr ⟨fun both => alone ⟨filter_ne_eq_nil.mpr both.2.2, both.1⟩, rfl⟩
  · have same : ent.followers.filter (· ≠ client) = ent.followers := by
      refine List.filter_eq_self.mpr fun other mem => decide_eq_true ?_
      rintro rfl
      exact follows mem
    rw [if_neg follows, same]
    exact .inr ⟨fun both => follows both.2.1, rfl⟩

/-- A client that leaves leaves exactly its own traces. -/
theorem clientGone_left (bound : s.entries.length ≤ maxEntries) (traced : Traced s) (client : ClientId) :
    ∃ s' revokes, clientGone client s = .ok revokes s' ∧ Left client s s' revokes := by
  obtain ⟨s', revokes, ran, entry_eq, revokes_iff, once⟩ : ∃ s' revokes, clientGone client s = .ok revokes s' ∧
      (∀ drv, s'.entry drv =
        if drv ∈ (s.follows.lookup client).getD [] then (s.entry drv).bind (unfollow client) else s.entry drv) ∧
      (∀ drv wid, (drv, wid) ∈ revokes ↔
        drv ∈ (s.follows.lookup client).getD [] ∧ (s.entry drv).bind (orphanedBy client) = some wid) ∧
      (revokes.map Prod.fst).Nodup := by
    rw [clientGone, bind_get_apply]
    cases known : s.follows.lookup client with
    | none => exact ⟨s, [], rfl, by simp, by simp, by simp⟩
    | some drvs => exact @cancelAll_ok { s with follows := s.follows.erase client } bound client drvs
  -- a slot that is not noted under the client is not followed by it
  have unfollowed : ∀ drv, s'.entry drv = (s.entry drv).bind (unfollow client) := by
    intro drv
    rw [entry_eq]
    split_ifs with noted
    · rfl
    · cases live : s.entry drv with
      | none => rfl
      | some ent =>
        have not_follows : client ∉ ent.followers := fun mem => noted (traced drv client ⟨ent, live, mem⟩)
        rw [bind_some, unfollow, if_neg not_follows]
  refine ⟨s', revokes, ran, ?_, ?_, ?_, ?_, once⟩
  · intro drv new live mem
    rw [unfollowed] at live
    obtain ⟨ent, -, left⟩ := Option.bind_eq_some_iff.mp live
    rcases unfollow_eq client ent with ⟨-, gone⟩ | ⟨-, stays⟩
    · cases gone.symm.trans left
    · cases stays.symm.trans left
      simp at mem
  · intro drv ent live others
    rw [unfollowed, live, bind_some]
    exact ((unfollow_eq client ent).resolve_left fun alone => others alone.1).2
  · intro drv
    rw [unfollowed]
    cases live : s.entry drv with
    | none => simp
    | some ent =>
      rcases unfollow_eq client ent with ⟨alone, gone⟩ | ⟨others, stays⟩
      · simp only [bind_some, gone, true_iff]
        exact .inr ⟨ent, rfl, alone⟩
      · simp only [bind_some, stays, reduceCtorEq, false_iff, false_or]
        rintro ⟨_, ⟨⟩, alone⟩
        exact others alone
  · intro drv wid
    rw [revokes_iff]
    constructor
    · rintro ⟨-, orphaned⟩
      obtain ⟨ent, live, orphaned⟩ := Option.bind_eq_some_iff.mp orphaned
      rw [orphanedBy] at orphaned
      split_ifs at orphaned with alone
      exact ⟨ent, live, orphaned, alone.1, filter_ne_eq_nil.mp alone.2⟩
    · rintro ⟨ent, live, assigned, follows, alone⟩
      refine ⟨traced drv client ⟨ent, live, follows⟩, ?_⟩
      rw [live, bind_some, orphanedBy, if_pos ⟨follows, filter_ne_eq_nil.mpr alone⟩, assigned]

/-- A client that leaves adds no follower, and the slots of the others stay noted. -/
theorem clientGone_sheds (client : ClientId) (s : Core) :
    (∀ drv other, (after (clientGone client s)).FollowsAt drv other → s.FollowsAt drv other) ∧
      (∀ other ≠ client, (after (clientGone client s)).follows.lookup other = s.follows.lookup other) ∧
      (s.entries.length ≤ maxEntries → (after (clientGone client s)).entries.length ≤ maxEntries) := by
  have cancels : ∀ drvs, Respects Sheds (cancelAll client drvs) := by
    intro drvs
    induction drvs with
    | nil => exact respects_pure []
    | cons drv drvs ih => exact (sheds_cancelId client drv).bind fun _ => ih.bind fun _ => respects_pure _
  rw [clientGone, bind_get_apply]
  cases s.follows.lookup client with
  | none => exact ⟨fun _ _ => id, fun _ _ => rfl, id⟩
  | some drvs =>
    obtain ⟨follows_eq, fewer, bound⟩ := cancels drvs { s with follows := s.follows.erase client }
    refine ⟨fewer, fun other other_ne => ?_, bound⟩
    simp only [bind_modify_apply]
    rw [follows_eq]
    exact AList.lookup_erase_ne other_ne

end Steps

end Core

end NixGrpcStore.Sched
