import NixGrpcStore.Dispatcher.Threads

/-!
# What most operations of the core leave of an entry

Only a Want and a Hello make entries, bring followers or take over assignment ids from outside.  What
every other operation leaves in a slot is an entry that was there.  It has lost no follower but those
that leave; if it is assigned, it was so under the same id, or the id was given just now, for whoever
follows it.  An entry with followers goes only if it has ended.
-/

namespace NixGrpcStore.Dispatcher

open Sched Remote StateExcept

/-- An entry has lost only followers that leave, and its assignment ended, stayed or is newer than an
id. -/
structure Wears (leaves : ClientId → PathKey → Prop) (last : ℕ) (ent new : Entry) : Prop where
  path_eq : new.drvPath = ent.drvPath
  followers_sub : new.followers ⊆ ent.followers
  keeps : ∀ client ∈ ent.followers, client ∈ new.followers ∨ leaves client ent.pathKey
  assigned : new.worker = none ∨ new.worker = ent.worker ∧ new.assignId = ent.assignId ∨
    last < new.assignId ∧ new.followers ≠ []

/-- A worker builds a derivation. -/
def Builds (s : Core) (wid : WorkerId) (key : PathKey) : Prop :=
  ∃ drv ent, s.entry drv = some ent ∧ ent.pathKey = key ∧ ent.worker = some wid

/-- The books are kept, every entry that is left was there before, and what is gone with a follower
that does not leave has ended. -/
structure Wanes (leaves : ClientId → PathKey → Prop) (ended : PathKey → Prop) (s s' : Core) : Prop where
  inv : s'.Inv
  entry : ∀ drv new, s'.entry drv = some new →
    ∃ ent, s.entry drv = some ent ∧ Wears leaves s.lastAssignId ent new
  stays : ∀ drv ent, s.entry drv = some ent → ∀ client ∈ ent.followers,
    (s'.entry drv).isSome ∨ leaves client ent.pathKey ∨ ended ent.pathKey
  last_le : s.lastAssignId ≤ s'.lastAssignId

/-- An operation that finds the books kept lets entries wane. -/
def Waning (leaves : ClientId → PathKey → Prop) (ended : PathKey → Prop) (s s' : Core) : Prop :=
  s.Inv → Wanes leaves ended s s'

section Wanes

variable {leaves : ClientId → PathKey → Prop} {ended : PathKey → Prop} {s s' : Core} {ent new : Entry}
  {wid : WorkerId} {last : ℕ} {path : String}

theorem Wears.pathKey_eq (wears : Wears leaves last ent new) : new.pathKey = ent.pathKey := by
  rw [Entry.pathKey, Entry.pathKey, wears.path_eq]

/-- An entry that keeps its path and its followers. -/
theorem wears_of_eq (path_eq : new.drvPath = ent.drvPath) (followers_eq : new.followers = ent.followers)
    (assigned : new.worker = none ∨ new.worker = ent.worker ∧ new.assignId = ent.assignId ∨
      last < new.assignId ∧ new.followers ≠ []) : Wears leaves last ent new :=
  ⟨path_eq, followers_eq ▸ List.Subset.refl _, fun _ mem => .inl (followers_eq ▸ mem), assigned⟩

theorem Wears.refl (ent : Entry) : Wears leaves last ent ent :=
  wears_of_eq rfl rfl (.inr (.inl ⟨rfl, rfl⟩))

theorem Wanes.mono {more : PathKey → Prop} (wanes : Wanes leaves ended s s')
    (le : ∀ key, ended key → more key) : Wanes leaves more s s' :=
  ⟨wanes.inv, wanes.entry, fun drv ent live client mem =>
    (wanes.stays drv ent live client mem).imp id (Or.imp id (le _)), wanes.last_le⟩

theorem Wanes.live_le (wanes : Wanes leaves ended s s') : s'.liveCount ≤ s.liveCount := by
  refine Core.liveCount_le fun drv live => ?_
  obtain ⟨new, new_live⟩ := Option.isSome_iff_exists.mp live
  obtain ⟨ent, ent_live, -⟩ := wanes.entry drv new new_live
  rw [ent_live]
  rfl

/-- Entries that change one by one. -/
theorem wanes_of_bind {change : DrvId → Entry → Option Entry} (inv : s'.Inv)
    (entry_eq : ∀ drv, s'.entry drv = (s.entry drv).bind (change drv))
    (wears : ∀ drv ent new, change drv ent = some new → Wears leaves s.lastAssignId ent new)
    (stays : ∀ drv ent, s.entry drv = some ent → ∀ client ∈ ent.followers,
      (change drv ent).isSome ∨ leaves client ent.pathKey ∨ ended ent.pathKey)
    (last_eq : s'.lastAssignId = s.lastAssignId) : Wanes leaves ended s s' := by
  refine ⟨inv, fun drv new live => ?_, fun drv ent live => ?_, last_eq.ge⟩
  · rw [entry_eq] at live
    obtain ⟨ent, ent_live, changed⟩ := Option.bind_eq_some_iff.mp live
    exact ⟨ent, ent_live, wears drv ent new changed⟩
  · rw [entry_eq, live]
    exact stays drv ent live

theorem wanes_of_entry_eq (inv : s'.Inv) (entry_eq : s'.entry = s.entry)
    (last_eq : s'.lastAssignId = s.lastAssignId) : Wanes leaves ended s s' :=
  ⟨inv, fun _ new live => ⟨new, entry_eq ▸ live, .refl new⟩,
    fun _ _ live _ _ => .inl (by rw [entry_eq, live]; rfl), last_eq.ge⟩

theorem Wanes.refl (inv : s.Inv) : Wanes leaves ended s s := wanes_of_entry_eq inv rfl rfl

theorem after_entryAt (drv : DrvId) (s : Core) : after (Core.entryAt drv s) = s := by
  rw [Core.entryAt, bind_get_apply]
  cases s.entries[drv]? with
  | none => rfl
  | some slot => rfl

theorem after_workerAt (wid : WorkerId) (s : Core) : after (Core.workerAt wid s) = s := by
  rw [Core.workerAt, bind_get_apply]
  cases s.workers[wid]? with
  | none => rfl
  | some wkr => rfl

theorem waning_entryAt (drv : DrvId) : Respects (Waning leaves ended) (Core.entryAt drv) := by
  intro s inv
  rw [after_entryAt]
  exact .refl inv

theorem waning_workerAt (wid : WorkerId) : Respects (Waning leaves ended) (Core.workerAt wid) := by
  intro s inv
  rw [after_workerAt]
  exact .refl inv

theorem waning_placeabilityChanges : Respects (Waning leaves ended) Core.placeabilityChanges := by
  intro s inv
  obtain ⟨changed, s', ran, s'_inv, same, entry_eq, -⟩ := inv.placeabilityChanges
  rw [ran]
  refine @wanes_of_bind _ _ s s' (fun _ ent => some (Core.withFlag s.placeable ent)) s'_inv
    (fun drv => (entry_eq drv).trans (Option.map_eq_bind ..)) ?_ (fun _ _ _ _ _ => .inl rfl) (by rw [same])
  rintro _ ent _ ⟨⟩
  exact wears_of_eq (by simp) (by simp) (.inr (.inl (by simp)))

/-- An operation on a worker that throws if the worker is not known. -/
theorem wanes_of_known (wid : WorkerId) {m : CoreM Unit}
    (unknown : s.workers[wid]? = none → after (m s) = s)
    (wanes : ∀ wkr : Worker, s.workers[wid]? = some wkr → ∃ s', m s = .ok () s' ∧ Wanes leaves ended s s')
    (inv : s.Inv) : Wanes leaves ended s (after (m s)) := by
  cases get_eq : s.workers[wid]? with
  | none =>
    rw [unknown get_eq]
    exact .refl inv
  | some wkr =>
    obtain ⟨s', ran, waned⟩ := wanes wkr get_eq
    rw [ran]
    exact waned

theorem leave_wears (left : Core.leave wid ent = some new) : Wears leaves last ent new := by
  unfold Core.leave at left
  split_ifs at left
  · cases left
    exact wears_of_eq rfl rfl (.inl rfl)
  · cases left
    exact .refl ent

variable {client : ClientId}

theorem leave_stays (follows : client ∈ ent.followers) : (Core.leave wid ent).isSome := by
  unfold Core.leave
  rw [if_neg (List.ne_nil_of_mem follows)]
  split_ifs <;> rfl

theorem waning_workerGone (wid : WorkerId) :
    Respects (Waning leaves ended) (Core.workerGone wid) := by
  refine fun s inv => wanes_of_known wid (fun get_eq => ?_) (fun wkr get_eq => ?_) inv
  · exact congrArg after (bind_of_error (Core.workerAt_of_none get_eq) _)
  · obtain ⟨s', ran, s'_inv, entry_eq, -, -, -, last_eq⟩ := inv.workerGone get_eq
    exact ⟨s', ran, wanes_of_bind s'_inv entry_eq (fun _ _ _ => leave_wears)
      (fun _ _ _ _ follows => .inl (leave_stays follows)) last_eq⟩

theorem waning_setDraining (wid : WorkerId) (draining : Bool) :
    Respects (Waning leaves ended) (Core.setDraining wid draining) := by
  refine fun s inv => wanes_of_known wid (fun get_eq => ?_) (fun wkr get_eq => ?_) inv
  · exact congrArg after (bind_of_error (Core.workerAt_of_none get_eq) _)
  · obtain ⟨s', ran, s'_inv, entry_eq, -, -, -, last_eq⟩ := inv.setDraining get_eq draining
    exact ⟨s', ran, wanes_of_entry_eq s'_inv entry_eq last_eq⟩

/-- A Done ends what its worker builds under its path. -/
theorem Wanes.done (inv : s.Inv) (wid : WorkerId) (path : String) (outputs : List (String × ℕ)) :
    Wanes leaves (fun key => PathKey.ofPath path = key ∧ Builds s wid key) s
      (after (Core.done wid path outputs s)) := by
  refine wanes_of_known wid Core.after_done_of_none (fun wkr get_eq => ?_) inv
  obtain ⟨s', ran, s'_inv, entry_eq, keeps⟩ := inv.done get_eq path outputs
  refine ⟨s', ran, wanes_of_bind s'_inv entry_eq (fun _ ent new finished => ?_) (fun drv ent live client _ => ?_)
    keeps.lastAssignId⟩
  · rw [finish_cases finished]
    exact .refl ent
  · unfold Core.finish
    split_ifs with ends
    · exact .inr (.inr ⟨ends.1.symm, drv, ent, live, rfl, ends.2⟩)
    · exact .inl rfl

theorem waning_done (wid : WorkerId) (path : String) (outputs : List (String × ℕ)) :
    Respects (Waning leaves fun _ => True) (Core.done wid path outputs) :=
  fun _ inv => (Wanes.done inv wid path outputs).mono fun _ _ => trivial

theorem waning_giveBack (wid : WorkerId) (path : String) :
    Respects (Waning leaves ended) (Core.giveBack wid path) := by
  refine fun s inv => wanes_of_known wid Core.after_giveBack_of_none (fun wkr get_eq => ?_) inv
  obtain ⟨s', ran, s'_inv, entry_eq, keeps⟩ := inv.giveBack get_eq path
  refine ⟨s', ran, wanes_of_bind s'_inv entry_eq (fun _ ent new back => ?_) (fun _ ent _ _ follows => ?_)
    keeps.lastAssignId⟩
  · unfold Core.returned at back
    split_ifs at back
    · cases back
      exact wears_of_eq rfl rfl (.inl rfl)
    · cases back
      exact .refl ent
  · unfold Core.returned
    rw [if_neg (List.ne_nil_of_mem follows)]
    split_ifs
    · exact .inl rfl
    · exact .inl rfl

theorem waning_markUnplaceable (drv : DrvId) (flag : Bool) :
    Respects (Waning leaves ended) (Core.markUnplaceable drv flag) := by
  intro s inv
  cases ran : Core.markUnplaceable drv flag s with
  | ok _ s' =>
    obtain ⟨s'_inv, same, entry_eq⟩ := inv.markUnplaceable ran
    refine @wanes_of_bind _ _ s s'
      (fun other ent => some (if other = drv then { ent with unplaceable := flag } else ent))
      s'_inv (fun other => ?_) ?_ (fun _ _ _ _ _ => .inl rfl) (by rw [same])
    · rw [entry_eq]
      by_cases is_drv : other = drv
      · subst is_drv
        simp [Option.map_eq_bind]
      · simp [is_drv]
    · rintro other ent _ ⟨⟩
      split_ifs
      · exact wears_of_eq rfl rfl (.inr (.inl ⟨rfl, rfl⟩))
      · exact .refl ent
  | error err s' =>
    obtain rfl : s' = s := by
      rw [Core.markUnplaceable, bind_eq_error] at ran
      rcases ran with failed | ⟨slot, mid, -, set⟩
      · simpa [failed] using after_entryAt drv s
      · cases slot with
        | none => cases set
        | some ent => cases set
    exact .refl inv

theorem waning_dispatch (order : VisitOrder) :
    Respects (Waning leaves ended) (Core.dispatch order) := by
  intro s inv
  obtain ⟨out, skipped, last, next, ran, last_inv, served, -⟩ := inv.dispatch order
  obtain ⟨last_le, fresh, -⟩ := served.ids
  have entry_other : ∀ drv, (¬ ∃ asg ∈ out, asg.drv = drv) → last.entry drv = s.entry drv :=
    fun drv unplaced => served.entry_other fun asg mem is_drv => unplaced ⟨asg, mem, is_drv⟩
  rw [ran]
  refine ⟨last_inv, fun drv new live => ?_, fun drv ent live _ _ => .inl ?_, last_le⟩
  · by_cases placed : ∃ asg ∈ out, asg.drv = drv
    · obtain ⟨asg, mem, rfl⟩ := placed
      obtain ⟨ent, wkr, old, waits, -, -, -, new_live⟩ := served.placed mem
      cases new_live.symm.trans live
      have followed := inv.queues.followed asg.drv (Set.notMem_empty _) ent old waits
      exact ⟨ent, old, wears_of_eq rfl rfl (.inr (.inr ⟨(fresh asg mem).1, followed⟩))⟩
    · exact ⟨new, entry_other drv placed ▸ live, .refl new⟩
  · by_cases placed : ∃ asg ∈ out, asg.drv = drv
    · obtain ⟨asg, mem, rfl⟩ := placed
      obtain ⟨_, wkr, -, -, -, -, -, new_live⟩ := served.placed mem
      exact Option.isSome_of_eq_some new_live
    · exact Option.isSome_of_eq_some ((entry_other drv placed).trans live)

theorem waning_workerId (addr : String) : Respects (Waning leaves ended) (Core.workerId addr) := by
  intro s inv
  obtain ⟨wid, wkr, s', ran, s'_inv, -, -, entry_eq, -, -, last_eq, -⟩ := inv.workerId addr
  rw [ran]
  exact wanes_of_entry_eq s'_inv entry_eq last_eq

/-! ## Clients that leave -/

theorem mem_unfollow (left : Core.unfollow client ent = some new) (other : ClientId) :
    other ∈ new.followers ↔ other ∈ ent.followers ∧ other ≠ client := by
  unfold Core.unfollow at left
  split_ifs at left with follows
  · cases left
    simp
  · cases left
    refine ⟨fun mem => ⟨mem, ?_⟩, And.left⟩
    rintro rfl
    exact follows mem

theorem unfollow_wears (left : Core.unfollow client ent = some new)
    (leaving : leaves client ent.pathKey) : Wears leaves last ent new := by
  obtain ⟨shrinks, worker_eq, id_eq, -⟩ := unfollow_cases left
  refine ⟨shrinks.path_eq, shrinks.followers_sub, fun other mem => ?_, .inr (.inl ⟨worker_eq, id_eq⟩)⟩
  by_cases same : other = client
  · exact .inr (same ▸ leaving)
  · exact .inl ((mem_unfollow left other).mpr ⟨mem, same⟩)

theorem unfollow_stays {other : ClientId} (follows : other ∈ ent.followers)
    (leaving : leaves client ent.pathKey) :
    (Core.unfollow client ent).isSome ∨ leaves other ent.pathKey := by
  by_cases same : other = client
  · exact .inr (same ▸ leaving)
  · have remains : other ∈ ent.followers.filter (· ≠ client) := by simp [follows, same]
    unfold Core.unfollow
    split_ifs with is_client gone
    · rw [gone.1] at remains
      cases remains
    · exact .inl rfl
    · exact .inl rfl

theorem waning_cancel (leaving : leaves client (PathKey.ofPath path)) :
    Respects (Waning leaves ended) (Core.cancel client path) := by
  intro s inv
  obtain ⟨revoke, s', ran, s'_inv, entry_eq, keeps, -⟩ := inv.cancel client path
  rw [ran]
  refine wanes_of_bind s'_inv entry_eq (fun _ ent new cancelled => ?_) (fun _ ent _ other follows => ?_)
    keeps.lastAssignId
  · unfold Core.cancelled at cancelled
    split_ifs at cancelled with is_path
    · exact unfollow_wears cancelled (is_path ▸ leaving)
    · cases cancelled
      exact .refl ent
  · unfold Core.cancelled
    split_ifs with is_path
    · exact (unfollow_stays follows (is_path ▸ leaving)).imp id .inl
    · exact .inl rfl

theorem waning_clientGone (leaving : ∀ key, leaves client key) :
    Respects (Waning leaves ended) (Core.clientGone client) := by
  intro s inv
  obtain ⟨s', revokes, ran, s'_inv, entry_eq, -, -, -, -, last_eq⟩ := inv.clientGone client
  rw [ran]
  refine @wanes_of_bind _ _ s s'
    (fun drv ent => if drv ∈ (s.follows.lookup client).getD [] then Core.unfollow client ent else some ent)
    s'_inv (fun drv => ?_) (fun drv ent new left => ?_) (fun drv ent _ other follows => ?_) last_eq
  · rw [entry_eq]
    split_ifs
    · rfl
    · exact (Option.bind_fun_some _).symm
  · split_ifs at left
    · exact unfollow_wears left (leaving _)
    · cases left
      exact .refl ent
  · split_ifs
    · exact (unfollow_stays follows (leaving _)).imp id .inl
    · exact .inl rfl

end Wanes

end NixGrpcStore.Dispatcher
