import NixGrpcStore.Sched.Invariant

/-!
# Wants and Cancels

What the operations that serve clients do to a core that keeps its books.
-/

namespace NixGrpcStore.Sched

open Function (update update_of_ne update_self)
open StateExcept

namespace Core

variable {s : Core} {aside : Set DrvId} {stale : Set WorkerId} {drv : DrvId} {wid : WorkerId}
  {ent : Entry}

/-! ## Slots for new derivations -/

/-- Number of live entries. -/
def liveCount (s : Core) : ℕ := s.entries.countP Option.isSome

theorem Inv.liveCount_le_max {s : Core} (inv : s.Inv) : s.liveCount ≤ maxEntries := by
  have length_le := inv.ids.length_le
  rw [slotKeys, List.length_map] at length_le
  exact List.countP_le_length.trans length_le

theorem countP_isSome_eq_count (slots : List (Option Entry)) {bound : ℕ} (le : slots.length ≤ bound) :
    slots.countP Option.isSome = Nat.count (fun drv => (slots[drv]?).join.isSome) bound := by
  induction slots generalizing bound with
  | nil => simp
  | cons slot slots ih =>
    cases bound with
    | zero => simp at le
    | succ bound =>
      rw [List.countP_cons, ih (by simpa using le), Nat.count_succ']
      simp

/-- Live entries are counted by slot. -/
theorem liveCount_eq_card (s : Core) {bound : ℕ} (le : s.entries.length ≤ bound) :
    s.liveCount = ((Finset.range bound).filter fun drv => (s.entry drv).isSome).card := by
  rw [← Nat.count_eq_card_filter_range]
  exact countP_isSome_eq_count s.entries le

/-- One more slot makes at most one more live entry. -/
theorem liveCount_le_succ {s' : Core} (drv : DrvId)
    (live : ∀ other ≠ drv, (s'.entry other).isSome → (s.entry other).isSome) :
    s'.liveCount ≤ s.liveCount + 1 := by
  rw [s.liveCount_eq_card (le_max_left s.entries.length s'.entries.length),
    s'.liveCount_eq_card (le_max_right s.entries.length s'.entries.length)]
  refine (Finset.card_le_card ?_).trans (Finset.card_insert_le drv _)
  intro other mem
  simp only [Finset.mem_filter, Finset.mem_insert] at mem ⊢
  by_cases same : other = drv
  · exact .inl same
  · exact .inr ⟨mem.1, live other same mem.2⟩

theorem liveCount_le {s' : Core} (live : ∀ drv, (s'.entry drv).isSome → (s.entry drv).isSome) :
    s'.liveCount ≤ s.liveCount := by
  rw [s.liveCount_eq_card (le_max_left s.entries.length s'.entries.length),
    s'.liveCount_eq_card (le_max_right s.entries.length s'.entries.length)]
  refine Finset.card_le_card fun drv mem => ?_
  simp only [Finset.mem_filter] at mem ⊢
  exact ⟨mem.1, live drv mem.2⟩

/-- Entries that change or go do not become more. -/
theorem liveCount_le_of_bind {s' : Core} {change : DrvId → Entry → Option Entry}
    (entry_eq : ∀ drv, s'.entry drv = (s.entry drv).bind (change drv)) : s'.liveCount ≤ s.liveCount := by
  refine liveCount_le fun drv live => ?_
  rw [entry_eq] at live
  cases old : s.entry drv with
  | none => simp [old] at live
  | some ent => rfl

/-- The table after an unused slot was given to a path. -/
structure Allocated (s : Core) (path : String) (drv : DrvId) (entries : List (Option Entry))
    (freeIds : List DrvId) (drvIds : AList fun _ : PathKey => DrvId) : Prop where
  unused : s.entry drv = none
  slot_eq : entries[drv]? = some none
  entry_eq : (fun id => (entries[id]?).join) = s.entry
  ids : ∀ ent : Entry, ent.pathKey = PathKey.ofPath path →
    Ids (slotKeys (entries.set drv (some ent))) freeIds drvIds

theorem drvId_of_unknown {path : String} (unknown : s.findDrv path = none) {s' : Core}
    (taken : takeId s = .ok drv s') :
    drvId path s =
      .ok drv { s' with drvIds := s'.drvIds.insert (PathKey.ofPath path) drv } := by
  rw [findDrv] at unknown
  rw [drvId, bind_get_apply, unknown]
  simp [bind_of_ok taken]

/-- A path is known, or gets an unused slot, or the table is full. -/
theorem InvOff.drvId_cases (inv : InvOff s aside stale) (path : String) :
    (∃ drv ent, s.entry drv = some ent ∧ ent.pathKey = PathKey.ofPath path ∧ drvId path s = .ok drv s) ∨
    s.findDrv path = none ∧
      ((∃ drv entries freeIds drvIds, Allocated s path drv entries freeIds drvIds ∧
        drvId path s = .ok drv { s with entries, freeIds, drvIds }) ∨
      drvId path s = .error .tableFull s ∧ maxEntries ≤ s.liveCount) := by
  have ids := inv.ids
  cases found : s.findDrv path with
  | some drv =>
    obtain ⟨ent, live, key_eq⟩ := (inv.findDrv_iff path drv).mp found
    refine .inl ⟨drv, ent, live, key_eq, ?_⟩
    rw [findDrv] at found
    simp [drvId, found]
  | none =>
    refine .inr ⟨rfl, ?_⟩
    cases free_eq : s.freeIds with
    | cons drv freeIds =>
      have taken : takeId s = .ok drv { s with freeIds } := by simp [takeId, free_eq]
      rw [free_eq] at ids
      have key_none : (slotKeys s.entries)[drv]? = some none := (ids.free_iff drv).mp List.mem_cons_self
      have slot_eq : s.entries[drv]? = some none := by
        simpa [slotKeys, Option.map_eq_some_iff] using key_none
      refine .inl ⟨drv, s.entries, freeIds, _, ⟨?_, slot_eq, rfl, fun ent key_eq => ?_⟩,
        drvId_of_unknown found taken⟩
      · simp [entry, slot_eq]
      · simpa [slotKeys, List.map_set, key_eq] using ids.reuse found
    | nil =>
      by_cases full : maxEntries ≤ s.entries.length
      · refine .inr ?_
        have refused : takeId s = .error .tableFull s := by simp [takeId, free_eq, full]
        rw [findDrv] at found
        rw [drvId, bind_get_apply, found]
        refine ⟨bind_of_error refused _, full.trans (le_of_eq (List.countP_eq_length.mpr ?_).symm)⟩
        intro slot mem
        obtain ⟨drv, slot_eq⟩ := List.getElem?_of_mem mem
        refine Option.isSome_iff_ne_none.mpr fun slot_none => ?_
        have listed : drv ∈ s.freeIds := (ids.free_iff drv).mpr (by
          simp [slotKeys, slot_eq, slot_none])
        simp [free_eq] at listed
      · have taken : takeId s =
            .ok s.entries.length { s with entries := s.entries ++ [none] } := by
          simp [takeId, free_eq, full]
        rw [free_eq] at ids
        have room : (slotKeys s.entries).length < maxEntries := by
          simpa [slotKeys] using Nat.lt_of_not_le full
        refine .inl ⟨s.entries.length, s.entries ++ [none], s.freeIds, _,
          ⟨?_, ?_, ?_, fun ent key_eq => ?_⟩, drvId_of_unknown found taken⟩
        · simp [entry]
        · simp
        · funext id
          rcases lt_trichotomy id s.entries.length with before | at_end | beyond
          · simp [entry, List.getElem?_append_left before]
          · simp [entry, at_end]
          · simp [entry, List.getElem?_append_right beyond.le,
              List.getElem?_eq_none beyond.le, Nat.sub_ne_zero_of_lt beyond]
        · rw [free_eq]
          simpa [slotKeys, key_eq] using ids.extend found room

/-- Writing an entry into the slot of a new path sets it aside. -/
theorem InvOff.create {path : String} {entries : List (Option Entry)} {freeIds : List DrvId}
    {drvIds : AList fun _ : PathKey => DrvId} (inv : InvOff s aside stale) (new : Entry)
    (alloc : Allocated s path drv entries freeIds drvIds) (path_eq : new.drvPath = path)
    (named : new.followers ≠ [] → new.system ≠ "") :
    InvOff { s with entries := entries.set drv (some new), freeIds, drvIds } (insert drv aside) stale ∧
      entry { s with entries := entries.set drv (some new), freeIds, drvIds } =
        update s.entry drv (some new) := by
  have drv_lt : drv < entries.length := (List.getElem?_eq_some_iff.mp alloc.slot_eq).1
  have entry_eq : (fun id => ((entries.set drv (some new))[id]?).join) =
      update s.entry drv (some new) := by
    rw [join_getElem?_set drv_lt, alloc.entry_eq]
  refine ⟨⟨alloc.ids new (by rw [Entry.pathKey, path_eq]), ?_, ?_, inv.counts, inv.addrs⟩, entry_eq⟩
  · have queues := inv.queues.create alloc.unused named
    rwa [← entry_eq] at queues
  · have runs : Runs (update s.entry drv (some new)) _ _ := inv.runs.create alloc.unused
    rwa [← entry_eq] at runs

/-! ## Want -/

/-- The followers of an entry after a client joined. -/
def joined (client : ClientId) (followers : List ClientId) : List ClientId :=
  if client ∈ followers then followers else followers ++ [client]

theorem mem_joined {client other : ClientId} {followers : List ClientId} :
    other ∈ joined client followers ↔ other = client ∨ other ∈ followers := by
  unfold joined
  split
  · rename_i already
    exact ⟨.inr, fun mem => mem.elim (fun same => same ▸ already) id⟩
  · simp [or_comm]

/-- The slots each client may follow, after one more was noted. -/
def noteFollow (s : Core) (client : ClientId) (drv : DrvId) (ent : Entry) :
    AList fun _ : ClientId => List DrvId :=
  if client ∈ ent.followers then s.follows
  else s.follows.insert client ((s.follows.lookup client).getD [] ++ [drv])

theorem follow_eq (client : ClientId) (drv : DrvId) (ent : Entry) (s : Core) :
    follow client drv ent s =
      .ok { ent with followers := joined client ent.followers }
        { s with follows := noteFollow s client drv ent } := by
  unfold follow joined noteFollow
  by_cases already : client ∈ ent.followers
  · simp [already]
  · simp [already]

theorem wantedEntry_some (info : WantInfo) (nowMs : ℚ) (ent : Entry) :
    wantedEntry info nowMs (some ent) =
      { ent with
        system := if ent.system = "" then info.system else ent.system
        features := if ent.system = "" then info.features else ent.features } := by
  rw [wantedEntry]
  split <;> rfl

/-- An entry after a Want. -/
def wantEntry (client : ClientId) (info : WantInfo) (nowMs : ℚ) (slot : Option Entry) : Entry :=
  { wantedEntry info nowMs slot with
    followers := joined client (wantedEntry info nowMs slot).followers
    cpHint := max (wantedEntry info nowMs slot).cpHint info.cpHintMs }

section WantEntry

variable (client : ClientId) (info : WantInfo) (nowMs : ℚ)

theorem mem_wantEntry_followers (slot : Option Entry) {other : ClientId} :
    other ∈ (wantEntry client info nowMs slot).followers ↔
      other = client ∨ ∃ ent, slot = some ent ∧ other ∈ ent.followers := by
  rw [wantEntry, mem_joined]
  cases slot with
  | none => simp [wantedEntry]
  | some ent => simp [wantedEntry_some]

theorem wantEntry_followers_ne (slot : Option Entry) : (wantEntry client info nowMs slot).followers ≠ [] :=
  List.ne_nil_of_mem ((mem_wantEntry_followers client info nowMs slot).mpr (.inl rfl))

@[simp] theorem wantEntry_drvPath (slot : Option Entry) :
    (wantEntry client info nowMs slot).drvPath = (slot.map Entry.drvPath).getD info.drvPath := by
  cases slot with
  | none => rfl
  | some ent => simp [wantEntry, wantedEntry_some]

@[simp] theorem wantEntry_worker (slot : Option Entry) :
    (wantEntry client info nowMs slot).worker = slot.bind Entry.worker := by
  cases slot with
  | none => rfl
  | some ent => simp [wantEntry, wantedEntry_some]

@[simp] theorem wantEntry_assignId (ent : Entry) :
    (wantEntry client info nowMs (some ent)).assignId = ent.assignId := by
  simp [wantEntry, wantedEntry_some]

@[simp] theorem wantEntry_unplaceable (ent : Entry) :
    (wantEntry client info nowMs (some ent)).unplaceable = ent.unplaceable := by
  simp [wantEntry, wantedEntry_some]

theorem wantEntry_system (ent : Entry) :
    (wantEntry client info nowMs (some ent)).system =
      if ent.system = "" then info.system else ent.system := by
  simp [wantEntry, wantedEntry_some]

theorem wantEntry_system_ne {info : WantInfo} (named : info.system ≠ "") (slot : Option Entry) :
    (wantEntry client info nowMs slot).system ≠ "" := by
  cases slot with
  | none => exact named
  | some ent =>
    rw [wantEntry_system]
    split
    · exact named
    · assumption

end WantEntry

/-- The part of `want` after the entry was written. -/
theorem want_of_drvId {client : ClientId} {info : WantInfo} {nowMs : ℚ} {mid : Core}
    {slot : Option Entry} (found : drvId info.drvPath s = .ok drv mid)
    (slot_eq : mid.entries[drv]? = some slot) :
    want client info nowMs s =
      (match (wantEntry client info nowMs slot).worker with
        | some wid =>
          (pure { drv, assigned := some (wid, (wantEntry client info nowMs slot).assignId) } : CoreM WantResult)
        | none => do
          enqueue drv (wantEntry client info nowMs slot)
          pure { drv })
        { mid with
          follows := noteFollow mid client drv (wantedEntry info nowMs slot)
          entries := mid.entries.set drv (some (wantEntry client info nowMs slot)) } := by
  have slot_at : entryAt drv mid = .ok slot mid := by simp [entryAt, slot_eq]
  rw [want, bind_of_ok found, bind_of_ok slot_at, bind_of_ok (follow_eq ..), setEntry, bind_modify_apply]
  rfl

/-- What a Want does. -/
structure Wanted (s s' : Core) (client : ClientId) (info : WantInfo) (nowMs : ℚ) (drv : DrvId) :
    Prop where
  place : s.findDrv info.drvPath = some drv ∨
    s.findDrv info.drvPath = none ∧ s.entry drv = none
  entry_eq : s'.entry =
    update s.entry drv (some (wantEntry client info nowMs (s.entry drv)))
  follows_eq : s'.follows = noteFollow s client drv (wantedEntry info nowMs (s.entry drv))
  workers_eq : s'.workers = s.workers
  cfg_eq : s'.cfg = s.cfg
  lastAssignId_eq : s'.lastAssignId = s.lastAssignId

section Want

variable {client : ClientId} {info : WantInfo} {nowMs : ℚ}

theorem Inv.withFollows (inv : Inv s) (follows : AList fun _ : ClientId => List DrvId) :
    Inv { s with follows } :=
  ⟨inv.ids, inv.queues, inv.runs, inv.counts, inv.addrs⟩

theorem insert_diff_eq (drv : DrvId) : insert drv ∅ \ {drv} = (∅ : Set DrvId) := by
  simp

section Found

variable (inv : Inv s) (named : info.system ≠ "") (live : s.entry drv = some ent)
  (key_eq : ent.pathKey = PathKey.ofPath info.drvPath) (found : drvId info.drvPath s = .ok drv s)
include inv named live key_eq found

/-- A Want for a derivation that is assigned already. -/
theorem Inv.want_assigned (assigned : ent.worker = some wid) :
    ∃ s', Core.want client info nowMs s = .ok { drv, assigned := some (wid, ent.assignId) } s' ∧
      Inv s' ∧ Wanted s s' client info nowMs drv := by
  have noted := inv.withFollows (noteFollow s client drv (wantedEntry info nowMs (some ent)))
  have written := InvOff.setEntry noted (wantEntry client info nowMs (some ent))
    (Set.notMem_empty drv) live (by simp [Entry.pathKey]) (by simp)
    (fun name => by simp [queueKey, assigned]) (by simp [assigned])
    fun _ => wantEntry_system_ne client nowMs named _
  refine ⟨_, ?_, written, .inl ?_, ?_, ?_, rfl, rfl, rfl⟩
  · rw [want_of_drvId found (getElem?_of_entry live)]
    simp [assigned]
  · exact (InvOff.findDrv_iff inv info.drvPath drv).mpr ⟨ent, live, key_eq⟩
  · rw [live]
    exact entry_set (s := s) (lt_of_entry live) _
  · rw [live]

/-- A Want for a derivation that waits already. -/
theorem Inv.want_queued (idle : ent.worker = none) :
    ∃ s', Core.want client info nowMs s = .ok { drv } s' ∧
      Inv s' ∧ Wanted s s' client info nowMs drv := by
  have system_ne : ent.system ≠ "" :=
    inv.queues.named drv ent live (inv.queues.followed drv (Set.notMem_empty drv) ent live idle)
  have noted := inv.withFollows (noteFollow s client drv (wantedEntry info nowMs (some ent)))
  have written := (InvOff.setAside noted live idle).setEntry_aside
    (wantEntry client info nowMs (some ent)) (Set.mem_insert drv ∅) live
    (by simp [Entry.pathKey]) (by simp [wantEntry_system, system_ne])
    fun _ => wantEntry_system_ne client nowMs named _
  have written_entry := entry_set (lt_of_entry live) (some (wantEntry client info nowMs (some ent)))
  obtain ⟨next, enqueued, next_inv⟩ := written.enqueue
    ((congrFun written_entry drv).trans (update_self ..)) (by simp [idle])
    (wantEntry_followers_ne client info nowMs _)
  rw [insert_diff_eq drv] at next_inv
  refine ⟨_, ?_, next_inv, .inl ?_, ?_, ?_, rfl, rfl, rfl⟩
  · rw [want_of_drvId found (getElem?_of_entry live)]
    simp only [wantEntry_worker, Option.bind_some, idle]
    exact bind_of_ok enqueued _
  · exact (InvOff.findDrv_iff inv info.drvPath drv).mpr ⟨ent, live, key_eq⟩
  · rw [live]
    exact written_entry
  · rw [live]

end Found

/-- A Want for a new derivation. -/
theorem Inv.want_new (inv : Inv s) (named : info.system ≠ "") {entries : List (Option Entry)}
    {freeIds : List DrvId} {drvIds : AList fun _ : PathKey => DrvId}
    (unknown : s.findDrv info.drvPath = none)
    (alloc : Allocated s info.drvPath drv entries freeIds drvIds)
    (found : drvId info.drvPath s = .ok drv { s with entries, freeIds, drvIds }) :
    ∃ s', Core.want client info nowMs s = .ok { drv } s' ∧
      Inv s' ∧ Wanted s s' client info nowMs drv := by
  have noted := inv.withFollows (noteFollow s client drv (wantedEntry info nowMs none))
  obtain ⟨written, written_entry⟩ := InvOff.create noted (wantEntry client info nowMs none)
    ⟨alloc.unused, alloc.slot_eq, alloc.entry_eq, alloc.ids⟩ (by simp)
    fun _ => wantEntry_system_ne client nowMs named _
  obtain ⟨next, enqueued, next_inv⟩ := written.enqueue
    ((congrFun written_entry drv).trans (update_self ..)) (by simp)
    (wantEntry_followers_ne client info nowMs _)
  rw [insert_diff_eq drv] at next_inv
  refine ⟨_, ?_, next_inv, .inr ⟨unknown, alloc.unused⟩, ?_, ?_, rfl, rfl, rfl⟩
  · rw [want_of_drvId found alloc.slot_eq]
    simp only [wantEntry_worker, Option.bind_none]
    exact bind_of_ok enqueued _
  · rw [alloc.unused]
    exact written_entry
  · rw [alloc.unused]

/-- A Want is kept, and answered with the assignment its entry has, unless the table is full. -/
theorem Inv.want (inv : Inv s) (client : ClientId) (named : info.system ≠ "") (nowMs : ℚ) :
    (∃ drv s', Core.want client info nowMs s =
        .ok { drv, assigned := (s.entry drv).bind fun ent => ent.worker.map (·, ent.assignId) } s' ∧
      Inv s' ∧ Wanted s s' client info nowMs drv) ∨
    Core.want client info nowMs s = .error .tableFull s ∧
      (∀ drv ent, s.entry drv = some ent → ent.pathKey ≠ PathKey.ofPath info.drvPath) ∧
      maxEntries ≤ s.liveCount := by
  rcases InvOff.drvId_cases inv info.drvPath with
    ⟨drv, ent, live, key_eq, found⟩ |
    ⟨unknown, ⟨drv, entries, freeIds, drvIds, alloc, found⟩ | ⟨full, most⟩⟩
  · refine .inl ⟨drv, ?_⟩
    cases assigned : ent.worker with
    | some wid => simpa [live, assigned] using inv.want_assigned named live key_eq found assigned
    | none => simpa [live, assigned] using inv.want_queued named live key_eq found assigned
  · refine .inl ⟨drv, ?_⟩
    simpa [alloc.unused] using inv.want_new named unknown alloc found
  · refine .inr ⟨by rw [Core.want, bind_of_error full], fun drv ent live key_eq => ?_, most⟩
    rw [(inv.findDrv_iff info.drvPath drv).mpr ⟨ent, live, key_eq⟩] at unknown
    cases unknown

end Want

/-! ## Cancel -/

/-- What becomes of an entry when a client stops to follow it. -/
def unfollow (client : ClientId) (ent : Entry) : Option Entry :=
  if client ∈ ent.followers then
    if ent.followers.filter (· ≠ client) = [] ∧ ent.worker = none then none
    else some { ent with followers := ent.followers.filter (· ≠ client) }
  else
    some ent

/-- The worker that runs an entry for one client only. -/
def orphanedBy (client : ClientId) (ent : Entry) : Option WorkerId :=
  if client ∈ ent.followers ∧ ent.followers.filter (· ≠ client) = [] then ent.worker else none

theorem Inv.cancelId_assigned (inv : Inv s) {client : ClientId} (live : s.entry drv = some ent)
    (follows : client ∈ ent.followers) (assigned : ent.worker = some wid) :
    ∃ s', Core.cancelId client drv s = .ok (orphanedBy client ent) s' ∧ Inv s' ∧
      s'.entry = update s.entry drv (unfollow client ent) ∧
      Keeps s s' ∧ s'.workers = s.workers := by
  have slot_eq : (s.entries[drv]?).join = some ent := live
  have left := InvOff.setEntry inv { ent with followers := ent.followers.filter (· ≠ client) }
    (Set.notMem_empty drv) live rfl rfl (fun name => by simp [queueKey, assigned])
    (by simp [assigned]) fun _ => inv.queues.named drv ent live (List.ne_nil_of_mem follows)
  refine ⟨_, ?_, left, ?_, ⟨rfl, rfl, rfl, rfl⟩, rfl⟩
  · rw [Core.cancelId, bind_get_apply, slot_eq]
    simp only [follows, not_true_eq_false, if_false, setEntry, bind_modify_apply, assigned,
      orphanedBy, true_and]
    cases ent.followers.filter (· ≠ client) <;> rfl
  · rw [entry_set (lt_of_entry live)]
    simp [unfollow, follows, assigned]

theorem Inv.cancelId_queued (inv : Inv s) {client : ClientId} (live : s.entry drv = some ent)
    (follows : client ∈ ent.followers) (idle : ent.worker = none) :
    ∃ s', Core.cancelId client drv s = .ok (orphanedBy client ent) s' ∧ Inv s' ∧
      s'.entry = update s.entry drv (unfollow client ent) ∧
      Keeps s s' ∧ s'.workers = s.workers := by
  have slot_eq : (s.entries[drv]?).join = some ent := live
  obtain ⟨s', ran, s'_inv, s'_entry, s'_keeps, s'_workers⟩ := (InvOff.setAside inv live idle).requeue
    { ent with followers := ent.followers.filter (· ≠ client) } (Set.mem_insert drv ∅) live rfl rfl
    (fun _ => List.ne_nil_of_mem follows) idle
  rw [insert_diff_eq] at s'_inv
  refine ⟨s', ?_, s'_inv, ?_, s'_keeps, s'_workers⟩
  · rw [Core.requeue] at ran
    rw [Core.cancelId, bind_get_apply, slot_eq]
    simp only [follows, not_true_eq_false, if_false, idle, orphanedBy, ite_self]
    rw [setEntry, bind_modify_apply] at ran ⊢
    cases left : ent.followers.filter (· ≠ client) with
    | nil =>
      simp only [left, idle, List.isEmpty_nil, if_true] at ran
      exact bind_of_ok ran _
    | cons =>
      simp only [left, idle, List.isEmpty_cons, Bool.false_eq_true, if_false] at ran
      exact bind_of_ok ran _
  · rw [s'_entry]
    simp [unfollow, follows, idle]

/-- A Cancel takes one client off one entry. -/
theorem Inv.cancelId (inv : Inv s) (client : ClientId) (drv : DrvId) :
    ∃ s', Core.cancelId client drv s = .ok ((s.entry drv).bind (orphanedBy client)) s' ∧ Inv s' ∧
      s'.entry = update s.entry drv ((s.entry drv).bind (unfollow client)) ∧
      Keeps s s' ∧ s'.workers = s.workers := by
  cases live : s.entry drv with
  | none =>
    have slot_eq : (s.entries[drv]?).join = none := live
    refine ⟨s, ?_, inv, ?_, Keeps.refl s, rfl⟩
    · rw [Core.cancelId, bind_get_apply, slot_eq]
      rfl
    · rw [Option.bind_none, ← live, Function.update_eq_self]
  | some ent =>
    have slot_eq : (s.entries[drv]?).join = some ent := live
    rw [Option.bind_some, Option.bind_some]
    by_cases follows : client ∈ ent.followers
    · cases assigned : ent.worker with
      | some wid => exact inv.cancelId_assigned live follows assigned
      | none => exact inv.cancelId_queued live follows assigned
    · refine ⟨s, ?_, inv, ?_, Keeps.refl s, rfl⟩
      · rw [Core.cancelId, bind_get_apply, slot_eq]
        simp [follows, orphanedBy]
      · rw [unfollow, if_neg follows, ← live, Function.update_eq_self]

/-- What becomes of an entry when a client cancels a path. -/
def cancelled (client : ClientId) (key : PathKey) (ent : Entry) : Option Entry :=
  if ent.pathKey = key then unfollow client ent else some ent

/-- A Cancel takes the client off the entry of its path, if there is one. -/
theorem Inv.cancel (inv : Inv s) (client : ClientId) (path : String) :
    ∃ revoke s', Core.cancel client path s = .ok revoke s' ∧ Inv s' ∧
      (∀ drv, s'.entry drv = (s.entry drv).bind (cancelled client (PathKey.ofPath path))) ∧
      Keeps s s' ∧ s'.workers = s.workers := by
  rw [Core.cancel, bind_get_apply]
  cases found : s.findDrv path with
  | none =>
    refine ⟨none, s, rfl, inv, fun drv => ?_, Keeps.refl s, rfl⟩
    cases live : s.entry drv with
    | none => rfl
    | some ent =>
      have other : ent.pathKey ≠ PathKey.ofPath path := by
        intro key_eq
        rw [(InvOff.findDrv_iff inv path drv).mpr ⟨ent, live, key_eq⟩] at found
        cases found
      rw [Option.bind_some, cancelled, if_neg other]
  | some drv =>
    obtain ⟨ent, live, key_eq⟩ := (InvOff.findDrv_iff inv path drv).mp found
    obtain ⟨s', ran, s'_inv, s'_entry, s'_keeps, s'_workers⟩ := inv.cancelId client drv
    refine ⟨_, s', ran, s'_inv, fun other => ?_, s'_keeps, s'_workers⟩
    rw [s'_entry]
    by_cases same : other = drv
    · rw [same, update_self, live, Option.bind_some, Option.bind_some, cancelled, if_pos key_eq]
    · rw [update_of_ne same]
      cases other_live : s.entry other with
      | none => rfl
      | some otherEnt =>
        have other_key : otherEnt.pathKey ≠ PathKey.ofPath path := by
          intro other_eq
          have other_found := (InvOff.findDrv_iff inv path other).mpr ⟨otherEnt, other_live, other_eq⟩
          exact same (Option.some.inj (other_found.symm.trans found))
        rw [Option.bind_some, cancelled, if_neg other_key]

theorem unfollow_unfollow (client : ClientId) (ent : Entry) :
    (unfollow client ent).bind (unfollow client) = unfollow client ent := by
  unfold unfollow
  split_ifs <;> simp_all

theorem orphanedBy_unfollow (client : ClientId) (ent : Entry) :
    (unfollow client ent).bind (orphanedBy client) = none := by
  unfold unfollow orphanedBy
  split_ifs <;> simp_all

/-- A client that is cancelled on a list of slots follows none of them. -/
theorem Inv.cancelAll (inv : Inv s) (client : ClientId) (drvs : List DrvId) :
    ∃ s' revokes, Core.cancelAll client drvs s = .ok revokes s' ∧ Inv s' ∧
      (∀ drv, s'.entry drv = if drv ∈ drvs then (s.entry drv).bind (unfollow client) else s.entry drv) ∧
      (∀ drv wid, (drv, wid) ∈ revokes ↔ drv ∈ drvs ∧ (s.entry drv).bind (orphanedBy client) = some wid) ∧
      Keeps s s' ∧ s'.workers = s.workers := by
  induction drvs generalizing s with
  | nil => exact ⟨s, [], rfl, inv, by simp, by simp, Keeps.refl s, rfl⟩
  | cons drv drvs ih =>
    obtain ⟨mid, ran, mid_inv, mid_entry, mid_keeps, mid_workers⟩ := inv.cancelId client drv
    obtain ⟨s', revokes, rest, s'_inv, s'_entry, revokes_iff, s'_keeps, s'_workers⟩ := ih mid_inv
    refine ⟨s', (((s.entry drv).bind (orphanedBy client)).map (drv, ·)).toList ++ revokes, ?_,
      s'_inv, fun other => ?_, fun other wid => ?_, mid_keeps.trans s'_keeps,
      s'_workers.trans mid_workers⟩
    · rw [Core.cancelAll, bind_of_ok ran, bind_of_ok rest]
      rfl
    · rw [s'_entry, mid_entry]
      by_cases other_drv : other = drv
      · subst other_drv
        rw [update_self, if_pos List.mem_cons_self, Option.bind_assoc]
        simp only [unfollow_unfollow, ite_self]
      · rw [update_of_ne other_drv]
        simp [other_drv]
    · rw [List.mem_append, revokes_iff, mid_entry, Option.mem_toList, Option.map_eq_some_iff]
      by_cases other_drv : other = drv
      · subst other_drv
        rw [update_self, Option.bind_assoc]
        simp [orphanedBy_unfollow]
      · rw [update_of_ne other_drv]
        simp [other_drv, Ne.symm other_drv]

/-- A client that left follows nothing it ever wanted. -/
theorem Inv.clientGone (inv : Inv s) (client : ClientId) :
    ∃ s' revokes, Core.clientGone client s = .ok revokes s' ∧ Inv s' ∧
      (∀ drv, s'.entry drv =
        if drv ∈ (s.follows.lookup client).getD [] then (s.entry drv).bind (unfollow client)
        else s.entry drv) ∧
      (∀ drv wid, (drv, wid) ∈ revokes ↔
        drv ∈ (s.follows.lookup client).getD [] ∧ (s.entry drv).bind (orphanedBy client) = some wid) ∧
      (∀ other, s'.follows.lookup other =
        if other = client then none else s.follows.lookup other) ∧ s'.workers = s.workers ∧
      s'.cfg = s.cfg ∧ s'.lastAssignId = s.lastAssignId := by
  rw [Core.clientGone, bind_get_apply]
  cases known : s.follows.lookup client with
  | none =>
    refine ⟨s, [], rfl, inv, by simp, by simp, fun other => ?_, rfl, rfl, rfl⟩
    split
    · rename_i same
      rw [same, known]
    · rfl
  | some drvs =>
    obtain ⟨s', revokes, ran, s'_inv, s'_entry, revokes_iff, s'_keeps, s'_workers⟩ :=
      (inv.withFollows (s.follows.erase client)).cancelAll client drvs
    refine ⟨s', revokes, ran, s'_inv, s'_entry, revokes_iff, fun other => ?_, s'_workers,
      s'_keeps.cfg, s'_keeps.lastAssignId⟩
    rw [s'_keeps.follows]
    by_cases same : other = client
    · subst same
      simp
    · rw [if_neg same, AList.lookup_erase_ne same]

end Core

end NixGrpcStore.Sched
