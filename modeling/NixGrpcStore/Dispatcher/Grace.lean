import NixGrpcStore.Dispatcher.Follows

/-!
# The time a client has to come back

When the last follower of a running derivation leaves, a record with its slot, its assignment id and a
deadline is kept.  The record is not withdrawn when somebody asks for the derivation again, and slots
and ids are used again.  Whoever comes back and stays keeps the build.  As long as no client that came
back is the last to go while an older record points at the derivation, and no Hello puts another one in
its place, a build is revoked only after nobody followed it for the whole grace.
-/

namespace NixGrpcStore.Dispatcher

open Sched Remote StateExcept

/-- A slot holds a derivation, assigned under an id, that nobody follows but some clients. -/
def HeldFor (only : ClientId → Prop) (s : Core) (drv : DrvId) (key : PathKey) (assignId : ℕ) : Prop :=
  ∃ ent, s.entry drv = some ent ∧ ent.worker ≠ none ∧ ent.pathKey = key ∧ ent.assignId = assignId ∧
    ∀ client ∈ ent.followers, only client

/-- What is assigned and followed by nobody but clients that leave it was so before, is reported, or
was assigned just now for one of those clients. -/
structure Retains (leaves : ClientId → PathKey → Prop) (reports : PathKey → ℕ → Prop) (d d' : State) : Prop where
  inv : d'.core.Inv
  held : ∀ drv key assignId, HeldFor (leaves · key) d'.core drv key assignId →
    HeldFor (leaves · key) d.core drv key assignId ∨ reports key assignId ∨
      (∃ client, leaves client key) ∧ d.core.lastAssignId < assignId
  last_le : d.core.lastAssignId ≤ d'.core.lastAssignId
  orphans_eq : d'.orphans = d.orphans

/-- A section that finds the books kept. -/
def Retaining (leaves : ClientId → PathKey → Prop) (reports : PathKey → ℕ → Prop) (d d' : State) : Prop :=
  d.core.Inv → Retains leaves reports d d'

variable {key : PathKey} {assignId : ℕ} {sid : SessionId} {msgs : List WorkerMsg} {drv : DrvId}

section Sections

variable {leaves : ClientId → PathKey → Prop} {ended : PathKey → Prop} {reports : PathKey → ℕ → Prop}
  {world : World} {cfg : Config} {d d' d'' : State} {wid : WorkerId} {client : ClientId}

theorem HeldFor.mono {only more : ClientId → Prop} {s : Core}
    (held : HeldFor only s drv key assignId)
    (le : ∀ client, Follows s client key → only client → more client) :
    HeldFor more s drv key assignId := by
  obtain ⟨ent, live, assigned, rfl, rfl, all⟩ := held
  exact ⟨ent, live, assigned, rfl, rfl, fun client mem => le client ⟨drv, ent, live, rfl, mem⟩ (all client mem)⟩

theorem HeldFor.not_follows {s : Core} (inv : s.Inv)
    (held : HeldFor (fun _ => False) s drv key assignId) : ¬ Follows s client key := by
  obtain ⟨ent, live, -, rfl, -, all⟩ := held
  exact not_follows_of_nil inv live (List.eq_nil_iff_forall_not_mem.mpr all)

theorem Retains.trans (first : Retains leaves reports d d')
    (second : Retains leaves reports d' d'') :
    Retains leaves reports d d'' := by
  refine ⟨second.inv, fun drv key assignId held => ?_, first.last_le.trans second.last_le,
    second.orphans_eq.trans first.orphans_eq⟩
  rcases second.held drv key assignId held with old | reported | ⟨left, fresh⟩
  · exact first.held drv key assignId old
  · exact .inr (.inl reported)
  · exact .inr (.inr ⟨left, first.last_le.trans_lt fresh⟩)

theorem Wanes.heldFor {s s' : Core} (wanes : Wanes leaves ended s s')
    (held : HeldFor (leaves · key) s' drv key assignId) :
    HeldFor (leaves · key) s drv key assignId ∨
      (∃ client, leaves client key ∧ Follows s' client key) ∧ s.lastAssignId < assignId := by
  obtain ⟨new, live, assigned, rfl, rfl, all⟩ := held
  obtain ⟨ent, ent_live, wears⟩ := wanes.entry drv new live
  have key_eq := wears.pathKey_eq
  rcases wears.assigned with idle | ⟨worker_eq, id_eq⟩ | ⟨fresh, followed⟩
  · exact absurd idle assigned
  · exact .inl ⟨ent, ent_live, worker_eq ▸ assigned, key_eq.symm, id_eq.symm, fun client mem =>
      (wears.keeps client mem).elim (all client) (key_eq ▸ ·)⟩
  · obtain ⟨client, mem⟩ := List.exists_mem_of_ne_nil _ followed
    exact .inr ⟨⟨client, all client mem, drv, new, live, rfl, mem⟩, fresh⟩

theorem retains_of_wanes (wanes : Wanes leaves ended d.core d'.core)
    (orphans_eq : d'.orphans = d.orphans) : Retains leaves reports d d' := by
  refine ⟨wanes.inv, fun drv key assignId held => ?_, wanes.last_le, orphans_eq⟩
  rcases wanes.heldFor held with old | ⟨⟨client, leaving, -⟩, fresh⟩
  · exact .inl old
  · exact .inr (.inr ⟨⟨client, leaving⟩, fresh⟩)

theorem retaining_of_core_eq (core_eq : d'.core = d.core) (orphans_eq : d'.orphans = d.orphans) :
    Retaining leaves reports d d' := by
  intro inv
  refine @retains_of_wanes leaves (fun _ => False) reports d d' ?_ orphans_eq
  rw [core_eq]
  exact .refl inv

instance : Std.Refl (Retaining leaves reports) where
  refl _ := retaining_of_core_eq rfl rfl

instance : IsTrans State (Retaining leaves reports) where
  trans _ _ _ first second inv := (first inv).trans (second (first inv).inv)

theorem retaining_onCore {α : Type} {m : CoreM α}
    (waning : Respects (Waning leaves fun _ => True) m) :
    Respects (Retaining leaves reports) (onCore m) := by
  intro d inv
  rw [after_onCore]
  exact retains_of_wanes (waning d.core inv) rfl

theorem framed_retaining : Framed (Retaining leaves reports) where
  entryAt drv := retaining_onCore (waning_entryAt drv)
  workerAt wid := retaining_onCore (waning_workerAt wid)
  placeabilityChanges := retaining_onCore waning_placeabilityChanges
  workerGone wid := retaining_onCore (waning_workerGone wid)
  dispatch order := retaining_onCore (waning_dispatch order)
  markUnplaceable drv flag := retaining_onCore (waning_markUnplaceable drv flag)
  note _ _ := respects_modify fun _ => retaining_of_core_eq rfl rfl
  aside _ _ aside := retaining_of_core_eq aside.core_eq aside.orphans_eq

/-! ## Clients -/

theorem retaining_want {want : Want} (nowMs : ℚ) :
    Respects (Retaining leaves reports) (onCore (Core.want client (wantInfo cfg want) nowMs)) := by
  intro d inv
  have named : (wantInfo cfg want).system ≠ "" := systemFor_ne cfg want.system
  rw [after_onCore]
  rcases inv.want client named nowMs with ⟨drv, s', ran, s'_inv, taken⟩ | ⟨full, -⟩
  · rw [ran]
    refine ⟨s'_inv, fun other key assignId held => .inl ?_, taken.lastAssignId_eq.ge, rfl⟩
    obtain ⟨new, live, assigned, rfl, rfl, all⟩ := held
    rw [after_ok, taken.entry_eq] at live
    by_cases is_drv : other = drv
    · subst is_drv
      rw [Function.update_self] at live
      cases live
      cases old : d.core.entry other with
      | none => simp [old] at assigned
      | some ent =>
        rw [old] at assigned all
        refine ⟨ent, old, by simpa using assigned, by simp [Entry.pathKey], by simp, fun follower mem => ?_⟩
        exact all follower ((Core.mem_wantEntry_followers ..).mpr (.inr ⟨ent, rfl, mem⟩))
    · rw [Function.update_of_ne is_drv] at live
      exact ⟨new, live, assigned, rfl, rfl, all⟩
  · rw [full]
    exact retaining_of_core_eq rfl rfl inv

theorem retaining_onClientMsgs {msgs : List (ClientMsg × Bool)}
    (leaving : ∀ path cached, (ClientMsg.cancel path, cached) ∈ msgs → leaves client (PathKey.ofPath path)) :
    Respects (Retaining leaves reports) (onClientMsgs world cfg client msgs) := by
  have heard : ∀ event, Respects (Retaining leaves reports) (note event) :=
    fun _ => respects_modify fun _ => retaining_of_core_eq rfl rfl
  refine respects_onClientMsgs (fun want cached => ?_) fun drvPath cached mem => ?_
  · exact framed_retaining.delivering.onWant client want cached retaining_want fun _ => heard _
  · exact framed_retaining.toSpoken.onCancel client drvPath
      (retaining_onCore (waning_cancel (leaving drvPath cached mem))) (heard _)

/-! ## Workers -/

theorem retaining_onDone (wid : WorkerId) (done : Done) :
    Respects (Retaining leaves reports) (onDone wid done) :=
  respects_onDone (fun outputs => retaining_onCore (waning_done wid done.drvPath outputs))
    (retaining_onCore (waning_giveBack wid done.drvPath)) framed_retaining.placeabilityChangedLocked

theorem retaining_workerGone (sid : SessionId) :
    Respects (Retaining leaves reports) (workerGone world sid) :=
  framed_retaining.workerGoneLocked fun _ => retaining_of_core_eq rfl rfl

/-- The derivations of a Hello come under the ids it reports. -/
theorem greeted_held {s s' : Core} {info : HelloInfo} {superseded : List Superseded}
    (greeted : Core.Greeted s s' info wid superseded) {only : ClientId → Prop}
    (held : HeldFor only s' drv key assignId) :
    HeldFor only s drv key assignId ∨ Core.reported info.running key = some assignId := by
  obtain ⟨new, live, assigned, rfl, rfl, all⟩ := held
  cases left : (s.entry drv).bind (Core.leave wid) with
  | none =>
    obtain ⟨path, assignId, is_reported, rfl⟩ := greeted.created drv new left live
    exact .inr is_reported
  | some mid =>
    obtain ⟨ent, ent_live, left⟩ := Option.bind_eq_some_iff.mp left
    have wears : Wears (fun _ _ => False) mid.assignId ent mid := leave_wears left
    cases (greeted.known drv mid (by rw [ent_live]; exact left)).symm.trans live
    unfold Core.adoptEntry at assigned all ⊢
    cases found : Core.reported info.running mid.pathKey with
    | some assignId =>
      simp only [found] at assigned ⊢
      exact .inr found
    | none =>
      simp only [found] at assigned all ⊢
      rcases wears.assigned with idle | ⟨worker_eq, id_eq⟩ | ⟨fresh, -⟩
      · exact absurd idle assigned
      · exact .inl ⟨ent, ent_live, worker_eq ▸ assigned, wears.pathKey_eq.symm, id_eq.symm, fun client mem =>
          all client ((wears.keeps client mem).resolve_right id)⟩
      · exact absurd fresh (lt_irrefl _)

/-- A Hello that finds room for what it reports. -/
theorem onHello_retains (inv : d.core.Inv) {hel : Hello}
    (room : d.core.liveCount + hel.running.length ≤ Core.maxEntries)
    (are_reported : ∀ path assignId, (path, assignId) ∈ hel.running → reports (PathKey.ofPath path) assignId) :
    Retains leaves reports d (after (onHello world cfg sid hel d)) := by
  rcases @onHello_after world cfg d inv sid hel room with same | ⟨slot, known, mid, known_ok, detached, rfl, result⟩
  · rw [same]
    exact retaining_of_core_eq rfl rfl inv
  obtain ⟨deferred, detached'⟩ := detachOld_eq sid slot { d with core := mid.core }
  have mid_eq := (EStateM.Result.ok.inj (detached.symm.trans detached')).2
  have found : Retains leaves reports d { d with core := mid.core } :=
    (retaining_onCore (waning_workerId hel.addr)).ok (onCore_of_ok known_ok) inv
  have before : Retains leaves reports d mid :=
    ⟨found.inv, found.held, found.last_le, (congrArg State.orphans mid_eq).trans rfl⟩
  rcases result with same | ⟨wid, superseded, s', ran, same⟩
  · rw [same]
    exact before
  · obtain ⟨s'_inv, greeted⟩ := before.inv.hello ran
    have took : Retains leaves reports mid (after (membershipChangedLocked (seated mid s' sid hel wid))) := by
      refine ⟨s'_inv, fun drv key assignId held => ?_, greeted.lastAssignId_eq.ge, rfl⟩
      refine (greeted_held greeted held).imp id fun is_reported => .inl ?_
      obtain ⟨path, mem, rfl⟩ := Core.mem_of_reported is_reported
      exact are_reported path assignId mem
    have rest : Respects (Retaining leaves reports) (do supersedeAll world superseded; placeabilityChangedLocked) :=
      (framed_retaining.supersedeAll superseded).bind fun _ => framed_retaining.placeabilityChangedLocked
    rw [same]
    exact before.trans (took.trans (rest _ s'_inv))

/-- What the Hellos of a batch report. -/
def Reports (msgs : List WorkerMsg) (key : PathKey) (assignId : ℕ) : Prop :=
  ∃ hel path, .hello hel ∈ msgs ∧ (path, assignId) ∈ hel.running ∧ key = PathKey.ofPath path

theorem workerMsgs_retains (inv : d.core.Inv)
    (room : d.core.liveCount + (msgs.map roomFor).sum ≤ Core.maxEntries) :
    Retains leaves (Reports msgs) d (after (workerMsgs world cfg sid msgs d)) := by
  refine after_workerMsgs (P := Retains leaves (Reports msgs) d) (retaining_of_core_eq rfl rfl inv)
    (fun _ => id) room (fun _ => Retains.inv) (fun msg d' retains mem room => retains.trans ?_)
    fun d' retains => retains.trans (framed_retaining.dispatchLocked d' retains.inv)
  cases msg with
  | hello hel => exact onHello_retains retains.inv room fun path _ listed => ⟨hel, path, mem, listed, rfl⟩
  | _ =>
    exact respects_workerMsgLocked rfl retaining_onDone (fun wid draining => framed_retaining.onLoad wid draining
      (retaining_onCore (waning_setDraining wid draining))) d' retains.inv

/-! ## What is revoked -/

/-- A record whose time has come points at an assigned entry that nobody follows. -/
def Abandoned (s : Core) (orphan : Orphan) (path : String) : Prop :=
  ∃ ent wid, s.entry orphan.drv = some ent ∧ ent.worker = some wid ∧ ent.assignId = orphan.assignId ∧
    ent.followers = [] ∧ ent.drvPath = path

/-- From a core, only commands to revoke some derivations were handed out. -/
def RevokesOnly (s : Core) (due : String → Prop) (d d' : State) : Prop :=
  d.core = s → d'.core = s ∧ d'.orphans = d.orphans ∧
    ∃ new, d'.log = new ++ d.log ∧ ∀ sid path delivered, .toSession sid (.revoke path) delivered ∈ new → due path

section Revokes

variable {s : Core} {due : String → Prop}

instance : Std.Refl (RevokesOnly s due) where
  refl _ core_eq := ⟨core_eq, rfl, [], rfl, by simp⟩

instance : IsTrans State (RevokesOnly s due) where
  trans d d' d'' first second core_eq := by
    obtain ⟨core_eq', orphans_eq, new, log_eq, are_due⟩ := first core_eq
    obtain ⟨core_eq'', orphans_eq', new', log_eq', are_due'⟩ := second core_eq'
    refine ⟨core_eq'', orphans_eq'.trans orphans_eq, new' ++ new, by rw [log_eq', log_eq, List.append_assoc], ?_⟩
    intro sid path delivered mem
    rcases List.mem_append.mp mem with later | earlier
    · exact are_due' sid path delivered later
    · exact are_due sid path delivered earlier

theorem revokesOnly_read {α : Type} {m : CoreM α} (reads : ∀ s : Core, after (m s) = s) :
    Respects (RevokesOnly s due) (onCore m) := by
  intro d core_eq
  rw [after_onCore, reads]
  exact ⟨core_eq, rfl, [], rfl, by simp⟩

theorem revokesOnly_revokeOn {path : String} (is_due : due path) (wid : WorkerId) :
    Respects (RevokesOnly s due) (revokeOn world wid path) := by
  refine respects_get.bind fun d => ?_
  cases d.workers.lookup wid with
  | none => exact respects_pure ()
  | some sid =>
    refine Respects.bind (respects_get.bind fun d => Respects.bind ?_ fun _ => respects_pure _) fun _ =>
      respects_pure ()
    refine respects_modify fun d core_eq => ⟨core_eq, rfl, [_], rfl, ?_⟩
    intro sid' path' delivered mem
    cases List.mem_singleton.mp mem
    exact is_due

theorem revokeOrphan_revokes {orphan : Orphan} (are_due : ∀ path, Abandoned s orphan path → due path) :
    Respects (RevokesOnly s due) (revokeOrphan world orphan) := by
  intro d core_eq
  refine respects_bind_at (R := RevokesOnly s due) (revokesOnly_read (after_entryAt orphan.drv) d)
    (fun slot d' found => ?_) core_eq
  cases slot with
  | none => exact respects_pure () d'
  | some ent =>
    cases assigned : ent.worker with
    | none =>
      simp only [assigned]
      exact respects_pure () d'
    | some wid =>
      simp only [assigned]
      split_ifs with matched
      · obtain ⟨s', read, -⟩ := onPart_eq_ok.mp found
        have live : s.entry orphan.drv = some ent := by
          rw [core_eq] at read
          unfold Core.entryAt at read
          rw [bind_get_apply] at read
          cases slot_eq : s.entries[orphan.drv]? with
          | none => simp [slot_eq] at read
          | some slot =>
            simp only [slot_eq, pure_apply, EStateM.Result.ok.injEq] at read
            rw [Core.entry, slot_eq, read.1]
            rfl
        refine revokesOnly_revokeOn (are_due _ ⟨ent, wid, live, assigned, matched.1, ?_, rfl⟩) wid d'
        exact List.isEmpty_iff.mp matched.2
      · exact respects_pure () d'

theorem revokeDue_revokes {now : ℚ} {orphans : List Orphan}
    (are_due : ∀ orphan ∈ orphans, orphan.dueMs ≤ now → ∀ path, Abandoned s orphan path → due path) :
    Respects (RevokesOnly s due) (revokeDue world now orphans) := by
  induction orphans with
  | nil => exact respects_pure []
  | cons orphan orphans ih =>
    have rest := ih fun other mem => are_due other (List.mem_cons_of_mem _ mem)
    unfold Dispatcher.revokeDue
    split_ifs with early
    · exact rest.bind fun _ => respects_pure _
    · exact (revokeOrphan_revokes (are_due orphan List.mem_cons_self (not_lt.mp early))).bind fun _ => rest

/-- The records that are left are some of those there were. -/
theorem revokeDue_sub {now : ℚ} {orphans rest : List Orphan} {d d' : State}
    (ran : revokeDue world now orphans d = .ok rest d') : rest ⊆ orphans := by
  induction orphans generalizing d rest with
  | nil =>
    cases ran
    exact List.Subset.refl _
  | cons orphan orphans ih =>
    unfold Dispatcher.revokeDue at ran
    split_ifs at ran
    · obtain ⟨kept, mid, kept_ran, ended⟩ := bind_eq_ok.mp ran
      cases ended
      exact List.cons_subset_cons _ (ih kept_ran)
    · obtain ⟨_, mid, -, kept_ran⟩ := bind_eq_ok.mp ran
      exact fun _ mem => List.mem_cons_of_mem _ (ih kept_ran mem)

theorem revokeOrphans_revokes (world : World) (d : State) : (after (revokeOrphans world d)).core = d.core ∧
    (after (revokeOrphans world d)).orphans ⊆ d.orphans ∧
    ∃ new, (after (revokeOrphans world d)).log = new ++ d.log ∧
      ∀ sid path delivered, .toSession sid (.revoke path) delivered ∈ new →
        ∃ orphan ∈ d.orphans, orphan.dueMs ≤ world.nowMs d.log ∧ Abandoned d.core orphan path := by
  have revokes := @revokeDue_revokes world d.core
    (fun path => ∃ orphan ∈ d.orphans, orphan.dueMs ≤ world.nowMs d.log ∧ Abandoned d.core orphan path)
    (world.nowMs d.log) d.orphans (fun orphan mem late path left => ⟨orphan, mem, late, left⟩) d rfl
  rw [revokeOrphans, bind_get_apply, bind_apply]
  cases ran : revokeDue world (world.nowMs d.log) d.orphans d with
  | error err d' =>
    rw [ran] at revokes
    obtain ⟨core_eq, orphans_eq, logged⟩ := revokes
    exact ⟨core_eq, orphans_eq ▸ List.Subset.refl _, logged⟩
  | ok rest d' =>
    rw [ran] at revokes
    obtain ⟨core_eq, -, logged⟩ := revokes
    exact ⟨core_eq, revokeDue_sub ran, logged⟩

end Revokes

end Sections

/-! ## Runs -/

/-- The dispatcher with its past: the time of each call and the state it found. -/
structure Chronicle where
  disp : Dispatcher
  past : List (ℚ × State) := []

/-- The chronicle goes on after a call. -/
def Chronicle.next (g : Chronicle) (time : ℚ) (x : Dispatcher) : Chronicle where
  disp := x
  past := (time, g.disp.state) :: g.past

/-- A client is the last follower of the derivation that a pending record points at. -/
def LastOf (d : State) (client : ClientId) (key : PathKey) : Prop :=
  Follows d.core client key ∧
    ∃ orphan ∈ d.orphans, HeldFor (· = client) d.core orphan.drv key orphan.assignId

/-- Nobody follows a derivation, or has since a record was noted. -/
def Chronicle.Unsought (g : Chronicle) (orphan : Orphan) (key : PathKey) : Prop :=
  (∀ client, ¬ Follows g.disp.state.core client key) ∧
    ∀ moment ∈ g.past, orphan.dueMs - orphanGraceMs < moment.1 → ∀ client, ¬ Follows moment.2.core client key

/-- No client takes itself off, by leaving or by a Cancel, as the last follower of what a pending
record points at.  When a Cancel comes, the ids of the records have been given out.  What a Hello
reports under the id of a record is what the record points at, and no Done comes with it, or nobody
has followed it since.  The table has room for what is reported. -/
def Call.Considerate (g : Chronicle) : Call → Prop
  | .clientGone client => ∀ key, ¬ LastOf g.disp.state client key
  | .applyChunk index => ∀ job, g.disp.applying[index]? = some job →
      ∀ path cached, (ClientMsg.cancel path, cached) ∈ job.msgs.take chunk →
        ¬ LastOf g.disp.state job.client (PathKey.ofPath path) ∧
          ∀ orphan ∈ g.disp.state.orphans, orphan.assignId ≤ g.disp.state.core.lastAssignId
  | .workerMsgs _ msgs =>
    (∀ key, ∀ orphan ∈ g.disp.state.orphans, Reports msgs key orphan.assignId →
      HeldFor (fun _ => True) g.disp.state.core orphan.drv key orphan.assignId ∧
          (∀ done, .done done ∈ msgs → PathKey.ofPath done.drvPath ≠ key) ∨
        g.Unsought orphan key) ∧
    g.disp.state.core.liveCount + (msgs.map roomFor).sum ≤ Core.maxEntries
  | _ => True

/-- Time does not go back: a call is made after the calls before it and reads the clock later. -/
def Chronicle.Timely (g : Chronicle) (time : ℚ) (world : World) : Prop :=
  (∀ moment ∈ g.past, moment.1 ≤ time) ∧ ∀ log, time ≤ world.nowMs log

/-- A considerate call, whether or not it throws. -/
def ConsiderateAttempt (cfg : Config) (g : Chronicle) (calls : List Call) (g' : Chronicle) : Prop :=
  ∃ call world time, calls = [call] ∧ call.allowed cfg g.disp ∧ g.Timely time world ∧
    call.Considerate g ∧ g' = g.next time (after (call.perform world cfg g.disp))

/-- The runs in which all calls are considerate. -/
abbrev Recorded (cfg : Config) : Chronicle → List Call → Prop :=
  Run.Reached
    (fun g => ∃ config : Sched.Config, g = { disp := { state := { core := { cfg := config } } } })
    (ConsiderateAttempt cfg)

/-- If a record points at something that nobody follows, nobody did since the record was noted. -/
structure Patient (g : Chronicle) : Prop where
  inv : g.disp.state.core.Inv
  spared : ∀ orphan ∈ g.disp.state.orphans, ∀ key,
    HeldFor (fun _ => False) g.disp.state.core orphan.drv key orphan.assignId →
      ∀ moment ∈ g.past, orphan.dueMs - orphanGraceMs < moment.1 → ∀ client, ¬ Follows moment.2.core client key

section Runs

variable {world : World} {cfg : Config} {g : Chronicle} {calls : List Call} {time : ℚ} {x : Dispatcher}

theorem Patient.unsought (patient : Patient g) {orphan : Orphan}
    (pending : orphan ∈ g.disp.state.orphans)
    (held : HeldFor (fun _ => False) g.disp.state.core orphan.drv key orphan.assignId) :
    g.Unsought orphan key :=
  ⟨fun _ => held.not_follows patient.inv, patient.spared orphan pending key held⟩

theorem Chronicle.Unsought.next {orphan : Orphan} (unsought : g.Unsought orphan key) :
    ∀ moment ∈ (time, g.disp.state) :: g.past, orphan.dueMs - orphanGraceMs < moment.1 →
      ∀ client, ¬ Follows moment.2.core client key := by
  intro moment mem recent
  rcases List.mem_cons.mp mem with rfl | old
  · exact unsought.1
  · exact unsought.2 moment old recent

/-- What a record points at afterwards, if nobody follows it, was not followed since it was noted. -/
theorem Patient.step (inv : x.state.core.Inv) (sub : x.state.orphans ⊆ g.disp.state.orphans)
    (old : ∀ orphan ∈ g.disp.state.orphans, ∀ key,
      HeldFor (fun _ => False) x.state.core orphan.drv key orphan.assignId → g.Unsought orphan key) :
    Patient (g.next time x) :=
  ⟨inv, fun orphan mem key held => (old orphan (sub mem) key held).next⟩

theorem Patient.fewer (patient : Patient g) (core_eq : x.state.core = g.disp.state.core)
    (sub : x.state.orphans ⊆ g.disp.state.orphans) : Patient (g.next time x) :=
  .step (core_eq ▸ patient.inv) sub fun _ pending _ held => patient.unsought pending (core_eq ▸ held)

/-- A section in which one client takes itself off some derivations. -/
theorem Patient.retains (patient : Patient g) {leaver : ClientId} {left : PathKey → Prop}
    {reports : PathKey → ℕ → Prop} {d : State}
    (retains : Retains (fun client key => client = leaver ∧ left key) reports g.disp.state d)
    (stays : ∀ key, left key → ¬ LastOf g.disp.state leaver key ∧
      ∀ orphan ∈ g.disp.state.orphans, orphan.assignId ≤ g.disp.state.core.lastAssignId)
    (reported : ∀ key, ∀ orphan ∈ g.disp.state.orphans, reports key orphan.assignId →
      HeldFor (fun _ => False) d.core orphan.drv key orphan.assignId → g.Unsought orphan key)
    (core_eq : x.state.core = d.core) (orphans_eq : x.state.orphans = d.orphans) : Patient (g.next time x) := by
  refine .step (core_eq ▸ retains.inv) ?_ fun orphan pending key held => ?_
  · rw [orphans_eq, retains.orphans_eq]
    exact List.Subset.refl _
  rw [core_eq] at held
  rcases retains.held orphan.drv key orphan.assignId (held.mono fun _ _ => False.elim) with
    old | is_reported | ⟨⟨client, -, is_left⟩, fresh⟩
  · refine patient.unsought pending (old.mono fun client follows leaving => (stays key leaving.2).1 ?_)
    exact ⟨leaving.1 ▸ follows, orphan, pending, old.mono fun _ _ => And.left⟩
  · exact reported key orphan pending is_reported held
  · exact absurd ((stays key is_left).2 orphan pending) (not_le.mpr fresh)

theorem Patient.applyChunk (patient : Patient g) {index : ℕ} {job : Applying}
    (considerate : Call.Considerate g (.applyChunk index)) (found : g.disp.applying[index]? = some job)
    (state_eq : x.state =
      { after (onClientMsgs world cfg job.client (job.msgs.take chunk) g.disp.state) with deferred := [] }) :
    Patient (g.next time x) := by
  have retains : Retains (fun client key => client = job.client ∧
        ∃ path cached, (ClientMsg.cancel path, cached) ∈ job.msgs.take chunk ∧ key = PathKey.ofPath path)
      (fun _ _ => False) g.disp.state (after (onClientMsgs world cfg job.client (job.msgs.take chunk) g.disp.state)) :=
    retaining_onClientMsgs (fun path cached mem => ⟨rfl, path, cached, mem, rfl⟩) _ patient.inv
  refine patient.retains retains ?_ (fun _ _ _ => False.elim) (by rw [state_eq]) (by rw [state_eq])
  rintro _ ⟨path, cached, mem, rfl⟩
  exact considerate job found path cached mem

theorem done_of_endsIn {d : State} (ends : EndsIn world cfg sid key msgs d) :
    ∃ done, .done done ∈ msgs ∧ PathKey.ofPath done.drvPath = key := by
  induction msgs generalizing d with
  | nil => exact ends.elim
  | cons msg msgs ih =>
    rcases ends with now | ⟨d', -, later⟩
    · cases msg with
      | done done => exact ⟨done, List.mem_cons_self, now.2.1⟩
      | _ => exact now.elim
    · obtain ⟨done, mem, is_key⟩ := ih later
      exact ⟨done, List.mem_cons_of_mem _ mem, is_key⟩

theorem Patient.workerMsgs (patient : Patient g)
    (considerate : Call.Considerate g (.workerMsgs sid msgs))
    (state_eq : x.state =
      { after (Dispatcher.workerMsgs world cfg sid msgs g.disp.state) with deferred := [] }) :
    Patient (g.next time x) := by
  have retains : Retains (fun client _ => client = 0 ∧ False) (Reports msgs) g.disp.state
      (after (Dispatcher.workerMsgs world cfg sid msgs g.disp.state)) :=
    workerMsgs_retains patient.inv considerate.2
  have loosens := @workerMsgs_loosens world cfg g.disp.state sid msgs patient.inv considerate.2
  refine patient.retains retains (fun _ => False.elim) (fun key orphan pending reported held => ?_)
    (by rw [state_eq]) (by rw [state_eq])
  rcases considerate.1 key orphan pending reported with ⟨was_held, unfinished⟩ | unsought
  · -- whoever followed it would still do so, since no Done ended it
    refine patient.unsought pending (was_held.mono fun client follows _ => ?_)
    rcases loosens.stays client key follows with still | ends
    · exact held.not_follows retains.inv still
    · obtain ⟨done, mem, is_key⟩ := done_of_endsIn ends
      exact unfinished done mem is_key
  · exact unsought

/-- A client leaves. -/
theorem Patient.clientGone (patient : Patient g) (attended : Attended g.disp) (timely : g.Timely time world)
    {client : ClientId} (considerate : Call.Considerate g (.clientGone client)) :
    Patient (g.next time (after (withLock (Dispatcher.clientGone world client) g.disp))) := by
  obtain ⟨s', revokes, core_ran, -, ran⟩ :=
    @clientGone_left world g.disp.state attended.bound attended.traced client
  have wanes := @waning_clientGone (fun other _ => other = client) (fun _ => False) client (fun _ => rfl)
    g.disp.state.core patient.inv
  rw [core_ran] at wanes
  rw [after_withLock, ran, after_ok]
  refine ⟨wanes.inv, fun orphan mem key held => ?_⟩
  rcases List.mem_append.mp mem with pending | noted
  · refine (patient.unsought pending ?_).next
    rcases wanes.heldFor (held.mono fun _ _ => False.elim) with old | ⟨⟨other, -, follows⟩, -⟩
    · exact old.mono fun other follows leaving =>
        considerate key ⟨leaving ▸ follows, orphan, pending, old⟩
    · exact absurd follows (held.not_follows wanes.inv)
  · -- the record is new, and everything recorded happened before its grace began
    obtain ⟨⟨drv, wid⟩, -, made⟩ := List.mem_filterMap.mp noted
    obtain ⟨ent, -, rfl⟩ := Option.map_eq_some_iff.mp made
    intro moment moment_mem recent
    simp only [add_sub_cancel_right] at recent
    refine absurd recent (not_lt.mpr ?_)
    rcases List.mem_cons.mp moment_mem with rfl | old
    · exact timely.2 _
    · exact (timely.1 moment old).trans (timely.2 _)

theorem Patient.call (patient : Patient g) (attended : Attended g.disp) (timely : g.Timely time world)
    {call : Call} (considerate : call.Considerate g) :
    Patient (g.next time (after (call.perform world cfg g.disp))) := by
  rcases call.outcome world cfg g.disp with ⟨x', ran, idles⟩ | ⟨m, runs, state_eq, -⟩
  · rw [ran]
    exact patient.fewer idles.core_eq (idles.orphans_eq ▸ List.Subset.refl _)
  · have retaining : Respects (Retaining (fun client _ => client = 0 ∧ False) fun _ _ => False) m →
        Patient (g.next time (after (call.perform world cfg g.disp))) := fun retaining =>
      patient.retains (retaining g.disp.state patient.inv) (fun _ => False.elim)
        (fun _ _ _ => False.elim) (by rw [state_eq]) (by rw [state_eq])
    cases runs with
    | chunk found => exact patient.applyChunk considerate found state_eq
    | clientGone client => exact patient.clientGone attended timely considerate
    | workerMsgs sid msgs => exact patient.workerMsgs considerate state_eq
    | workerGone sid => exact retaining (retaining_workerGone sid)
    | revokeOrphans =>
      obtain ⟨same, sub, -⟩ := revokeOrphans_revokes world g.disp.state
      exact patient.fewer (by rw [state_eq]; exact same) (by rw [state_eq]; exact sub)
    | restarting => exact retaining framed_retaining.restarting

theorem Recorded.patient (recorded : Recorded cfg g calls) : Patient g := by
  have both : Patient g ∧ Attended g.disp := by
    refine recorded.state_invariant (P := fun g => Patient g ∧ Attended g.disp) ?_ ?_
    · rintro _ ⟨config, rfl⟩
      exact ⟨⟨Core.inv_empty config, by simp⟩, @Attempted.attended cfg _ [] (.start ⟨config, rfl⟩)⟩
    · rintro g _ g' ⟨patient, attended⟩ ⟨call, world, time, rfl, allowed, timely, considerate, rfl⟩
      exact ⟨patient.call attended timely considerate, attended.call allowed⟩
  exact both.1

/-- Whenever the records are looked at in such a run, only derivations are revoked that are assigned
and that nobody followed at any moment of the grace before. -/
theorem grace_honoured (recorded : Recorded cfg g calls) (world : World) (time : ℚ) :
    ∃ new, (after (Call.perform world cfg .revokeOrphans g.disp)).state.log = new ++ g.disp.state.log ∧
      ∀ sid path delivered, .toSession sid (.revoke path) delivered ∈ new →
        (∃ drv assignId, HeldFor (fun _ => False) g.disp.state.core drv (PathKey.ofPath path) assignId) ∧
        ∀ moment ∈ (time, g.disp.state) :: g.past,
          world.nowMs g.disp.state.log - orphanGraceMs < moment.1 →
            ∀ client, ¬ Follows moment.2.core client (PathKey.ofPath path) := by
  have patient := recorded.patient
  obtain ⟨-, -, new, log_eq, revoked⟩ := revokeOrphans_revokes world g.disp.state
  refine ⟨new, ?_, fun sid path delivered mem => ?_⟩
  · rw [Call.perform, after_withLock]
    exact log_eq
  obtain ⟨orphan, pending, due, ent, wid, live, assigned, id_eq, bare, rfl⟩ := revoked sid path delivered mem
  have held : HeldFor (fun _ => False) g.disp.state.core orphan.drv ent.pathKey orphan.assignId :=
    ⟨ent, live, by simp [assigned], rfl, id_eq, by simp [bare]⟩
  refine ⟨⟨orphan.drv, orphan.assignId, held⟩, fun moment moment_mem recent client => ?_⟩
  exact (patient.unsought pending held).next moment moment_mem (lt_of_le_of_lt (sub_le_sub_right due _) recent) client

/-- Surroundings in which every command is accepted, at some time. -/
def World.at (now : ℚ) : World := { World.obliging with nowMs := fun _ => now }

/-- The chronicle of calls made at some times. -/
def chronicleOf (cfg : Config) : List (ℚ × Call) → Chronicle → Chronicle
  | [], g => g
  | (time, call) :: calls, g =>
    chronicleOf cfg calls (g.next time (after (call.perform (World.at time) cfg g.disp)))

/-- Hellos and departures come while nothing is pending, and Cancels never. -/
def gentle (x : Dispatcher) : Call → Bool
  | .clientGone _ => x.state.orphans.isEmpty
  | .applyChunk _ => x.applying.all fun job => job.msgs.all fun msg => (msg.1 matches .want _)
  | .workerMsgs _ msgs =>
    x.state.orphans.isEmpty && decide (x.state.core.liveCount + (msgs.map roomFor).sum ≤ Core.maxEntries)
  | _ => true

theorem considerate_of_gentle {call : Call} (is_gentle : gentle g.disp call = true) :
    call.Considerate g := by
  cases call with
  | clientGone client =>
    rintro key ⟨-, orphan, pending, -⟩
    simp [List.isEmpty_iff.mp is_gentle] at pending
  | workerMsgs sid msgs =>
    obtain ⟨settled, room⟩ := Bool.and_eq_true_iff.mp is_gentle
    exact ⟨by simp [List.isEmpty_iff.mp settled], of_decide_eq_true room⟩
  | applyChunk index =>
    intro job found path cached mem
    have wants := List.all_eq_true.mp is_gentle job (List.mem_of_getElem? found)
    cases List.all_eq_true.mp wants _ (List.mem_of_mem_take mem)
  | _ => trivial

/-- Gentle calls that come in order of time. -/
def quietly (cfg : Config) : List (ℚ × Call) → Chronicle → Bool
  | [], _ => true
  | (time, call) :: calls, g =>
    call.allowed cfg g.disp && g.past.all (·.1 ≤ time) && gentle g.disp call &&
      quietly cfg calls (g.next time (after (call.perform (World.at time) cfg g.disp)))

theorem recorded_chronicleOf {timed : List (ℚ × Call)} {made : List Call}
    (recorded : Recorded cfg g made) (quiet : quietly cfg timed g = true) :
    Recorded cfg (chronicleOf cfg timed g) (made ++ timed.map Prod.snd) := by
  induction timed generalizing g made with
  | nil => simpa [chronicleOf] using recorded
  | cons item timed ih =>
    obtain ⟨time, call⟩ := item
    simp only [quietly, Bool.and_eq_true, List.all_eq_true, decide_eq_true_eq] at quiet
    obtain ⟨⟨⟨allowed, early⟩, is_gentle⟩, quiet⟩ := quiet
    have next : Recorded cfg (g.next time (after (call.perform (World.at time) cfg g.disp))) (made ++ [call]) :=
      .step recorded ⟨call, World.at time, time, rfl, allowed, ⟨early, fun _ => le_rfl⟩,
        considerate_of_gentle is_gentle, rfl⟩
    simpa [chronicleOf] using ih next quiet

/-- A client leaves, another comes for its build five seconds later, stays beyond the deadline of the
first and leaves as well. -/
def relieved : List (ℚ × Call) :=
  (onePlacement.map fun step => (0, step.2)) ++ [(0, .clientGone 1), (5000, .connectClient),
    (5000, .clientMsgs 2 [.want { drvPath := "a.drv" }] fun _ => none), (5000, .applyChunk 0),
    (10000, .revokeOrphans), (12000, .clientGone 2)]

/-- Its build is revoked once nobody came for ten more seconds, and not before. -/
theorem grace_honoured_relieved :
    ∃ g, Recorded uncached g (relieved.map Prod.snd) ∧
      .toSession 0 (.revoke "a.drv") true ∉ g.disp.state.log ∧
      (after (Call.perform (World.at 21999) uncached .revokeOrphans g.disp)).state.log = g.disp.state.log ∧
      (after (Call.perform (World.at 22000) uncached .revokeOrphans g.disp)).state.log =
        .toSession 0 (.revoke "a.drv") true :: g.disp.state.log ∧
      ∀ client, ¬ Follows g.disp.state.core client (PathKey.ofPath "a.drv") := by
  obtain ⟨g, recorded, spared, early, sent⟩ : ∃ g, Recorded uncached g (relieved.map Prod.snd) ∧
      .toSession 0 (.revoke "a.drv") true ∉ g.disp.state.log ∧
      (after (Call.perform (World.at 21999) uncached .revokeOrphans g.disp)).state.log = g.disp.state.log ∧
      (after (Call.perform (World.at 22000) uncached .revokeOrphans g.disp)).state.log =
        .toSession 0 (.revoke "a.drv") true :: g.disp.state.log := by
    have recorded : Recorded uncached (chronicleOf uncached relieved { disp := {} }) ([] ++ relieved.map Prod.snd) :=
      recorded_chronicleOf (.start ⟨{}, rfl⟩) (by decide +kernel)
    rw [List.nil_append] at recorded
    exact ⟨_, recorded, by decide +kernel, by decide +kernel, by decide +kernel⟩
  refine ⟨g, recorded, spared, early, sent, ?_⟩
  obtain ⟨new, log_eq, revoked⟩ := grace_honoured recorded (World.at 22000) 22000
  have new_eq : new = [.toSession 0 (.revoke "a.drv") true] :=
    List.append_cancel_right (log_eq.symm.trans (sent.trans (List.singleton_append ..).symm))
  refine (revoked 0 "a.drv" true (new_eq ▸ List.mem_cons_self)).2 _ List.mem_cons_self ?_
  simp [World.at, orphanGraceMs]

/-- A client comes back for the build of another that left, five seconds later. -/
def comeBack : List (World × Call) :=
  onePlacement ++ [(World.at 0, .clientGone 1), (World.at 5000, .connectClient),
    (World.at 5000, .clientMsgs 2 [.want { drvPath := "a.drv" }] fun _ => none), (World.at 5000, .applyChunk 0)]

/-- It leaves after nine seconds, and the build is revoked one second later. -/
theorem returned_client_revoked_early :
    ∃ found x, Reached uncached found (comeBack.map Prod.snd) ∧
      Follows found.state.core 2 (PathKey.ofPath "a.drv") ∧
      Call.perform (World.at 9000) uncached (.clientGone 2) found = .ok () x ∧
      (after (Call.perform (World.at 10000) uncached .revokeOrphans x)).state.log =
        .toSession 0 (.revoke "a.drv") true :: x.state.log := by
  have ends : (runAll uncached comeBack {}).bind (fun found =>
      (runAll uncached [(World.at 9000, .clientGone 2)] found).map fun x =>
        ((found.state.core.entry 0).map fun ent => (ent.drvPath, ent.followers),
          decide ((after (Call.perform (World.at 10000) uncached .revokeOrphans x)).state.log =
            .toSession 0 (.revoke "a.drv") true :: x.state.log))) = some (some ("a.drv", [2]), true) := by
    decide +kernel
  obtain ⟨found, came, later⟩ := Option.bind_eq_some_iff.mp ends
  obtain ⟨x, left, shape⟩ := Option.map_eq_some_iff.mp later
  obtain ⟨entry_eq, sent⟩ := Prod.mk.inj shape
  obtain ⟨ent, live, ent_eq⟩ := Option.map_eq_some_iff.mp entry_eq
  obtain ⟨path_eq, followers_eq⟩ := Prod.mk.inj ent_eq
  refine ⟨found, x, Reached.runAll (.start ⟨{}, rfl⟩) came, ⟨0, ent, live, by rw [Entry.pathKey, path_eq], ?_⟩, ?_,
    of_decide_eq_true sent⟩
  · rw [followers_eq]
    exact List.mem_singleton_self 2
  · rw [runAll] at left
    split_ifs at left
    cases gone : Call.perform (World.at 9000) uncached (.clientGone 2) found with
    | error err failed => simp [gone] at left
    | ok _ x' =>
      rw [gone] at left
      cases left
      rfl

end Runs

end NixGrpcStore.Dispatcher
