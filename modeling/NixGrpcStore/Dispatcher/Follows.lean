import NixGrpcStore.Dispatcher.Membership

/-!
# Who follows what

A client follows a derivation from the Want that is kept until it cancels or leaves, or until a Done
ends the derivation.  What else happens to the derivation, whether it is placed, given back or lost
with its worker, does not change who follows it.
-/

namespace NixGrpcStore.Dispatcher

open Sched Remote StateExcept

/-- A client is among the followers of the live entry of a derivation. -/
def Follows (s : Core) (client : ClientId) (key : PathKey) : Prop :=
  ∃ drv ent, s.entry drv = some ent ∧ ent.pathKey = key ∧ client ∈ ent.followers

/-- Messages of clients. -/
def Event.asks : Event → Bool
  | .want _ _ _ => true
  | .cancel _ _ => true
  | _ => false

/-- The messages of clients that were taken in, newest first. -/
def State.asked (d : State) : List Event := d.log.filter Event.asks

section Core

variable {leaves : ClientId → PathKey → Prop} {ended : PathKey → Prop} {s s' : Core} {client : ClientId}
  {key : PathKey}

theorem Wanes.fewer (wanes : Wanes leaves ended s s') (follows : Follows s' client key) :
    Follows s client key := by
  obtain ⟨drv, new, live, rfl, mem⟩ := follows
  obtain ⟨ent, ent_live, wears⟩ := wanes.entry drv new live
  exact ⟨drv, ent, ent_live, wears.pathKey_eq.symm, wears.followers_sub mem⟩

theorem Wanes.follows (wanes : Wanes leaves ended s s') (follows : Follows s client key) :
    Follows s' client key ∨ leaves client key ∨ ended key := by
  obtain ⟨drv, ent, live, rfl, mem⟩ := follows
  rcases wanes.stays drv ent live client mem with stays | gone
  · obtain ⟨new, new_live⟩ := Option.isSome_iff_exists.mp stays
    obtain ⟨old, old_live, wears⟩ := wanes.entry drv new new_live
    cases old_live.symm.trans live
    exact (wears.keeps client mem).imp (fun mem => ⟨drv, new, new_live, wears.pathKey_eq, mem⟩) .inl
  · exact .inr gone

/-- Nobody follows what nobody follows in its slot. -/
theorem not_follows_of_nil {drv : DrvId} {ent : Entry} (inv : s.Inv) (live : s.entry drv = some ent)
    (bare : ent.followers = []) : ¬ Follows s client ent.pathKey := by
  rintro ⟨other, found, other_live, key_eq, mem⟩
  obtain rfl := drv_unique inv live other_live key_eq
  cases other_live.symm.trans live
  rw [bare] at mem
  cases mem

theorem adoptEntry_followers (wid : WorkerId) (running : List (String × ℕ)) (ent : Entry) :
    (Core.adoptEntry wid running ent).followers = ent.followers ∧
      (Core.adoptEntry wid running ent).pathKey = ent.pathKey := by
  unfold Core.adoptEntry
  split
  · exact ⟨rfl, rfl⟩
  · exact ⟨rfl, rfl⟩

theorem follows_of_greeted {info : HelloInfo} {wid : WorkerId} {superseded : List Superseded}
    (greeted : Core.Greeted s s' info wid superseded) :
    Follows s' client key ↔ Follows s client key := by
  have wears : ∀ {ent mid}, Core.leave wid ent = some mid → Wears (fun _ _ => False) 0 ent mid := leave_wears
  constructor
  · rintro ⟨drv, new, live, rfl, follows⟩
    cases left : (s.entry drv).bind (Core.leave wid) with
    | none =>
      obtain ⟨path, assignId, -, rfl⟩ := greeted.created drv new left live
      cases follows
    | some mid =>
      cases (greeted.known drv mid left).symm.trans live
      obtain ⟨old, old_live, left⟩ := Option.bind_eq_some_iff.mp left
      obtain ⟨followers_eq, key_eq⟩ := adoptEntry_followers wid info.running mid
      exact ⟨drv, old, old_live, (key_eq.trans (wears left).pathKey_eq).symm,
        (wears left).followers_sub (followers_eq ▸ follows)⟩
  · rintro ⟨drv, ent, live, rfl, follows⟩
    obtain ⟨mid, left⟩ := Option.isSome_iff_exists.mp (@leave_stays ent wid client follows)
    obtain ⟨followers_eq, key_eq⟩ := adoptEntry_followers wid info.running mid
    refine ⟨drv, _, greeted.known drv mid (by rw [live, Option.bind_some, left]),
      key_eq.trans (wears left).pathKey_eq, ?_⟩
    rw [followers_eq]
    exact ((wears left).keeps client follows).resolve_right id

/-- A Want adds its client. -/
theorem follows_of_wanted {cfg : Config} {want : Want} {nowMs : ℚ} {drv : DrvId} (inv : s.Inv)
    (wanted : Core.Wanted s s' client (wantInfo cfg want) nowMs drv) (other : ClientId) (key : PathKey) :
    Follows s' other key ↔
      Follows s other key ∨ other = client ∧ key = PathKey.ofPath want.drvPath := by
  have own_key : (Core.wantEntry client (wantInfo cfg want) nowMs (s.entry drv)).pathKey =
      PathKey.ofPath want.drvPath := by
    rw [Entry.pathKey, Core.wantEntry_drvPath]
    rcases wanted.place with found | ⟨-, unused⟩
    · obtain ⟨ent, live, key_eq⟩ := (inv.findDrv_iff _ _).mp found
      rw [live]
      exact key_eq
    · rw [unused]
      rfl
  have own_entry : s'.entry drv = some (Core.wantEntry client (wantInfo cfg want) nowMs (s.entry drv)) := by
    rw [wanted.entry_eq, Function.update_self]
  constructor
  · rintro ⟨at_drv, new, live, rfl, follows⟩
    by_cases is_drv : at_drv = drv
    · subst is_drv
      cases own_entry.symm.trans live
      rcases (Core.mem_wantEntry_followers client _ _ _).mp follows with is_client | ⟨ent, old, follows⟩
      · exact .inr ⟨is_client, own_key⟩
      · refine .inl ⟨at_drv, ent, old, ?_, follows⟩
        rw [Entry.pathKey, Entry.pathKey, Core.wantEntry_drvPath, old]
        rfl
    · rw [wanted.entry_eq, Function.update_of_ne is_drv] at live
      exact .inl ⟨at_drv, new, live, rfl, follows⟩
  · rintro (⟨at_drv, ent, live, rfl, follows⟩ | ⟨rfl, rfl⟩)
    · by_cases is_drv : at_drv = drv
      · subst is_drv
        refine ⟨at_drv, _, own_entry, ?_, (Core.mem_wantEntry_followers _ _ _ _).mpr
          (.inr ⟨ent, live, follows⟩)⟩
        rw [Entry.pathKey, Entry.pathKey, Core.wantEntry_drvPath, live]
        rfl
      · refine ⟨at_drv, ent, ?_, rfl, follows⟩
        rw [wanted.entry_eq, Function.update_of_ne is_drv, live]
    · exact ⟨drv, _, own_entry, own_key, (Core.mem_wantEntry_followers _ _ _ _).mpr (.inl rfl)⟩

/-- A Cancel takes its client off its derivation. -/
theorem not_follows_of_cancelled {path : PathKey}
    (entry_eq : ∀ drv, s'.entry drv = (s.entry drv).bind (Core.cancelled client path)) :
    ¬ Follows s' client path := by
  rintro ⟨drv, new, live, key_eq, follows⟩
  rw [entry_eq] at live
  obtain ⟨ent, -, left⟩ := Option.bind_eq_some_iff.mp live
  unfold Core.cancelled at left
  split_ifs at left with is_path
  · exact ((mem_unfollow left client).mp follows).2 rfl
  · cases left
    exact is_path key_eq

end Core

/-! ## Sections that concern no follower -/

/-- The same clients follow the same derivations, no message of a client was taken in, and there is
no entry more. -/
structure Unfollowed (d d' : State) : Prop where
  asked_eq : d'.asked = d.asked
  inv : d.core.Inv → d'.core.Inv
  follows_iff : d.core.Inv → ∀ client key, Follows d'.core client key ↔ Follows d.core client key
  live_le : d.core.Inv → d'.core.liveCount ≤ d.core.liveCount

theorem unfollowed_of_core_eq {d d' : State} (asked_eq : d'.asked = d.asked)
    (core_eq : d'.core = d.core) : Unfollowed d d' := by
  refine ⟨asked_eq, ?_, ?_, ?_⟩
  · rw [core_eq]
    exact id
  · rw [core_eq]
    exact fun _ _ _ => Iff.rfl
  · rw [core_eq]
    exact fun _ => le_rfl

instance : Std.Refl Unfollowed where
  refl _ := unfollowed_of_core_eq rfl rfl

instance : IsTrans State Unfollowed where
  trans _ _ _ first second :=
    ⟨second.asked_eq.trans first.asked_eq, fun inv => second.inv (first.inv inv),
      fun inv client key => (second.follows_iff (first.inv inv) client key).trans
        (first.follows_iff inv client key),
      fun inv => (second.live_le (first.inv inv)).trans (first.live_le inv)⟩

theorem unfollowed_onCore {α : Type} {m : CoreM α}
    (waning : Respects (Waning (fun _ _ => False) fun _ => False) m) :
    Respects Unfollowed (onCore m) := by
  intro d
  rw [after_onCore]
  refine ⟨rfl, fun inv => (waning d.core inv).inv, fun inv client key => ⟨(waning d.core inv).fewer, fun follows => ?_⟩,
    fun inv => (waning d.core inv).live_le⟩
  exact ((waning d.core inv).follows follows).resolve_right (or_self_iff.mp ·)

theorem framed_unfollowed : Framed Unfollowed where
  entryAt drv := unfollowed_onCore (waning_entryAt drv)
  workerAt wid := unfollowed_onCore (waning_workerAt wid)
  placeabilityChanges := unfollowed_onCore waning_placeabilityChanges
  workerGone wid := unfollowed_onCore (waning_workerGone wid)
  dispatch order := unfollowed_onCore (waning_dispatch order)
  markUnplaceable drv flag := unfollowed_onCore (waning_markUnplaceable drv flag)
  note event outgoing := by
    refine respects_modify fun d => unfollowed_of_core_eq ?_ rfl
    match event with
    | .toClient _ _ | .toSession _ _ _ | .placed _ _ => rfl
    | .want _ _ _ | .cancel _ _ => exact outgoing.elim
  aside d d' aside := unfollowed_of_core_eq (by rw [State.asked, State.asked, aside.log_eq]) aside.core_eq

theorem unfollowed_revokeOrphans {world : World} : Respects Unfollowed (revokeOrphans world) :=
  respects_get.bind fun _ => (framed_unfollowed.revokeDue _ _).bind fun _ =>
    respects_modify fun _ => unfollowed_of_core_eq rfl rfl

/-- A session that closes. -/
theorem unfollowed_workerGone {world : World} (sid : SessionId) :
    Respects Unfollowed (workerGone world sid) :=
  framed_unfollowed.workerGoneLocked fun _ => unfollowed_of_core_eq rfl rfl

/-! ## Sections of workers -/

/-- A Done ends the derivation that the worker of its session builds. -/
def Ends (d : State) (sid : SessionId) (key : PathKey) : WorkerMsg → Prop
  | .done done =>
    (done.outcome = .built ∨ done.outcome = .failed ∨ done.outcome = .cancelled) ∧
      PathKey.ofPath done.drvPath = key ∧ ∃ wid, d.ids sid = some wid ∧ Builds d.core wid key
  | _ => False

/-- A message of a batch ends a derivation when it is taken in. -/
def EndsIn (world : World) (cfg : Config) (sid : SessionId) (key : PathKey) : List WorkerMsg → State → Prop
  | [], _ => False
  | msg :: msgs, d =>
    Ends d sid key msg ∨
      ∃ d', workerMsgLocked world cfg sid msg d = .ok () d' ∧ EndsIn world cfg sid key msgs d'

/-- Nobody follows more than before, and what is no longer followed has ended. -/
structure Loosens (ended : PathKey → Prop) (d d' : State) : Prop where
  asked_eq : d'.asked = d.asked
  inv : d'.core.Inv
  fewer : ∀ client key, Follows d'.core client key → Follows d.core client key
  stays : ∀ client key, Follows d.core client key → Follows d'.core client key ∨ ended key

section Workers

variable {world : World} {cfg : Config} {d d' d'' : State} {sid : SessionId} {ended : PathKey → Prop}

theorem Loosens.trans (first : Loosens ended d d') (second : Loosens ended d' d'') :
    Loosens ended d d'' where
  asked_eq := second.asked_eq.trans first.asked_eq
  inv := second.inv
  fewer client key follows := first.fewer client key (second.fewer client key follows)
  stays client key follows := (first.stays client key follows).elim (second.stays client key) .inr

theorem Loosens.mono {more : PathKey → Prop} (loosens : Loosens ended d d')
    (le : ∀ key, ended key → more key) : Loosens more d d' :=
  ⟨loosens.asked_eq, loosens.inv, loosens.fewer, fun client key follows =>
    (loosens.stays client key follows).imp id (le key)⟩

theorem Unfollowed.loosens (unfollowed : Unfollowed d d') (inv : d.core.Inv) : Loosens ended d d' :=
  ⟨unfollowed.asked_eq, unfollowed.inv inv, fun client key => (unfollowed.follows_iff inv client key).mp,
    fun client key follows => .inl ((unfollowed.follows_iff inv client key).mpr follows)⟩

theorem Loosens.refl (inv : d.core.Inv) : Loosens ended d d :=
  (unfollowed_of_core_eq rfl rfl : Unfollowed d d).loosens inv

theorem onDone_loosens (inv : d.core.Inv) {wid : WorkerId} (is_wid : d.ids sid = some wid)
    (done : Done) :
    Loosens (fun key => Ends d sid key (.done done)) d (after (onDone wid done d)) := by
  have given_back : Respects Unfollowed (do onCore (Core.giveBack wid done.drvPath); placeabilityChangedLocked) :=
    (unfollowed_onCore (waning_giveBack wid done.drvPath)).bind fun _ => framed_unfollowed.placeabilityChangedLocked
  have finished : ∀ outputs, done.outcome = .built ∨ done.outcome = .failed ∨ done.outcome = .cancelled →
      Loosens (fun key => Ends d sid key (.done done)) d
        (after (onCore (Core.done wid done.drvPath outputs) d)) := by
    intro outputs ends
    have wanes := @Wanes.done (fun _ _ => False) d.core inv wid done.drvPath outputs
    rw [after_onCore]
    refine ⟨rfl, wanes.inv, fun _ _ => wanes.fewer, fun client key follows => ?_⟩
    exact (wanes.follows follows).imp id fun gone => ⟨ends, (gone.resolve_left id).1, wid, is_wid,
      (gone.resolve_left id).2⟩
  unfold onDone
  cases outcome : done.outcome with
  | givenBack | noShow => exact (given_back d).loosens inv
  | built => exact finished done.outputs (.inl outcome)
  | failed => exact finished [] (.inr (.inl outcome))
  | cancelled => exact finished [] (.inr (.inr outcome))

theorem unfollowed_onLoad (wid : WorkerId) (draining : Bool) :
    Respects Unfollowed (onLoad wid draining) :=
  framed_unfollowed.onLoad wid draining (unfollowed_onCore (waning_setDraining wid draining))

/-- A Hello that finds room for what it reports. -/
theorem onHello_loosens (inv : d.core.Inv) {hel : Hello}
    (room : d.core.liveCount + hel.running.length ≤ Core.maxEntries) :
    Loosens ended d (after (onHello world cfg sid hel d)) := by
  rcases @onHello_after world cfg d inv sid hel room with same | ⟨slot, known, mid, known_ok, detached, rfl, result⟩
  · rw [same]
    exact .refl inv
  have found : Unfollowed d { d with core := mid.core } :=
    (unfollowed_onCore (waning_workerId hel.addr)).ok (onCore_of_ok known_ok)
  obtain ⟨deferred, detached'⟩ := detachOld_eq sid slot { d with core := mid.core }
  have mid_eq := (EStateM.Result.ok.inj (detached.symm.trans detached')).2
  have let_go : Unfollowed { d with core := mid.core } mid :=
    unfollowed_of_core_eq ((congrArg State.asked mid_eq).trans rfl) rfl
  have before : Loosens ended d mid := (IsTrans.trans _ _ _ found let_go : Unfollowed d mid).loosens inv
  rcases result with same | ⟨wid, superseded, s', ran, same⟩
  · rw [same]
    exact before
  · obtain ⟨s'_inv, greeted⟩ := before.inv.hello ran
    have took : Loosens ended mid (after (membershipChangedLocked (seated mid s' sid hel wid))) :=
      ⟨rfl, s'_inv, fun _ _ => (follows_of_greeted greeted).mp, fun _ _ => .inl ∘ (follows_of_greeted greeted).mpr⟩
    have rest : Respects Unfollowed (do supersedeAll world superseded; placeabilityChangedLocked) :=
      (framed_unfollowed.supersedeAll superseded).bind fun _ => framed_unfollowed.placeabilityChangedLocked
    rw [same]
    exact before.trans (took.trans ((rest _).loosens s'_inv))

/-- One message of a session. -/
theorem workerMsgLocked_loosens {msg : WorkerMsg} (inv : d.core.Inv)
    (room : d.core.liveCount + roomFor msg ≤ Core.maxEntries) :
    Loosens (fun key => Ends d sid key msg) d (after (workerMsgLocked world cfg sid msg d)) := by
  cases greeted : isHello msg with
  | true =>
    cases msg with
    | hello hel => exact onHello_loosens inv room
    | _ => cases greeted
  | false =>
    cases is_wid : d.ids sid with
    | none =>
      have unchanged : after (workerMsgLocked world cfg sid msg d) = d := by
        cases msg with
        | hello => cases greeted
        | _ => simp [workerMsgLocked, is_wid]
      rw [unchanged]
      exact .refl inv
    | some wid =>
      cases msg with
      | hello => cases greeted
      | done done =>
        simp only [workerMsgLocked, bind_get_apply, is_wid]
        exact onDone_loosens inv is_wid done
      | load draining =>
        simp only [workerMsgLocked, bind_get_apply, is_wid]
        exact (unfollowed_onLoad wid draining d).loosens inv
      | empty =>
        simp only [workerMsgLocked, bind_get_apply, is_wid]
        exact .refl inv

theorem workerMsgsLocked_loosens {msgs : List WorkerMsg} (inv : d.core.Inv)
    (room : d.core.liveCount + (msgs.map roomFor).sum ≤ Core.maxEntries) :
    Loosens (fun key => EndsIn world cfg sid key msgs d) d (after (workerMsgsLocked world cfg sid msgs d)) := by
  induction msgs generalizing d with
  | nil => exact .refl inv
  | cons msg msgs ih =>
    rw [List.map_cons, List.sum_cons] at room
    obtain ⟨-, live_le⟩ := @workerMsgLocked_tells False world cfg d inv sid msg False.elim (by omega)
    have first := @workerMsgLocked_loosens world cfg d sid msg inv (by omega)
    rw [workerMsgsLocked]
    cases ran : workerMsgLocked world cfg sid msg d with
    | error err mid =>
      rw [ran] at first
      rw [bind_of_error ran]
      exact first.mono fun _ => .inl
    | ok _ mid =>
      rw [ran, after_ok] at first live_le
      rw [bind_of_ok ran]
      exact (first.mono fun _ => .inl).trans ((ih first.inv (by omega)).mono fun _ ends => .inr ⟨mid, ran, ends⟩)

/-- A batch of a session. -/
theorem workerMsgs_loosens {msgs : List WorkerMsg} (inv : d.core.Inv)
    (room : d.core.liveCount + (msgs.map roomFor).sum ≤ Core.maxEntries) :
    Loosens (fun key => EndsIn world cfg sid key msgs d) d (after (workerMsgs world cfg sid msgs d)) := by
  cases msgs with
  | nil => exact .refl inv
  | cons msg msgs =>
    rw [workerMsgs, bind_get_apply]
    split_ifs
    · exact .refl inv
    · exact after_bind (workerMsgsLocked_loosens inv room) fun _ mid loosens =>
        loosens.trans ((framed_unfollowed.dispatchLocked mid).loosens loosens.inv)

end Workers

/-! ## Sections of clients -/

/-- What an event says about a client and a derivation: a Want that was kept, or not. -/
def aboutIn (client : ClientId) (key : PathKey) : Event → Option Bool
  | .want other want answer =>
    if other = client ∧ PathKey.ofPath want.drvPath = key then some (answer = .kept) else none
  | .cancel other path =>
    if other = client ∧ PathKey.ofPath path = key then some false else none
  | _ => none

/-- Whether the last message of a client about a derivation was a Want that was kept. -/
def lastAsked (events : List Event) (client : ClientId) (key : PathKey) : Option Bool :=
  events.findSome? (aboutIn client key)

theorem lastAsked_append (more events : List Event) (client : ClientId) (key : PathKey) :
    lastAsked (more ++ events) client key = (lastAsked more client key).or (lastAsked events client key) :=
  List.findSome?_append

/-- The clients follow what their messages say, as far as they say anything. -/
structure Converses (more : List Event) (d d' : State) : Prop where
  asked_eq : d'.asked = more ++ d.asked
  inv : d'.core.Inv
  kept : ∀ client key, lastAsked more client key = some true → Follows d'.core client key
  same : ∀ client key, lastAsked more client key = none →
    (Follows d'.core client key ↔ Follows d.core client key)

section Clients

variable {world : World} {cfg : Config} {d d' d'' : State} {client : ClientId}

theorem Converses.trans {more later : List Event} (first : Converses more d d')
    (second : Converses later d' d'') : Converses (later ++ more) d d'' where
  asked_eq := by rw [second.asked_eq, first.asked_eq, List.append_assoc]
  inv := second.inv
  kept other key last := by
    rw [lastAsked_append] at last
    cases said : lastAsked later other key with
    | none =>
      rw [said, Option.none_or] at last
      exact (second.same other key said).mpr (first.kept other key last)
    | some answer =>
      rw [said, Option.some_or] at last
      exact second.kept other key (said.trans last)
  same other key last := by
    rw [lastAsked_append, Option.or_eq_none_iff] at last
    exact (second.same other key last.1).trans (first.same other key last.2)

theorem Unfollowed.converses (unfollowed : Unfollowed d d') (inv : d.core.Inv) : Converses [] d d' :=
  ⟨unfollowed.asked_eq, unfollowed.inv inv, by simp [lastAsked], fun other key _ =>
    unfollowed.follows_iff inv other key⟩

theorem lastAsked_want {want : Want} {answer : Answer} {other : ClientId} {key : PathKey} :
    lastAsked [.want client want answer] other key =
      if client = other ∧ PathKey.ofPath want.drvPath = key then some (decide (answer = .kept)) else none := by
  simp only [lastAsked, List.findSome?_singleton, aboutIn]

theorem tellUnplaceable_ok {drv : DrvId} {ent : Entry} (live : d.core.entry drv = some ent) :
    ∃ d', tellUnplaceable client drv d = .ok () d' := by
  have marked : Core.markUnplaceable drv true d.core =
      .ok () { d.core with entries := d.core.entries.set drv (some { ent with unplaceable := true }) } := by
    rw [Core.markUnplaceable, bind_of_ok (Core.entryAt_of_entry live)]
    rfl
  rw [tellUnplaceable, bind_of_ok (onCore_entryAt live)]
  simp only [bind_get_apply]
  split_ifs
  · exact ⟨_, bind_of_ok (onCore_of_ok marked) _⟩
  · exact ⟨d, rfl⟩

/-- Once the core has taken a Want in, nothing can fail. -/
theorem keepWant_ok {want : Want} {drv : DrvId} {s' : Core} (inv : d.core.Inv) (s'_inv : s'.Inv)
    (ran : Core.want client (wantInfo cfg want) (world.nowMs d.log) d.core =
      .ok { drv, assigned := (d.core.entry drv).bind fun ent => ent.worker.map (·, ent.assignId) } s')
    (wanted : Core.Wanted d.core s' client (wantInfo cfg want) (world.nowMs d.log) drv) :
    ∃ d', keepWant world cfg client want d = .ok () d' := by
  have new_live : s'.entry drv = some (Core.wantEntry client (wantInfo cfg want) (world.nowMs d.log)
      (d.core.entry drv)) := by
    rw [wanted.entry_eq, Function.update_self]
  rw [keepWant, bind_get_apply, bind_of_ok (onCore_of_ok ran)]
  cases assigned : (d.core.entry drv).bind fun ent => ent.worker.map (·, ent.assignId) with
  | none =>
    obtain ⟨mid, dispatched, -, -, rests⟩ := @dispatchLocked_eq True world { d with core := s' } s'_inv (.inl trivial) ∅
    obtain ⟨ent, live⟩ := rests.live drv _ new_live (Core.wantEntry_followers_ne client _ _ _)
    obtain ⟨d', told⟩ := @tellUnplaceable_ok mid client drv ent live
    exact ⟨d', (bind_of_ok dispatched _).trans told⟩
  | some place =>
    obtain ⟨ent, live, placed⟩ := Option.bind_eq_some_iff.mp assigned
    obtain ⟨wid, is_wid, -⟩ := Option.map_eq_some_iff.mp placed
    have wid_lt := inv.runs.worker_lt drv (Set.notMem_empty drv) ent wid live is_wid
    have msg_eq := @assignedMsg_eq { d with core := s' } drv _ wid _ new_live
      (by rw [Core.wantEntry_worker, live]; exact is_wid)
      (by rw [wanted.workers_eq]; exact List.getElem?_eq_getElem wid_lt)
    exact ⟨_, bind_of_ok msg_eq _⟩
/-- A Want for which there is room.  One that is turned down makes its client follow nothing. -/
theorem onWant_converses {want : Want} (inv : d.core.Inv)
    (room : d.core.liveCount < Core.maxEntries) (named : want.drvPath ≠ "") (cached : Bool) :
    ∃ d' answer, onWant world cfg client want cached d = .ok () d' ∧
      Converses [.want client want answer] d d' ∧ d'.core.liveCount ≤ d.core.liveCount + 1 ∧
      (answer ≠ .kept → d'.core = d.core) := by
  have refused : ∀ (answer : Answer) (msg : SchedMsg), answer ≠ .kept → Converses [.want client want answer]
      d { d with log := .toClient client msg :: .want client want answer :: d.log } := by
    intro answer msg turned_down
    refine ⟨rfl, inv, fun other key last => ?_, fun _ _ _ => Iff.rfl⟩
    rw [lastAsked_want] at last
    split_ifs at last
    simp [turned_down] at last
  unfold onWant
  rw [if_neg named, bind_get_apply, note, bind_modify_apply]
  cases answer : answerTo cfg d want cached with
  | restarting | cached | badSystem | tooManySystems =>
    exact ⟨_, _, rfl, refused _ _ (by simp), Nat.le_succ _, fun _ => rfl⟩
  | kept =>
    have has_system : (wantInfo cfg want).system ≠ "" := systemFor_ne cfg want.system
    rcases inv.want client has_system (world.nowMs (.want client want .kept :: d.log)) with
      ⟨drv, s', ran, s'_inv, wanted⟩ | ⟨-, -, full⟩
    swap
    · exact absurd full (Nat.not_le.mpr room)
    have joined : Converses [.want client want .kept] d
        { d with core := s', log := .want client want .kept :: d.log } := by
      refine ⟨rfl, s'_inv, fun other key last => ?_, fun other key last => ?_⟩
      · rw [lastAsked_want] at last
        split_ifs at last with own
        exact (follows_of_wanted inv wanted other key).mpr (.inr ⟨own.1.symm, own.2.symm⟩)
      · rw [lastAsked_want] at last
        split_ifs at last with own
        rw [follows_of_wanted inv wanted]
        exact or_iff_left fun is_own => own ⟨is_own.1.symm, is_own.2.symm⟩
    have count_le : s'.liveCount ≤ d.core.liveCount + 1 :=
      Core.liveCount_le_succ drv fun other other_ne live => by
        rwa [wanted.entry_eq, Function.update_of_ne other_ne] at live
    obtain ⟨d', kept⟩ := @keepWant_ok world cfg { d with log := .want client want .kept :: d.log } client want drv s'
      inv s'_inv ran wanted
    have unfollowed : Unfollowed { d with core := s', log := .want client want .kept :: d.log } d' := by
      have answered := kept
      rw [keepWant, bind_get_apply, bind_of_ok (onCore_of_ok
        (d := { d with log := .want client want .kept :: d.log }) ran)] at answered
      cases assigned : ((d.core.entry drv).bind fun ent => ent.worker.map (·, ent.assignId)) with
      | some _ =>
        simp only [assigned] at answered
        exact ((framed_unfollowed.assignedMsg drv).bind fun msg =>
          framed_unfollowed.note (.toClient client msg) trivial).ok answered
      | none =>
        simp only [assigned] at answered
        exact (framed_unfollowed.dispatchLocked.bind fun _ =>
          framed_unfollowed.terse.tellUnplaceable framed_unfollowed.markUnplaceable client drv).ok answered
    refine ⟨d', .kept, kept, joined.trans (unfollowed.converses s'_inv), ?_, by simp⟩
    exact (unfollowed.live_le s'_inv).trans count_le

theorem onCancel_converses (inv : d.core.Inv) (drvPath : String) :
    ∃ d', onCancel world client drvPath d = .ok () d' ∧ Converses [.cancel client drvPath] d d' ∧
      d'.core.liveCount ≤ d.core.liveCount ∧ ¬ Follows d'.core client (PathKey.ofPath drvPath) := by
  obtain ⟨revoke, s', cancelled, s'_inv, entry_eq, -⟩ := inv.cancel client drvPath
  have wanes := @waning_cancel (fun other key => other = client ∧ key = PathKey.ofPath drvPath) (fun _ => False)
    drvPath client ⟨rfl, rfl⟩ d.core inv
  rw [cancelled, after_ok] at wanes
  have left : Converses [.cancel client drvPath] d
      { d with core := s', log := .cancel client drvPath :: d.log } := by
    refine ⟨rfl, s'_inv, fun other key last => ?_, fun other key last => ⟨wanes.fewer, fun follows => ?_⟩⟩
    · simp [lastAsked, aboutIn] at last
    · refine (wanes.follows follows).resolve_right fun gone => ?_
      obtain ⟨rfl, rfl⟩ := gone.resolve_right id
      simp [lastAsked, aboutIn] at last
  obtain ⟨d', ran, unfollowed⟩ : ∃ d', onCancel world client drvPath d = .ok () d' ∧
      Unfollowed { d with core := s', log := .cancel client drvPath :: d.log } d' := by
    rw [onCancel, note, bind_modify_apply,
      bind_of_ok (onCore_of_ok (d := { d with log := .cancel client drvPath :: d.log }) cancelled)]
    cases revoke with
    | none => exact ⟨_, rfl, Std.Refl.refl _⟩
    | some wid =>
      obtain ⟨revokes, told, -⟩ := @revokeOn_eq world
        { d with core := s', log := .cancel client drvPath :: d.log } wid drvPath
      exact ⟨_, told, (framed_unfollowed.revokeOn wid drvPath).ok told⟩
  refine ⟨d', ran, left.trans (unfollowed.converses s'_inv), (unfollowed.live_le s'_inv).trans wanes.live_le, ?_⟩
  rw [unfollowed.follows_iff s'_inv]
  exact not_follows_of_cancelled entry_eq

end Clients

end NixGrpcStore.Dispatcher
