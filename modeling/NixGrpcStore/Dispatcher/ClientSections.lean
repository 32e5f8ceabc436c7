import NixGrpcStore.Dispatcher.Delivery

/-!
# Sections of clients are made of moves

Each function that serves a client under the mutex is run once here.  It ends without an exception,
unless the table of derivations is full, and what it does is a sequence of moves after which the
flags of all queued entries tell the truth.
-/

namespace NixGrpcStore.Dispatcher

open Sched Remote StateExcept

/-- What a section does. -/
structure Does (lossy : Prop) (d d' : State) : Prop where
  inv : d'.core.Inv
  flags : FlagsOff d'.core ∅
  moves : Moves lossy (d.stage ∅) (d'.stage ∅)

/-- What a section that loses no worker leaves alone. -/
def Calm (lossy : Prop) (d d' : State) : Prop :=
  ¬ lossy → d' = { d with core := d'.core, log := d'.log } ∧ d'.core.roster = d.core.roster

variable {lossy : Prop} {world : World} {cfg : Config} {d d' d'' : State} {client : ClientId}
  {drv : DrvId} {ent : Entry} {wid : WorkerId} {wkr : Worker}

theorem Does.refl (inv : d.core.Inv) (flags : FlagsOff d.core ∅) : Does lossy d d := ⟨inv, flags, .refl⟩

theorem Does.trans (first : Does lossy d d') (second : Does lossy d' d'') : Does lossy d d'' :=
  ⟨second.inv, second.flags, first.moves.trans second.moves⟩

theorem Calm.trans (first : Calm lossy d d') (second : Calm lossy d' d'') : Calm lossy d d'' := by
  intro lossless
  obtain ⟨first_eq, first_roster⟩ := first lossless
  obtain ⟨second_eq, second_roster⟩ := second lossless
  refine ⟨?_, second_roster.trans first_roster⟩
  rw [second_eq, first_eq]

theorem calm_of_log (same : d' = { d with log := d'.log }) : Calm lossy d d' := by
  intro _
  rw [same]
  exact ⟨rfl, rfl⟩

/-! ## Wants -/

theorem systemFor_ne (cfg : Config) (system : String) : cfg.systemFor system ≠ "" := by
  unfold Config.systemFor
  split_ifs with unnamed
  · exact cfg.defaultSystem_ne
  · exact fun empty => unnamed (.inl empty)

/-- A Want is turned down. -/
theorem refuse_does (inv : d.core.Inv) (flags : FlagsOff d.core ∅) (want : Want) {answer : Answer}
    {msg : SchedMsg} (turned_down : answer ≠ .kept) (refusal : Refuses want.drvPath msg) :
    Does lossy d { d with log := .toClient client msg :: .want client want answer :: d.log } :=
  ⟨inv, flags, .single (Move.refuse (d.stage ∅) client want turned_down refusal)⟩

/-- The flag of an entry is raised if nobody can take it. -/
theorem tellUnplaceable_eq (inv : d.core.Inv) (flags : FlagsOff d.core {drv})
    (live : d.core.entry drv = some ent)
    (news : FlagsOff d.core ∅ ∨ (ent.worker = none → ent.unplaceable = false ∧ ent.followers ⊆ [client])) :
    ∃ d', tellUnplaceable client drv d = .ok () d' ∧ d'.core.Inv ∧ FlagsOff d'.core ∅ ∧
      Moves lossy (d.stage ∅ {(client, drv)}) (d'.stage ∅) ∧ Calm lossy d d' := by
  have placeable_eq : d.core.placeableId drv = d.core.placeable ent := by
    have slot_eq : (d.core.entries[drv]?).join = some ent := live
    simp [Core.placeableId, slot_eq]
  rw [tellUnplaceable, bind_of_ok (onCore_entryAt live)]
  simp only [bind_get_apply, placeable_eq]
  split_ifs with stuck
  · obtain ⟨s', marked⟩ : ∃ s', Core.markUnplaceable drv true d.core = .ok () s' := by
      rw [Core.markUnplaceable, bind_of_ok (Core.entryAt_of_entry live)]
      exact ⟨_, rfl⟩
    obtain ⟨s'_inv, s'_eq, entry_eq⟩ := inv.markUnplaceable marked
    rw [live, Option.map_some] at entry_eq
    have roster_eq : s'.roster = d.core.roster := by
      rw [s'_eq]
      rfl
    refine ⟨_, bind_of_ok (onCore_of_ok marked) _, s'_inv, ?_, .single ?_, fun _ => ⟨rfl, roster_eq⟩⟩
    · intro other _ new new_live waits
      change s'.entry other = some new at new_live
      change new.unplaceable = !s'.placeable new
      rw [Core.placeable_of_roster roster_eq]
      rw [entry_eq] at new_live
      by_cases same : other = drv
      · rw [same, Function.update_self] at new_live
        rw [← Option.some.inj new_live]
        change true = !d.core.placeable ent
        rw [stuck.2]
        rfl
      · rw [Function.update_of_ne same] at new_live
        exact flags other same new new_live waits
    · refine Set.sdiff_self (s := {(client, drv)}) ▸
        Move.mark (d.stage ∅ {(client, drv)}) s'_inv live roster_eq entry_eq
          (news.imp (fun flags => ?_) fun fresh => (fresh stuck.1).2)
      rw [flags drv (Set.notMem_empty drv) ent live stuck.1, stuck.2]
      rfl
  · have all_flags : FlagsOff d.core ∅ := by
      intro other _ new new_live waits
      by_cases same : other = drv
      · subst same
        obtain rfl : new = ent := Option.some.inj (new_live.symm.trans live)
        rcases news with flags | fresh
        · exact flags other (Set.notMem_empty other) new live waits
        · have can : d.core.placeable new = true := Bool.of_not_eq_false fun cannot => stuck ⟨waits, cannot⟩
          rw [(fresh waits).1, can]
          rfl
      · exact flags other same new new_live waits
    refine ⟨d, rfl, inv, all_flags, .single ?_, calm_of_log rfl⟩
    refine Set.sdiff_self (s := {(client, drv)}) ▸ Move.acquit (d.stage ∅ {(client, drv)}) ?_ rfl
    intro found found_live waits
    obtain rfl : ent = found := Option.some.inj (live.symm.trans found_live)
    rw [all_flags drv (Set.notMem_empty drv) ent live waits, Bool.not_eq_false']
    exact Bool.of_not_eq_false fun cannot => stuck ⟨waits, cannot⟩

variable {s s' : Core} {want : Want}

/-- The flags that a Want leaves alone. -/
theorem wanted_flags {nowMs : ℚ} (inv : s.Inv) (flags : FlagsOff s ∅)
    (wanted : Core.Wanted s s' client (wantInfo cfg want) nowMs drv) :
    FlagsOff s' {drv} ∧ (FlagsOff s' ∅ ∨ s.entry drv = none) := by
  have placeable_eq : s'.placeable = s.placeable :=
    Core.placeable_of_roster (by rw [Core.roster, wanted.workers_eq]; rfl)
  have others : FlagsOff s' {drv} := by
    intro other other_ne new live waits
    rw [wanted.entry_eq, Function.update_of_ne other_ne] at live
    rw [placeable_eq]
    exact flags other (Set.notMem_empty other) new live waits
  refine ⟨others, ?_⟩
  cases live : s.entry drv with
  | none => exact .inr rfl
  | some ent =>
    refine .inl fun other _ new new_live waits => ?_
    by_cases same : other = drv
    · subst same
      rw [wanted.entry_eq, Function.update_self, live] at new_live
      cases new_live
      rw [Core.wantEntry_worker] at waits
      -- what waits has been wanted before, so its system and features stand
      have system_ne : ent.system ≠ "" := inv.queues.named other ent live
        (inv.queues.followed other (Set.notMem_empty other) ent live waits)
      have kept := flags other (Set.notMem_empty other) ent live waits
      rw [placeable_eq, Core.wantEntry, Core.wantedEntry_some, if_neg system_ne, if_neg system_ne]
      exact kept.trans (congrArg _ (s.placeable_congr ent _ rfl rfl))
    · exact others other same new new_live waits

section Wants

variable (inv : d.core.Inv) (flags : FlagsOff d.core ∅) (known : client < d.nextClient)
include inv flags known

section Taken

variable (s'_inv : s'.Inv)
  (wanted : Core.Wanted d.core s' client (wantInfo cfg want)
    (world.nowMs (.want client want .kept :: d.log)) drv)
include s'_inv wanted

/-- A Want that joins an assigned entry is answered with its place. -/
theorem keepWant_assigned (live : d.core.entry drv = some ent) (assigned : ent.worker = some wid)
    (ran : Core.want client (wantInfo cfg want)
      (world.nowMs (.want client want .kept :: d.log)) d.core =
        .ok { drv, assigned := some (wid, ent.assignId) } s') :
    ∃ d', keepWant world cfg client want { d with log := .want client want .kept :: d.log } =
      .ok () d' ∧ Does lossy d d' ∧ Calm lossy d d' := by
  have wid_lt := inv.runs.worker_lt drv (Set.notMem_empty drv) ent wid live assigned
  obtain ⟨wkr, get_eq⟩ : ∃ wkr, d.core.workers[wid]? = some wkr := ⟨_, List.getElem?_eq_getElem wid_lt⟩
  have new_live : s'.entry drv = some (Core.wantEntry client (wantInfo cfg want)
      (world.nowMs (.want client want .kept :: d.log)) (some ent)) := by
    rw [wanted.entry_eq, Function.update_self, live]
  have msg_eq := @assignedMsg_eq
    { d with core := s', log := .want client want .kept :: d.log } drv _ wid wkr new_live
    (by rw [Core.wantEntry_worker]; exact assigned) (by rw [wanted.workers_eq]; exact get_eq)
  have same_msg : assignedTo wkr (Core.wantEntry client (wantInfo cfg want)
      (world.nowMs (.want client want .kept :: d.log)) (some ent)) = assignedTo wkr ent := by
    simp [assignedTo]
  rw [same_msg] at msg_eq
  obtain ⟨others, joins | unknown⟩ := wanted_flags inv flags wanted
  · have answered : keepWant world cfg client want { d with log := .want client want .kept :: d.log } =
        .ok () { d with
          core := s'
          log := .toClient client (.assigned (assignedTo { wkr with running := [] } ent)) ::
            .want client want .kept :: d.log } := by
      rw [keepWant, bind_get_apply]
      refine (bind_of_ok (onCore_of_ok (d := { d with log := .want client want .kept :: d.log }) ran)
        _).trans ?_
      exact bind_of_ok msg_eq _
    refine ⟨_, answered, ⟨s'_inv, joins, .single (Move.join (d.stage ∅) s'_inv wanted known live assigned
      (roster_get get_eq) rfl)⟩, fun _ => ⟨rfl, ?_⟩⟩
    · change s'.roster = d.core.roster
      rw [Core.roster, wanted.workers_eq]
      rfl
  · simp [unknown] at live

/-- A Want that joins or creates a waiting entry may set off a dispatch. -/
theorem keepWant_queued (calm : lossy ∨ world.AcceptsExpects ∧ Seated d.core d.workers)
    (waits : ∀ ent, d.core.entry drv = some ent → ent.worker = none)
    (ran : Core.want client (wantInfo cfg want)
      (world.nowMs (.want client want .kept :: d.log)) d.core = .ok { drv } s') :
    ∃ d', keepWant world cfg client want { d with log := .want client want .kept :: d.log } =
      .ok () d' ∧ Does lossy d d' ∧ Calm lossy d d' := by
  have roster_eq : s'.roster = d.core.roster := by
    rw [Core.roster, wanted.workers_eq]
    rfl
  obtain ⟨others, joins⟩ := wanted_flags inv flags wanted
  obtain ⟨mid, dispatched, mid_inv, moves, rests⟩ := @dispatchLocked_eq lossy world
    { d with core := s', log := .want client want .kept :: d.log } s'_inv
    (calm.imp id fun accepts => ⟨accepts.1, fun wid wkr listed =>
      accepts.2 wid wkr (roster_eq ▸ listed)⟩) {(client, drv)}
  have new_live : s'.entry drv = some (Core.wantEntry client (wantInfo cfg want)
      (world.nowMs (.want client want .kept :: d.log)) (d.core.entry drv)) := by
    rw [wanted.entry_eq, Function.update_self]
  obtain ⟨ent, mid_live⟩ := rests.live drv _ new_live (Core.wantEntry_followers_ne client _ _ _)
  have news : FlagsOff mid.core ∅ ∨
      (ent.worker = none → ent.unplaceable = false ∧ ent.followers ⊆ [client]) := by
    rcases joins with joins | unknown
    · exact .inl (rests.flags ∅ joins)
    · refine rests.waiting.imp id fun old idle => ?_
      have old_live := old drv ent mid_live idle
      change s'.entry drv = some ent at old_live
      rw [new_live, unknown] at old_live
      cases old_live
      exact ⟨rfl, by simp [Core.wantEntry, Core.wantedEntry, Core.joined]⟩
  obtain ⟨d', told, d'_inv, d'_flags, tell_moves, tell_calm⟩ :=
    tellUnplaceable_eq mid_inv (rests.flags {drv} others) mid_live news
  refine ⟨d', ?_, ⟨d'_inv, d'_flags, ?_⟩, ?_⟩
  · rw [keepWant, bind_get_apply]
    refine (bind_of_ok (onCore_of_ok (d := { d with log := .want client want .kept :: d.log }) ran) _).trans ?_
    exact (bind_of_ok dispatched _).trans told
  · have keeps : Move lossy (d.stage ∅) _ := .keep (d.stage ∅) s'_inv wanted known waits
    rw [show (d.stage ∅).owed = ∅ from rfl, insert_empty_eq] at keeps
    exact .head keeps (moves.trans tell_moves)
  · have kept : Calm lossy d { d with core := s', log := .want client want .kept :: d.log } :=
      fun _ => ⟨rfl, roster_eq⟩
    exact (kept.trans rests.same).trans tell_calm

/-- A Want that the core has taken in. -/
theorem keepWant_eq (calm : lossy ∨ world.AcceptsExpects ∧ Seated d.core d.workers)
    (ran : Core.want client (wantInfo cfg want)
      (world.nowMs (.want client want .kept :: d.log)) d.core =
        .ok { drv, assigned := (d.core.entry drv).bind fun ent => ent.worker.map (·, ent.assignId) } s') :
    ∃ d', keepWant world cfg client want { d with log := .want client want .kept :: d.log } =
      .ok () d' ∧ Does lossy d d' ∧ Calm lossy d d' := by
  cases live : d.core.entry drv with
  | none =>
    rw [live] at ran
    exact keepWant_queued inv flags known s'_inv wanted calm (by simp [live]) ran
  | some ent =>
    rw [live] at ran
    cases assigned : ent.worker with
    | none =>
      simp only [Option.bind_some, assigned] at ran
      exact keepWant_queued inv flags known s'_inv wanted calm (by simp [live, assigned]) ran
    | some wid =>
      simp only [Option.bind_some, assigned] at ran
      exact keepWant_assigned inv flags known s'_inv wanted live assigned ran

end Taken

/-- A section ends, or gives up when the table of derivations is full. -/
def Takes (run : EStateM.Result Error State Unit) (d : State) : Prop :=
  run = .ok () d ∨ run = .error .tableFull d

/-- A Want is taken in, unless the table of derivations is full. -/
theorem onWant_eq (calm : lossy ∨ world.AcceptsExpects ∧ Seated d.core d.workers) (want : Want)
    (cached : Bool) :
    ∃ d', Takes (onWant world cfg client want cached d) d' ∧ Does lossy d d' ∧ Calm lossy d d' := by
  unfold onWant
  split_ifs with nameless
  · exact ⟨d, .inl rfl, Does.refl inv flags, calm_of_log rfl⟩
  · rw [bind_get_apply, note, bind_modify_apply]
    cases answer : answerTo cfg d want cached with
    | restarting =>
      exact ⟨_, .inl rfl, refuse_does inv flags want (by simp) trivial, calm_of_log rfl⟩
    | cached =>
      exact ⟨_, .inl rfl, refuse_does inv flags want (by simp) trivial, calm_of_log rfl⟩
    | badSystem =>
      exact ⟨_, .inl rfl, refuse_does inv flags want (by simp) rfl, calm_of_log rfl⟩
    | tooManySystems =>
      exact ⟨_, .inl rfl, refuse_does inv flags want (by simp) rfl, calm_of_log rfl⟩
    | kept =>
      have named : (wantInfo cfg want).system ≠ "" := systemFor_ne cfg want.system
      rcases inv.want client named (world.nowMs (.want client want .kept :: d.log)) with
        ⟨drv, s', ran, s'_inv, wanted⟩ | ⟨full, unknown, -⟩
      · obtain ⟨d', kept, result⟩ := keepWant_eq inv flags known s'_inv wanted calm ran
        exact ⟨d', .inl kept, result⟩
      · refine ⟨{ d with log := .want client want .kept :: d.log }, .inr ?_, ⟨inv, flags, ?_⟩, calm_of_log rfl⟩
        · simp only [keepWant, bind_get_apply]
          apply bind_of_error
          simp only [onCore, onPart, full]
        · exact .single (Move.overflow (d.stage ∅) client unknown)

end Wants

/-! ## Cancels and clients that leave -/

/-- Flags stay true where queued entries keep what they need. -/
theorem FlagsOff.of_entries {off : Set DrvId} (flags : FlagsOff s off)
    (roster_eq : s'.roster = s.roster)
    (old : ∀ drv new, s'.entry drv = some new → new.worker = none → ∃ ent, s.entry drv = some ent ∧
      ent.worker = none ∧ new.unplaceable = ent.unplaceable ∧ new.system = ent.system ∧
      new.features = ent.features) : FlagsOff s' off := by
  intro drv not_mem new live waits
  obtain ⟨ent, ent_live, ent_waits, flag_eq, system_eq, features_eq⟩ := old drv new live waits
  rw [Core.placeable_of_roster roster_eq, flag_eq, s.placeable_congr new ent system_eq features_eq]
  exact flags drv not_mem ent ent_live ent_waits

/-- What a client that leaves an entry does to it. -/
theorem unfollow_cases {new : Entry} (left : Core.unfollow client ent = some new) :
    Shrinks ent new ∧ new.worker = ent.worker ∧ new.assignId = ent.assignId ∧
      new.system = ent.system ∧ new.features = ent.features := by
  unfold Core.unfollow at left
  split_ifs at left
  · cases left
    exact ⟨⟨rfl, fun _ mem => List.mem_of_mem_filter mem, rfl, .inr ⟨rfl, rfl⟩⟩, rfl, rfl, rfl, rfl⟩
  · cases left
    exact ⟨shrinks_refl ent, rfl, rfl, rfl, rfl⟩

theorem unfollow_assigned (client : ClientId) (assigned : ent.worker ≠ none) :
    ∃ new, Core.unfollow client ent = some new := by
  unfold Core.unfollow
  split_ifs with follows gone
  · exact absurd gone.2 assigned
  · exact ⟨_, rfl⟩
  · exact ⟨_, rfl⟩

/-- A client that leaves some entries changes nothing else. -/
theorem sheds_of_unfollow (drvs : Set DrvId) (roster_eq : s'.roster = s.roster)
    (mem_eq : ∀ drv ∈ drvs, s'.entry drv = (s.entry drv).bind (Core.unfollow client))
    (other_eq : ∀ drv ∉ drvs, s'.entry drv = s.entry drv) :
    Sheds lossy s s' ∧ ∀ off, FlagsOff s off → FlagsOff s' off := by
  have shrunk : ∀ drv new, s'.entry drv = some new → ∃ ent, s.entry drv = some ent ∧
      Shrinks ent new ∧ new.worker = ent.worker ∧ new.assignId = ent.assignId ∧
      new.system = ent.system ∧ new.features = ent.features := by
    intro drv new live
    by_cases mem : drv ∈ drvs
    · rw [mem_eq drv mem] at live
      obtain ⟨ent, ent_live, left⟩ := Option.bind_eq_some_iff.mp live
      exact ⟨ent, ent_live, unfollow_cases left⟩
    · rw [other_eq drv mem] at live
      exact ⟨new, live, shrinks_refl new, rfl, rfl, rfl, rfl⟩
  refine ⟨⟨(congrArg List.length roster_eq).ge, fun drv new live => ?_, fun wid new listed up => ?_,
    fun _ drv ent live assigned => ?_,
    fun _ wid wkr listed up => ⟨wkr, roster_eq ▸ listed, up, rfl⟩⟩, fun off flags => ?_⟩
  · obtain ⟨ent, ent_live, shrinks, -⟩ := shrunk drv new live
    exact ⟨ent, ent_live, shrinks⟩
  · exact ⟨new, roster_eq ▸ listed, up, rfl⟩
  · obtain ⟨new, new_live⟩ : ∃ new, s'.entry drv = some new := by
      by_cases mem : drv ∈ drvs
      · rw [mem_eq drv mem, live]
        exact unfollow_assigned client assigned
      · exact ⟨ent, by rw [other_eq drv mem, live]⟩
    obtain ⟨old, old_live, shrinks, worker_eq, id_eq, -⟩ := shrunk drv new new_live
    cases old_live.symm.trans live
    exact ⟨new, new_live, shrinks.path_eq, worker_eq, id_eq⟩
  · refine flags.of_entries roster_eq fun drv new live waits => ?_
    obtain ⟨ent, ent_live, shrinks, worker_eq, -, system_eq, features_eq⟩ := shrunk drv new live
    exact ⟨ent, ent_live, worker_eq ▸ waits, shrinks.flag_eq, system_eq, features_eq⟩

theorem revokeOn_eq (wid : WorkerId) (drvPath : String) :
    ∃ revokes : List Event, revokeOn world wid drvPath d = .ok () { d with log := revokes ++ d.log } ∧
      (∀ event ∈ revokes, event.Quiet) ∧
      ∀ sid, d.workers.lookup wid = some sid → ∃ delivered,
        .toSession sid (.revoke drvPath) delivered ∈ revokes ∧
          (delivered = false → ∃ log, world.delivers log sid (.revoke drvPath) = false) := by
  rw [revokeOn, bind_get_apply]
  cases seat : d.workers.lookup wid with
  | none => exact ⟨[], rfl, by simp, by simp⟩
  | some sid =>
    refine ⟨[.toSession sid (.revoke drvPath) (world.delivers d.log sid (.revoke drvPath))], rfl, ?_, ?_⟩
    · intro event mem
      rw [List.mem_singleton.mp mem]
      trivial
    · rintro other ⟨⟩
      exact ⟨_, List.mem_singleton_self _, fun refused => ⟨d.log, refused⟩⟩

/-- Quiet events are moves. -/
theorem moves_of_quiet (v : Stage) {events : List Event} (quiet : ∀ event ∈ events, event.Quiet) :
    Moves lossy v { v with log := events ++ v.log } := by
  induction events with
  | nil => exact .refl
  | cons event events ih =>
    refine (ih fun other mem => quiet other (List.mem_cons_of_mem event mem)).tail ?_
    exact Move.hear { v with log := events ++ v.log } event (quiet event List.mem_cons_self)

/-- A Cancel takes one client off one entry. -/
theorem onCancel_eq (inv : d.core.Inv) (flags : FlagsOff d.core ∅) (drvPath : String) :
    ∃ d', onCancel world client drvPath d = .ok () d' ∧ Does lossy d d' ∧ Calm lossy d d' := by
  obtain ⟨revoke, s', ran, s'_inv, entry_eq, keeps, workers_eq⟩ := inv.cancel client drvPath
  obtain ⟨sheds, flags'⟩ := @sheds_of_unfollow lossy client d.core s'
    {drv | ∃ ent, d.core.entry drv = some ent ∧ ent.pathKey = PathKey.ofPath drvPath} keeps.roster
    (fun drv mem => by
      obtain ⟨ent, live, key_eq⟩ := mem
      rw [entry_eq, live, Option.bind_some, Option.bind_some, Core.cancelled, if_pos key_eq])
    (fun drv other => by
      rw [entry_eq]
      cases live : d.core.entry drv with
      | none => rfl
      | some ent =>
        rw [Option.bind_some, Core.cancelled, if_neg fun key_eq => other ⟨ent, live, key_eq⟩])
  have heard : Moves lossy (d.stage ∅)
      ({ d with core := s', log := .cancel client drvPath :: d.log }.stage ∅) :=
    .head (Move.hear (d.stage ∅) (.cancel client drvPath) trivial) (.single (Move.shed
      ({ d with log := .cancel client drvPath :: d.log }.stage ∅) s'_inv sheds
      (List.Subset.refl d.clients) fun _ _ _ _ => rfl))
  rw [onCancel, note, bind_modify_apply,
    bind_of_ok (onCore_of_ok (d := { d with log := .cancel client drvPath :: d.log }) ran)]
  cases revoke with
  | none =>
    exact ⟨_, rfl, ⟨s'_inv, flags' ∅ flags, heard⟩, fun _ => ⟨rfl, keeps.roster⟩⟩
  | some wid =>
    obtain ⟨revokes, ran_revoke, quiet, -⟩ := @revokeOn_eq world
      { d with core := s', log := .cancel client drvPath :: d.log } wid drvPath
    exact ⟨_, ran_revoke, ⟨s'_inv, flags' ∅ flags, heard.trans (moves_of_quiet _ quiet)⟩,
      fun _ => ⟨rfl, keeps.roster⟩⟩

theorem Calm.seated (calm : Calm lossy d d')
    (ready : lossy ∨ world.AcceptsExpects ∧ Seated d.core d.workers) :
    lossy ∨ world.AcceptsExpects ∧ Seated d'.core d'.workers := by
  by_cases loss : lossy
  · exact .inl loss
  · obtain ⟨accepts, seated⟩ := ready.resolve_left loss
    obtain ⟨same, roster_eq⟩ := calm loss
    refine .inr ⟨accepts, fun wid wkr listed up => ?_⟩
    rw [same]
    exact seated wid wkr (roster_eq ▸ listed) up

section Messages

variable (inv : d.core.Inv) (flags : FlagsOff d.core ∅) (known : client < d.nextClient)
  (ready : lossy ∨ world.AcceptsExpects ∧ Seated d.core d.workers)
include inv flags known ready

/-- One message of a client is taken in, unless the table of derivations is full. -/
theorem onClientMsg_eq (msg : ClientMsg × Bool) :
    ∃ d', Takes (onClientMsg world cfg client msg d) d' ∧ Does lossy d d' ∧ Calm lossy d d' := by
  obtain ⟨msg, cached⟩ := msg
  cases msg with
  | want want => exact onWant_eq inv flags known ready want cached
  | cancel drvPath =>
    obtain ⟨d', ran, result⟩ := onCancel_eq inv flags drvPath
    exact ⟨d', .inl ran, result⟩
  | empty => exact ⟨d, .inl rfl, Does.refl inv flags, calm_of_log rfl⟩

/-- A chunk of a client's messages is taken in, up to the first one the table has no place for. -/
theorem onClientMsgs_eq (msgs : List (ClientMsg × Bool)) :
    ∃ d', Takes (onClientMsgs world cfg client msgs d) d' ∧ Does lossy d d' ∧ Calm lossy d d' := by
  induction msgs generalizing d with
  | nil => exact ⟨d, .inl rfl, Does.refl inv flags, calm_of_log rfl⟩
  | cons msg msgs ih =>
    obtain ⟨mid, ran | full, does, calm⟩ := onClientMsg_eq inv flags known ready msg
    · obtain ⟨d', rest, rest_does, rest_calm⟩ := ih does.inv does.flags
        (known.trans_le (moves_nextClient does.moves)) (calm.seated ready)
      exact ⟨d', rest.imp (bind_of_ok ran _).trans (bind_of_ok ran _).trans,
        does.trans rest_does, calm.trans rest_calm⟩
    · exact ⟨mid, .inr (bind_of_error full _), does, calm⟩

end Messages

theorem addOrphans_eq {revokes : List (DrvId × WorkerId)}
    (live : ∀ revoke ∈ revokes, (d.core.entry revoke.1).isSome) :
    ∃ orphans, addOrphans world revokes d = .ok () { d with orphans } := by
  induction revokes generalizing d with
  | nil => exact ⟨d.orphans, rfl⟩
  | cons revoke revokes ih =>
    obtain ⟨ent, ent_live⟩ := Option.isSome_iff_exists.mp (live revoke List.mem_cons_self)
    have noted : addOrphan world revoke.1 d = .ok ()
        { d with
          orphans := d.orphans ++ [{
            drv := revoke.1
            assignId := ent.assignId
            dueMs := world.nowMs d.log + orphanGraceMs }] } := by
      rw [addOrphan, bind_of_ok (onCore_entryAt ent_live)]
      rfl
    rw [addOrphans, bind_of_ok noted]
    exact ih fun other mem => live other (List.mem_cons_of_mem revoke mem)

/-- A client that leaves takes nothing with it but its follows. -/
theorem clientGone_eq (inv : d.core.Inv) (flags : FlagsOff d.core ∅) (client : ClientId) :
    ∃ d', clientGone world client d = .ok () d' ∧ Does lossy d d' ∧ d'.ids = d.ids ∧
      d'.workers = d.workers ∧ d'.core.roster = d.core.roster := by
  obtain ⟨s', revokes, ran, s'_inv, entry_eq, revokes_iff, -, workers_eq, -⟩ := inv.clientGone client
  have roster_eq : s'.roster = d.core.roster := by
    rw [Core.roster, workers_eq]
    rfl
  obtain ⟨sheds, flags'⟩ := @sheds_of_unfollow lossy client d.core s'
    {drv | drv ∈ (d.core.follows.lookup client).getD []} roster_eq
    (fun drv mem => (entry_eq drv).trans (if_pos mem)) fun drv other => (entry_eq drv).trans (if_neg other)
  obtain ⟨orphans, noted⟩ := @addOrphans_eq world
    { d with core := s', gone := client :: d.gone, clients := d.clients.filter (· ≠ client) } revokes
    fun revoke mem => by
      obtain ⟨mem, orphaned⟩ := (revokes_iff revoke.1 revoke.2).mp mem
      obtain ⟨ent, live, orphaned⟩ := Option.bind_eq_some_iff.mp orphaned
      have assigned : ent.worker ≠ none := by
        unfold Core.orphanedBy at orphaned
        split_ifs at orphaned
        simp [orphaned]
      obtain ⟨new, new_eq⟩ := unfollow_assigned client assigned
      change (s'.entry revoke.1).isSome
      rw [entry_eq, if_pos mem, live, Option.bind_some, new_eq]
      rfl
  have left := bind_of_ok (onCore_of_ok (d := { d with
    gone := client :: d.gone, clients := d.clients.filter (· ≠ client) }) ran) (addOrphans world)
  exact ⟨_, left.trans noted, ⟨s'_inv, flags' ∅ flags, .single (Move.shed (d.stage ∅) s'_inv sheds
    (fun _ mem => List.mem_of_mem_filter mem) fun _ _ _ _ => rfl)⟩, rfl, rfl, roster_eq⟩

end NixGrpcStore.Dispatcher
