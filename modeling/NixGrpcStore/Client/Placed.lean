import NixGrpcStore.Client.Frame
import NixGrpcStore.Client.Stream

/-!
# Where a job goes

Only four calls place a job or take a placed one on: `takeWants` asks for it, `onAssigned` says where it
goes, `next` starts it there and `bounced` sends it to where it was moved meanwhile.  Every other call
leaves a job as it is, or lets it wait, be wantable or end.  A running job keeps the last move to another
address as its redirect; a later move back to where it runs is not noted, and then the redirect is stale.
-/

namespace NixGrpcStore.Exec

open Tally (lt_length)
open List (getElem?_set_ne getElem?_set_self)
open Executor

variable {exe exe' : Executor} {jid : JobId} {job : Job}

/-! ## What most calls do to a job -/

/-- A state in which a job waits, is wantable or has ended. -/
def JobState.unheld : JobState → Bool
  | .blocked _ => true
  | .wantable => true
  | .done _ => true
  | _ => false

/-- Jobs stay as they are, or wait, become wantable or end.  None becomes wantable by a release once
everything stops. -/
structure Lapses (exe exe' : Executor) : Prop where
  stopping : exe.stopping = true → exe'.stopping = true
  states : ∀ jid, exe'.stateAt jid = exe.stateAt jid ∨
    exe.kindAt jid ≠ some .done ∧ ∃ state, exe'.stateAt jid = some state ∧ state.unheld = true ∧
      (state = .wantable → exe.stopping = false ∨ Unplaced exe jid)

namespace Lapses

theorem refl (exe : Executor) : Lapses exe exe := ⟨id, fun _ => .inl rfl⟩

theorem unplaced (lapses : Lapses exe exe') (stops : exe.stopping = true) (unplaced : Unplaced exe' jid) :
    Unplaced exe jid := by
  obtain same | ⟨_, state, state_eq, unheld, wantable⟩ := lapses.states jid
  · simpa [Unplaced, kindAt, same] using unplaced
  · cases state with
    | wantable =>
      obtain going | before := wantable rfl
      · cases going.symm.trans stops
      · exact before
    | _ => simp_all [Unplaced, kindAt, JobState.unheld]

theorem trans {exe'' : Executor} (first : Lapses exe exe') (second : Lapses exe' exe'') :
    Lapses exe exe'' where
  stopping stops := second.stopping (first.stopping stops)
  states jid := by
    obtain same | ⟨live, state, state_eq, unheld, wantable⟩ := second.states jid
    · obtain same' | changed := first.states jid
      · exact .inl (same.trans same')
      · rw [same]
        exact .inr changed
    · refine .inr ⟨?_, state, state_eq, unheld, fun is_wantable => ?_⟩
      · obtain same' | ⟨live', _⟩ := first.states jid
        · rwa [kindAt, same'] at live
        · exact live'
      · cases stops : exe.stopping with
        | false => exact .inl rfl
        | true =>
          obtain going | before := wantable is_wantable
          · cases going.symm.trans (first.stopping stops)
          · exact .inr (first.unplaced stops before)

/-- One job changes its state. -/
theorem set {job' : Job} (stopping_eq : exe'.stopping = exe.stopping)
    (found : exe.jobs[jid]? = some job) (jobs_eq : exe'.jobs = exe.jobs.set jid job')
    (live : job.state.kind ≠ .done) (unheld : job'.state.unheld = true)
    (wantable : job'.state = .wantable → exe.stopping = false ∨ Unplaced exe jid) :
    Lapses exe exe' where
  stopping stops := stopping_eq.trans stops
  states other := by
    by_cases is_jid : other = jid
    · subst is_jid
      refine .inr ⟨by simpa [kindAt_of_found found] using live, job'.state, ?_, unheld, wantable⟩
      have bound := lt_length found
      simp [stateAt, jobs_eq, getElem?_set_self bound]
    · left
      simp [stateAt, jobs_eq, getElem?_set_ne (Ne.symm is_jid)]

end Lapses

theorem push_lapses (exe : Executor) (prio : ℚ) : Lapses exe (exe.push prio) where
  stopping := id
  states other := by
    obtain same | ⟨missing, blocked⟩ := push_states exe prio other
    · exact .inl same
    · exact .inr ⟨by simp [missing], .blocked 0, blocked, rfl, nofun⟩

theorem lapses_of_eases (eases : Eases exe exe') : Lapses exe exe' := by
  induction eases with
  | refl exe => exact .refl exe
  | trans _ _ first second => exact first.trans second
  | same same => exact ⟨fun stops => same.stopping_eq.trans stops, fun jid => .inl (same.states_eq jid)⟩
  | @wait exe exe' jid job job' _ stopping_eq found live jobs_eq blocked =>
    refine .set stopping_eq found jobs_eq live ?_ ?_
    · cases state_eq : job'.state <;> simp_all [JobState.unheld]
    · intro wantable
      simp [wantable] at blocked
  | want found live free =>
    rw [toState_eq found]
    exact .set rfl found rfl live rfl fun _ => free
  | push exe prio => exact push_lapses exe prio

theorem settleOne_lapses (found : exe.jobs[jid]? = some job) (live : job.state.kind ≠ .done) (result : Done)
    (work : Work) : Lapses exe (exe.settleOne jid result work).1 := by
  have ended : Lapses exe (exe.finish jid result) := by
    rw [finish_eq found]
    exact .set rfl found rfl live rfl nofun
  have told := lapses_of_eases (@Eases.releaseDependants jid (!result.succeeded) job.dependants
    (exe.finish jid result, work))
  simp only [settleOne, releaseDependants, finish_found found result]
  refine (ended.trans told).trans ?_
  split_ifs
  · exact ⟨fun _ => rfl, fun _ => .inl rfl⟩
  · exact .refl _

theorem settleLoop_lapses (exe : Executor) (work : Work) : Lapses exe (exe.settleLoop work) := by
  induction exe, work using settleLoop.induct with
  | case1 exe =>
    rw [settleLoop]
    exact .refl exe
  | case2 exe jid result work missing ih =>
    rw [settleLoop_missing missing]
    exact ih
  | case3 exe jid result work job found ended ih =>
    rw [settleLoop_ended found ended]
    exact ih
  | case4 exe jid result work job found live ih =>
    rw [settleLoop_live found live]
    exact (settleOne_lapses found live result work).trans ih

theorem framed_lapses : Framed Lapses where
  trans := .trans
  ease := lapses_of_eases
  settle _ _ result := settleLoop_lapses _ [(_, result)]

/-! ## The calls that place a job -/

theorem foldl_stopping {round : Executor → JobId → Executor}
    (kept : ∀ exe jid, (round exe jid).stopping = exe.stopping) (ids : List JobId)
    (exe : Executor) :
    (ids.foldl round exe).stopping = exe.stopping := by
  induction ids generalizing exe with
  | nil => rfl
  | cons jid ids ih => exact (ih (round exe jid)).trans (kept exe jid)

theorem toState_stopping (exe : Executor) (jid : JobId) (next : JobState) :
    (exe.toState jid next).stopping = exe.stopping := by
  unfold toState
  split <;> rfl

/-- `takeWants` asks for jobs that are not placed. -/
theorem takeWants_states {arranged : List JobId} (sorted : exe.stream = true → exe.Arranges arranged) :
    (exe.takeWants arranged).2.stopping = exe.stopping ∧
      ∀ jid, (exe.takeWants arranged).2.stateAt jid = exe.stateAt jid ∨
        Unplaced exe jid ∧ (exe.takeWants arranged).2.stateAt jid = some (.wanted none "") := by
  cases up : exe.stream with
  | false =>
    rw [takeWants, if_neg (by simp [up])]
    exact ⟨rfl, fun _ => .inl rfl⟩
  | true =>
    obtain ⟨perm, _⟩ := sorted up
    rw [takeWants, if_pos up]
    refine ⟨?_, fun jid => ?_⟩
    · have flagged := @foldl_stopping (setFollowed · true) (fun _ _ => rfl) exe.rewant { exe with rewant := [] }
      exact (@foldl_stopping want (fun exe jid => toState_stopping exe jid _) _ _).trans flagged
    · simp only [stateAt]
      rw [foldl_want_found, foldl_setFollowed_found]
      by_cases picked : jid ∈ arranged.take exe.room
      · right
        have still : jid ∈ exe.stillWantable := perm.subset (List.take_subset _ _ picked)
        have wantable : exe.kindAt jid = some .wantable := by simpa using (List.mem_filter.mp still).2
        obtain ⟨job, found, _⟩ := exists_of_kindAt wantable
        exact ⟨.inl wantable, by simp [picked, found]⟩
      · left
        cases exe.jobs[jid]? with
        | none => rfl
        | some job =>
          simp only [Option.map_some, picked, if_false]
          split_ifs <;> rfl

/-- Whoever else is placed, a job stays as it is. -/
theorem onAssigned_other (placement : Placement) {other : JobId} (differs : other ≠ jid) :
    (exe.onAssigned jid placement).stateAt other = exe.stateAt other := by
  cases found : exe.jobs[jid]? with
  | none => simp [onAssigned, found]
  | some job =>
    have elsewhere (job' : Job) : (exe.jobs.set jid job')[other]? = exe.jobs[other]? :=
      getElem?_set_ne (Ne.symm differs)
    cases state_eq : job.state with
    | running place redirect =>
      simp only [onAssigned, found, state_eq]
      split_ifs <;> simp [stateAt, elsewhere]
    | assigned place =>
      simp only [onAssigned, found, state_eq]
      split_ifs <;> simp [stateAt, elsewhere]
    | wanted since reason =>
      simp only [onAssigned, found, state_eq]
      split_ifs
      · rfl
      · simp [stateAt, toState, found, elsewhere]
    | _ =>
      simp only [onAssigned, found, state_eq]
      split_ifs <;> rfl

/-- What a job becomes when it is placed. -/
def JobState.placed (placement : Placement) : JobState → JobState
  | .running place redirect => .running place (if placement.addr ≠ place.addr then some placement else redirect)
  | .assigned _ => .assigned placement
  | .wanted _ _ => .assigned placement
  | state => state

theorem onAssigned_self {placement : Placement} (named : placement.addr ≠ "") :
    (exe.onAssigned jid placement).stateAt jid = (exe.stateAt jid).map (JobState.placed placement) := by
  cases found : exe.jobs[jid]? with
  | none => simp [onAssigned, stateAt, found]
  | some job =>
    have bound := lt_length found
    cases state_eq : job.state with
    | running place redirect =>
      simp only [onAssigned, found, state_eq, named, if_false]
      split_ifs with moved
      · simp [stateAt, getElem?_set_self bound, found, state_eq, JobState.placed, moved]
      · simp [stateAt, found, state_eq, JobState.placed, moved]
    | assigned place =>
      simp [onAssigned, found, state_eq, named, stateAt, getElem?_set_self bound, JobState.placed]
    | wanted since reason =>
      simp [onAssigned, found, state_eq, named, stateAt, toState, getElem?_set_self bound, JobState.placed]
    | _ => simp [onAssigned, found, state_eq, named, stateAt, JobState.placed]

theorem onAssigned_unnamed {placement : Placement} (unnamed : placement.addr = "") :
    exe.onAssigned jid placement = exe := by
  unfold onAssigned
  split
  · rfl
  · rw [if_pos unnamed]

/-- `next` starts at most the job it hands out, where it is assigned. -/
theorem nextReady_states (exe : Executor) (ready : List JobId) :
    (exe.nextReady ready).2.stopping = exe.stopping ∧ ∀ jid,
      (exe.nextReady ready).2.stateAt jid = exe.stateAt jid ∨
      ∃ place, exe.stateAt jid = some (.assigned place) ∧
        (exe.nextReady ready).2.stateAt jid = some (.running place none) := by
  induction ready with
  | nil => exact ⟨rfl, fun _ => .inl rfl⟩
  | cons first ready ih =>
    cases first_eq : exe.stateAt first with
    | none =>
      simp only [nextReady, first_eq]
      exact ih
    | some state =>
      cases state with
      | assigned place =>
        obtain ⟨job, found, state_eq⟩ := exists_of_stateAt first_eq
        have bound := lt_length found
        simp only [nextReady, first_eq]
        refine ⟨toState_stopping _ _ _, fun jid => ?_⟩
        by_cases is_first : jid = first
        · subst is_first
          refine .inr ⟨place, first_eq, ?_⟩
          simp [toState, found, stateAt, getElem?_set_self bound]
        · left
          simp [toState, found, stateAt, getElem?_set_ne (Ne.symm is_first)]
      | _ =>
        simp only [nextReady, first_eq]
        exact ih

/-- A job that bounces goes where it was moved. -/
theorem bounced_moved {place placement : Placement}
    (running : exe.stateAt jid = some (.running place (some placement))) :
    (exe.bounced jid).stopping = exe.stopping ∧ (exe.bounced jid).stateAt jid = some (.assigned placement) ∧
      ∀ other, other ≠ jid → (exe.bounced jid).stateAt other = exe.stateAt other := by
  obtain ⟨job, found, state_eq⟩ := exists_of_stateAt running
  have bound := lt_length found
  refine ⟨?_, ?_, fun other differs => ?_⟩
  · simp [bounced, found, state_eq, toState]
  · simp [bounced, found, state_eq, toState, stateAt, getElem?_set_self bound]
  · simp [bounced, found, state_eq, toState, stateAt, getElem?_set_ne (Ne.symm differs)]

/-- A job was moved while it ran. -/
def MovedOn (exe : Executor) (jid : JobId) : Prop :=
  ∃ place placement, exe.stateAt jid = some (.running place (some placement))

theorem onUnplaceable_states (exe : Executor) (jid : JobId) (reason : String) (now : Time) :
    (exe.onUnplaceable jid reason now).2.stopping = exe.stopping ∧ ∀ other,
      (exe.onUnplaceable jid reason now).2.stateAt other = exe.stateAt other ∨
      exe.kindAt other = some .wanted ∧ (exe.onUnplaceable jid reason now).2.kindAt other = some .wanted := by
  cases found : exe.jobs[jid]? with
  | none =>
    simp only [onUnplaceable, found]
    exact ⟨trivial, fun _ => .inl trivial⟩
  | some job =>
    have bound := lt_length found
    cases state_eq : job.state with
    | wanted since text =>
      simp only [onUnplaceable, found, state_eq]
      refine ⟨trivial, fun other => ?_⟩
      by_cases is_jid : other = jid
      · subst is_jid
        exact .inr ⟨by simp [kindAt_of_found found, state_eq], by simp [kindAt, stateAt, getElem?_set_self bound]⟩
      · left
        simp [stateAt, getElem?_set_ne (Ne.symm is_jid)]
    | _ =>
      simp only [onUnplaceable, found, state_eq]
      exact ⟨trivial, fun _ => .inl trivial⟩

theorem onPlaceable_states (exe : Executor) (jid : JobId) :
    (exe.onPlaceable jid).stopping = exe.stopping ∧ ∀ other,
      (exe.onPlaceable jid).stateAt other = exe.stateAt other ∨
      exe.kindAt other = some .wanted ∧ (exe.onPlaceable jid).kindAt other = some .wanted := by
  cases found : exe.jobs[jid]? with
  | none =>
    simp only [onPlaceable, found]
    exact ⟨trivial, fun _ => .inl trivial⟩
  | some job =>
    have bound := lt_length found
    cases state_eq : job.state with
    | wanted since text =>
      simp only [onPlaceable, found, state_eq]
      refine ⟨trivial, fun other => ?_⟩
      by_cases is_jid : other = jid
      · subst is_jid
        exact .inr ⟨by simp [kindAt_of_found found, state_eq], by simp [kindAt, stateAt, getElem?_set_self bound]⟩
      · left
        simp [stateAt, getElem?_set_ne (Ne.symm is_jid)]
    | _ =>
      simp only [onPlaceable, found, state_eq]
      exact ⟨trivial, fun _ => .inl trivial⟩

/-! ## The last placement -/

/-- An executor, and for each job the last placement with an address it was given since it became Wanted. -/
structure Tracked where
  exe : Executor
  last : JobId → Option Placement := fun _ => none

/-- A job becomes Wanted. -/
def Asks (exe exe' : Executor) (jid : JobId) : Prop :=
  exe.kindAt jid ≠ some .wanted ∧ exe'.kindAt jid = some .wanted

instance (exe exe' : Executor) (jid : JobId) : Decidable (Asks exe exe' jid) := by
  unfold Asks
  infer_instance

/-- The placement a call gives to a job. -/
def Call.placement (jid : JobId) : Call → Option Placement
  | .onAssigned target placement => if target = jid ∧ placement.addr ≠ "" then some placement else none
  | _ => none

/-- One call. -/
def Tracked.perform (t : Tracked) (call : Call) : Tracked where
  exe := call.perform t.exe
  last jid := if Asks t.exe (call.perform t.exe) jid then none else (call.placement jid).or (t.last jid)

/-- A running job with a redirect is not moved back to where it runs. -/
def Call.Straight (exe : Executor) : Call → Prop
  | .onAssigned jid placement =>
    match exe.stateAt jid with
    | some (.running place (some _)) => placement.addr ≠ "" → placement.addr ≠ place.addr
    | _ => True
  | _ => True

instance (exe : Executor) : (call : Call) → Decidable (call.Straight exe)
  | .onAssigned jid placement => by
    rw [Call.Straight]
    split <;> infer_instance
  | .add .. | .blockOn .. | .connected | .disconnected | .takeWants _ | .unsent _ | .takeCancels | .onCached _
  | .onUnplaceable .. | .onPlaceable _ | .reap .. | .next | .finished .. | .bounced _ | .abandon => .isTrue trivial

theorem straight_iff {placement : Placement} : (Call.onAssigned jid placement).Straight exe ↔
    ∀ place redirect, exe.stateAt jid = some (.running place (some redirect)) →
      placement.addr ≠ "" → placement.addr ≠ place.addr := by
  simp only [Call.Straight]
  split
  · rename_i place redirect running
    simp [running]
  · rename_i other
    exact ⟨fun _ place redirect running => absurd running (other place redirect), fun _ => trivial⟩

/-- The runs of an executor whose calls are of a kind, with the last placements. -/
abbrev ReachedTracked (kind : Executor → Call → Prop) (cfg : Config) : Tracked → List Call → Prop :=
  Run.Reached (fun t => t = { exe := { cfg } }) fun t calls t' =>
    ∃ call, calls = [call] ∧ call.allowed t.exe ∧ kind t.exe call ∧ t' = t.perform call

/-- A placed job is where it was last sent, or has it as its redirect. -/
def Directed (last : Option Placement) : JobState → Prop
  | .assigned place => last = some place
  | .running place redirect => ∃ placement, last = some placement ∧
      redirect = if placement.addr ≠ place.addr then some placement else none
  | _ => True

variable {state : JobState}

theorem directed_of_unheld {last : Option Placement}
    (unheld : state.unheld = true ∨ state.kind = .wanted) : Directed last state := by
  cases state <;> simp_all [Directed, JobState.unheld]

/-- Every placed job is where it was last sent. -/
def Tracked.Sound (t : Tracked) : Prop := ∀ jid state, t.exe.stateAt jid = some state → Directed (t.last jid) state

theorem kind_of_stateAt {kind : Kind} (state_eq : exe.stateAt jid = some state)
    (kind_eq : exe.kindAt jid = some kind) : state.kind = kind := by
  rw [kindAt, state_eq, Option.map_some] at kind_eq
  exact Option.some.inj kind_eq

/-- A job keeps its state, or loses its place. -/
theorem Tracked.Sound.keep {t : Tracked} (sound : t.Sound) {call : Call}
    (states : ∀ jid state, (call.perform t.exe).stateAt jid = some state →
      (t.exe.stateAt jid = some state ∧ call.placement jid = none) ∨ state.unheld = true ∨ state.kind = .wanted) :
    (t.perform call).Sound := by
  intro jid state state_eq
  change (call.perform t.exe).stateAt jid = some state at state_eq
  obtain ⟨before, silent⟩ | outside := states jid state state_eq
  · have directed := sound jid state before
    by_cases asks : Asks t.exe (call.perform t.exe) jid
    · exact directed_of_unheld (.inr (kind_of_stateAt state_eq asks.2))
    · simpa [Tracked.perform, asks, silent] using directed
  · exact directed_of_unheld outside

theorem Tracked.Sound.lapse {t : Tracked} (sound : t.Sound) {call : Call}
    (silent : ∀ jid, call.placement jid = none) (lapses : Lapses t.exe (call.perform t.exe)) :
    (t.perform call).Sound := by
  refine sound.keep fun jid state state_eq => ?_
  obtain same | ⟨_, state', state_eq', unheld, _⟩ := lapses.states jid
  · exact .inl ⟨same.symm.trans state_eq, silent jid⟩
  · cases state_eq.symm.trans state_eq'
    exact .inr (.inl unheld)

theorem Tracked.Sound.plain {t : Tracked} (sound : t.Sound) {call : Call} (plain : call.Plain) :
    (t.perform call).Sound := by
  refine sound.lapse (fun jid => ?_) (framed_lapses.call plain t.exe)
  cases call with
  | onAssigned target placement => exact plain.elim
  | _ => rfl

theorem not_asks {exe exe' : Executor} {jid : JobId} (state_eq : exe'.stateAt jid = some state)
    (other_kind : state.kind ≠ .wanted) : ¬Asks exe exe' jid := by
  rintro ⟨_, wanted⟩
  exact other_kind (kind_of_stateAt state_eq wanted)

/-- A job that is placed while it is held. -/
theorem Directed.placed {last : Option Placement} (directed : Directed last state)
    (placement : Placement)
    (straight : ∀ place redirect, state = .running place (some redirect) → placement.addr ≠ place.addr) :
    Directed (some placement) (state.placed placement) := by
  cases state with
  | assigned place => rfl
  | wanted since reason => rfl
  | running place redirect =>
    refine ⟨placement, rfl, ?_⟩
    cases redirect with
    | some other => rw [if_pos (straight place other rfl), if_pos (straight place other rfl)]
    | none => rfl
  | _ => trivial

/-- A call keeps every placed job where it was last sent. -/
theorem Tracked.Sound.call {t : Tracked} (sound : t.Sound) {call : Call} (allowed : call.allowed t.exe)
    (straight : call.Straight t.exe) : (t.perform call).Sound := by
  cases call with
  | takeWants arranged =>
    refine sound.keep fun jid state state_eq => ?_
    obtain same | ⟨_, wanted⟩ := (takeWants_states allowed).2 jid
    · exact .inl ⟨same.symm.trans state_eq, rfl⟩
    · cases state_eq.symm.trans wanted
      exact .inr (.inr rfl)
  | onUnplaceable target reason now =>
    refine sound.keep fun jid state state_eq => ?_
    obtain same | ⟨_, wanted⟩ := (onUnplaceable_states t.exe target reason now).2 jid
    · exact .inl ⟨same.symm.trans state_eq, rfl⟩
    · exact .inr (.inr (kind_of_stateAt state_eq wanted))
  | onPlaceable target =>
    refine sound.keep fun jid state state_eq => ?_
    obtain same | ⟨_, wanted⟩ := (onPlaceable_states t.exe target).2 jid
    · exact .inl ⟨same.symm.trans state_eq, rfl⟩
    · exact .inr (.inr (kind_of_stateAt state_eq wanted))
  | onAssigned target placement =>
    by_cases unnamed : placement.addr = ""
    · refine sound.keep fun jid state state_eq => ?_
      rw [show Call.perform t.exe (.onAssigned target placement) = t.exe from onAssigned_unnamed unnamed] at state_eq
      exact .inl ⟨state_eq, by simp [Call.placement, unnamed]⟩
    · intro jid state state_eq
      change (t.exe.onAssigned target placement).stateAt jid = some state at state_eq
      by_cases is_target : jid = target
      · subst is_target
        rw [onAssigned_self unnamed] at state_eq
        obtain ⟨before, before_eq, rfl⟩ := Option.map_eq_some_iff.mp state_eq
        have directed := (sound jid before before_eq).placed placement
          fun place redirect running => straight_iff.mp straight place redirect (running ▸ before_eq) unnamed
        cases before with
        | assigned place | running place redirect | wanted since reason =>
          have settled : ¬Asks t.exe (Call.perform t.exe (.onAssigned jid placement)) jid :=
            not_asks ((onAssigned_self unnamed).trans (congrArg _ before_eq)) (by simp [JobState.placed])
          simpa [Tracked.perform, settled, Call.placement, unnamed] using directed
        | _ => trivial
      · rw [onAssigned_other placement is_target] at state_eq
        have directed := sound jid state state_eq
        by_cases asks : Asks t.exe (Call.perform t.exe (.onAssigned target placement)) jid
        · have same : (Call.perform t.exe (.onAssigned target placement)).kindAt jid = t.exe.kindAt jid :=
            congrArg _ (onAssigned_other placement is_target)
          exact absurd (same.symm.trans asks.2) asks.1
        · simpa [Tracked.perform, asks, Call.placement, Ne.symm is_target] using directed
  | next =>
    intro jid state state_eq
    change t.exe.next.2.stateAt jid = some state at state_eq
    obtain same | ⟨place, before, running⟩ := (nextReady_states t.exe t.exe.ready).2 jid
    · have directed := sound jid state (same.symm.trans state_eq)
      by_cases asks : Asks t.exe (Call.perform t.exe .next) jid
      · exact absurd ((congrArg (Option.map JobState.kind) same).symm.trans asks.2) asks.1
      · simpa [Tracked.perform, asks, Call.placement] using directed
    · cases state_eq.symm.trans running
      have last_eq : t.last jid = some place := sound jid _ before
      have settled : ¬Asks t.exe (Call.perform t.exe .next) jid := not_asks running (by simp)
      exact ⟨place, by simp [Tracked.perform, settled, Call.placement, last_eq], by simp⟩
  | bounced target =>
    by_cases moved : MovedOn t.exe target
    · obtain ⟨place, placement, before⟩ := moved
      obtain ⟨_, assigned, others⟩ := bounced_moved before
      intro jid state state_eq
      change (t.exe.bounced target).stateAt jid = some state at state_eq
      by_cases is_target : jid = target
      · subst is_target
        cases state_eq.symm.trans assigned
        obtain ⟨last, last_eq, redirect_eq⟩ := sound jid _ before
        have settled : ¬Asks t.exe (Call.perform t.exe (.bounced jid)) jid := not_asks assigned (by simp)
        have is_last : placement = last := by
          split_ifs at redirect_eq
          exact Option.some.inj redirect_eq
        simp [Directed, Tracked.perform, settled, Call.placement, last_eq, is_last]
      · have same := others jid is_target
        have directed := sound jid state (same.symm.trans state_eq)
        by_cases asks : Asks t.exe (Call.perform t.exe (.bounced target)) jid
        · exact absurd ((congrArg (Option.map JobState.kind) same).symm.trans asks.2) asks.1
        · simpa [Tracked.perform, asks, Call.placement] using directed
    · exact sound.lapse (fun _ => rfl) (framed_lapses.close (.bounced fun place placement running =>
        moved ⟨place, placement, running⟩))
  | _ => exact sound.plain trivial

/-- A released job is wantable, or has ended. -/
theorem release_kind (found : exe.jobs[jid]? = some job) (live : job.state.kind ≠ .done) :
    (exe.release jid).kindAt jid = some .wantable ∨ (exe.release jid).kindAt jid = some .done := by
  rw [release_eq]
  obtain ⟨_, _, _, ran⟩ | ⟨result, ran, _⟩ := releaseInto_cases found []
  · left
    rw [ran, settleLoop]
    simp [kindAt, stateAt, toState_found found]
  · right
    rw [ran]
    exact congrArg (Option.map JobState.kind) (settle_done found live result)

/-- A job that bounces without a redirect is wantable, or has ended. -/
theorem bounced_kind {place : Placement} (running : exe.stateAt jid = some (.running place none)) :
    (exe.bounced jid).kindAt jid = some .wantable ∨ (exe.bounced jid).kindAt jid = some .done := by
  obtain ⟨job, found, state_eq⟩ := exists_of_stateAt running
  have bound := lt_length found
  have written : ({ exe with jobs := exe.jobs.set jid { job with bounced := job.bounced + 1 } }).jobs[jid]? =
    some { job with bounced := job.bounced + 1 } := getElem?_set_self bound
  rw [state_eq] at written
  simp only [bounced, found, state_eq]
  split_ifs
  · exact .inr (congrArg (Option.map JobState.kind) (settle_done written (by simp) _))
  · exact release_kind (toState_found written (.blocked 0)) (by simp)

/-- In every run in which no running job with a redirect is moved back to where it runs, let `placement` be the
last one with an address a job was given since it became Wanted: an assigned job is placed there, and a
running one that bounces goes there if it is elsewhere, and otherwise is wantable or has ended. -/
theorem goes_where_last_sent {cfg : Config} {t : Tracked} {calls : List Call}
    (reached : ReachedTracked Call.Straight cfg t calls) (jid : JobId) :
    (∀ place, t.exe.stateAt jid = some (.assigned place) → t.last jid = some place) ∧
    ∀ place redirect, t.exe.stateAt jid = some (.running place redirect) →
      ∃ placement, t.last jid = some placement ∧
        (placement.addr ≠ place.addr → (t.exe.bounced jid).stateAt jid = some (.assigned placement)) ∧
        (placement.addr = place.addr → (t.exe.bounced jid).kindAt jid = some .wantable ∨
          (t.exe.bounced jid).kindAt jid = some .done) := by
  have sound : t.Sound := by
    apply Run.Reached.state_invariant (P := Tracked.Sound) _ _ reached
    · rintro _ rfl jid state state_eq
      simp [stateAt] at state_eq
    · rintro t calls t' sound ⟨call, _, allowed, straight, rfl⟩
      exact sound.call allowed straight
  refine ⟨fun place assigned => sound jid _ assigned, fun place redirect running => ?_⟩
  obtain ⟨placement, last_eq, redirect_eq⟩ := sound jid _ running
  refine ⟨placement, last_eq, fun moved => ?_, fun stays => ?_⟩
  · rw [if_pos moved] at redirect_eq
    subst redirect_eq
    exact (bounced_moved running).2.1
  · rw [if_neg (by simp [stays])] at redirect_eq
    subst redirect_eq
    exact bounced_kind running

/-- A call, if it is allowed and of a kind. -/
def Tracked.play (kind : Executor → Call → Prop) [∀ exe call, Decidable (kind exe call)] (t : Tracked) (call : Call) :
    Option Tracked :=
  if call.allowed t.exe ∧ kind t.exe call then some (t.perform call) else none

theorem ReachedTracked.play {kind : Executor → Call → Prop} [∀ exe call, Decidable (kind exe call)]
    {cfg : Config} {t t' : Tracked} {earlier calls : List Call}
    (reached : ReachedTracked kind cfg t earlier)
    (played : Run.play (Tracked.play kind) calls t = some t') :
    ReachedTracked kind cfg t' (earlier ++ calls) := by
  induction calls generalizing t earlier with
  | nil =>
    cases played
    simpa using reached
  | cons call calls ih =>
    obtain ⟨mid, performed, rest⟩ := Option.bind_eq_some_iff.mp played
    simp only [Tracked.play] at performed
    split_ifs at performed with fits
    cases performed
    simpa using ih (.step reached ⟨call, rfl, fits.1, fits.2, rfl⟩) rest

/-- A job runs at `a` and is moved to `b`. -/
def movedOn : List Call :=
  [.add 1 [], .connected, .takeWants [0], .onAssigned 0 { addr := "a", assignId := 1 }, .next,
    .onAssigned 0 { addr := "b", assignId := 2 }]

theorem goes_where_last_sent_moved : ∃ t, ReachedTracked Call.Straight {} t movedOn ∧
    t.exe.stateAt 0 = some (.running { addr := "a", assignId := 1 } (some { addr := "b", assignId := 2 })) ∧
    ∃ placement, t.last 0 = some placement ∧
      (placement.addr ≠ "a" → (t.exe.bounced 0).stateAt 0 = some (.assigned placement)) := by
  have ends : (Run.play (Tracked.play Call.Straight) movedOn { exe := { cfg := {} } }).map (fun t => t.exe.stateAt 0) =
      some (some (.running { addr := "a", assignId := 1 } (some { addr := "b", assignId := 2 }))) := by
    decide +kernel
  obtain ⟨t, played, running⟩ := Option.map_eq_some_iff.mp ends
  have start : ReachedTracked Call.Straight {} { exe := { cfg := {} } } [] := .start rfl
  have reached : ReachedTracked Call.Straight {} t movedOn := start.play played
  obtain ⟨placement, last_eq, moves, _⟩ := (goes_where_last_sent reached 0).2 _ _ running
  exact ⟨t, reached, running, placement, last_eq, moves⟩

/-- A job that was moved on is moved back to where it runs and bounces: it goes to the older placement. -/
theorem moved_back_goes_astray : ∃ t,
    ReachedTracked (fun _ _ => True) {} t (movedOn ++ [.onAssigned 0 { addr := "a", assignId := 3 }]) ∧
    t.exe.kindAt 0 = some .running ∧ t.last 0 = some { addr := "a", assignId := 3 } ∧
    (t.exe.bounced 0).stateAt 0 = some (.assigned { addr := "b", assignId := 2 }) := by
  have ends : (Run.play (Tracked.play fun _ _ => True) (movedOn ++ [.onAssigned 0 { addr := "a", assignId := 3 }])
      { exe := { cfg := {} } }).map (fun t => (t.exe.kindAt 0, t.last 0, (t.exe.bounced 0).stateAt 0)) =
      some (some .running, some { addr := "a", assignId := 3 }, some (.assigned { addr := "b", assignId := 2 })) := by
    decide +kernel
  obtain ⟨t, played, shape⟩ := Option.map_eq_some_iff.mp ends
  simp only [Prod.mk.injEq] at shape
  have start : ReachedTracked (fun _ _ => True) {} { exe := { cfg := {} } } [] := .start rfl
  exact ⟨t, start.play played, shape.1, shape.2.1, shape.2.2⟩

end NixGrpcStore.Exec
