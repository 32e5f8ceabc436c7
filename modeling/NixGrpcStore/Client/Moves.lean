import NixGrpcStore.Client.Executor

/-!
# What a call of the executor is made of

Every call is a sequence of moves, each of which writes one job and keeps its lists in step.  A
`Stage` is a point inside a call: the executor, the results that wait in `settle`, the dependants
that were not told yet, and the job that is about to be released.  It also carries what is said
about a run as a whole: which inputs were named for which job, and for which jobs `add` threw.
-/

namespace NixGrpcStore.Exec

open List (getElem?_set_self)
open Executor Tally

/-- A dependant that is to be told that a job ended. -/
structure Owed where
  dep : JobId
  ended : JobId
  failed : Bool

/-- A point inside a call. -/
structure Stage where
  exe : Executor
  work : Work := []
  owed : List Owed := []
  /-- A job whose inputs are being counted or which is about to be released. -/
  hand : Option JobId := none
  /-- The inputs that were named, each with its job. -/
  named : List (JobId × JobId) := []
  /-- The jobs whose `add` threw. -/
  thrown : List JobId := []

/-- The flags of the follows and what the scheduler is to be told stay as they are. -/
structure Hushed (exe exe' : Executor) : Prop where
  cancels_eq : exe'.cancels = exe.cancels
  rewant_eq : exe'.rewant = exe.rewant
  stream_eq : exe'.stream = exe.stream
  followed_eq : exe'.jobs.map Job.followed = exe.jobs.map Job.followed

/-- What the calls on jobs leave alone. -/
structure Kept (exe exe' : Executor) : Prop where
  cfg_eq : exe'.cfg = exe.cfg
  remaining_eq : exe'.remaining = exe.remaining
  stopping_eq : exe'.stopping = exe.stopping
  abandoned_eq : exe'.abandoned = exe.abandoned

/-- A job that is neither blocked nor done gets another such state, and the lists follow. -/
structure Turn (strict : Prop) (exe exe' : Executor) (jid : JobId) (job job' : Job) : Prop
    extends Kept exe exe' where
  found : exe.jobs[jid]? = some job
  jobs_eq : exe'.jobs = exe.jobs.set jid job'
  deps_eq : job'.dependants = job.dependants
  failedInput_eq : job'.failedInput = job.failedInput
  free : job.state.kind ≠ .blocked ∧ job.state.kind ≠ .done
  free' : job'.state.kind ≠ .blocked ∧ job'.state.kind ≠ .done
  active_eq : exe'.active = exe.active ∧ job'.state.kind.isActive = job.state.kind.isActive ∨
    exe'.active = (if job.state.kind.isActive then decr exe.active else exe.active) +
      if job'.state.kind.isActive then 1 else 0
  active_lt : job'.state.kind.isActive = true →
    job.state.kind.isActive = true ∨ exe.active < exe.cfg.threads
  wantable_eq : ∀ other, exe'.wantable.count other +
      (if jid = other ∧ job.state.kind = .wantable then 1 else 0) =
    exe.wantable.count other + if jid = other ∧ job'.state.kind = .wantable then 1 else 0
  ready_eq : ∀ other, exe'.ready.count other +
      (if jid = other ∧ job.state.kind = .assigned then 1 else 0) =
    exe.ready.count other + if jid = other ∧ job'.state.kind = .assigned then 1 else 0
  unplaced : job'.state.kind = .wantable ∨ job'.state.kind = .wanted →
    job.state.kind = .wantable ∨ job.state.kind = .wanted
  hushed : strict → Hushed exe exe' ∧
    (job'.state.kind.isActive = true → job.state.kind.isActive = true)

/-- A job without its flag and its count of bounces. -/
def Job.quiet (job : Job) : Job := { job with followed := false, bounced := 0 }

/-- No job changes its state, and the lists lose at most what is out of date. -/
structure Idle (strict : Prop) (exe exe' : Executor) : Prop extends Kept exe exe' where
  jobs_eq : exe'.jobs.map Job.quiet = exe.jobs.map Job.quiet
  active_eq : exe'.active = exe.active
  wantable_le : ∀ jid, exe'.wantable.count jid ≤ exe.wantable.count jid
  wantable_eq : ∀ jid, exe.kindAt jid = some .wantable →
    exe'.wantable.count jid = exe.wantable.count jid
  ready_le : ∀ jid, exe'.ready.count jid ≤ exe.ready.count jid
  ready_eq : ∀ jid, exe.kindAt jid = some .assigned → exe'.ready.count jid = exe.ready.count jid
  hushed : strict → Hushed exe exe'

variable {exe' : Executor}

/-- An idle move leaves every job as it is but for its flag and its bounces. -/
theorem Idle.found {strict : Prop} {exe : Executor} (idle : Idle strict exe exe') {jid : JobId}
    {job' : Job} (found' : exe'.jobs[jid]? = some job') :
    ∃ job, exe.jobs[jid]? = some job ∧ job'.state = job.state ∧ job'.dependants = job.dependants ∧
      job'.failedInput = job.failedInput := by
  have columns := congrArg (fun jobs => jobs[jid]?) idle.jobs_eq
  simp only [List.getElem?_map, found', Option.map_some] at columns
  obtain ⟨job, found, quiet_eq⟩ := Option.map_eq_some_iff.mp columns.symm
  exact ⟨job, found, (congrArg Job.state quiet_eq).symm, (congrArg Job.dependants quiet_eq).symm,
    (congrArg Job.failedInput quiet_eq).symm⟩

variable {job needed : Job}

theorem Idle.found_after {strict : Prop} {exe : Executor} (idle : Idle strict exe exe')
    {jid : JobId} (found : exe.jobs[jid]? = some job) :
    ∃ job', exe'.jobs[jid]? = some job' ∧ job'.state = job.state ∧ job'.dependants = job.dependants := by
  have columns := congrArg (fun jobs => jobs[jid]?) idle.jobs_eq
  simp only [List.getElem?_map, found, Option.map_some] at columns
  obtain ⟨job', found', quiet_eq⟩ := Option.map_eq_some_iff.mp columns
  exact ⟨job', found', (congrArg Job.state quiet_eq :), (congrArg Job.dependants quiet_eq :)⟩

/-- Why a blocked job ends when it is released. -/
def Ends (exe : Executor) (job : Job) (result : Done) : Prop :=
  result = dependencyDone ∧ job.failedInput.isSome ∨ result = cancelledDone ∧ exe.stopping = true ∨
    result = lostDone ∧ exe.abandoned = true

/-- One move.  Where it is `strict`, follows are dropped by `settle` and `unfollow` only. -/
inductive Move (strict : Prop) (S : Stage) : Stage → Prop
  /-- A job changes its state by itself. -/
  | turn {jid : JobId} {job job' : Job} {exe : Executor} (turned : Turn strict S.exe exe jid job job') :
      Move strict S { S with exe := exe }
  | idle {exe : Executor} (idle : Idle strict S.exe exe) : Move strict S { S with exe := exe }
  /-- A job that is neither blocked nor done is given a result. -/
  | begin {jid : JobId} {job : Job} {result : Done} (found : S.exe.jobs[jid]? = some job)
      (free : job.state.kind ≠ .blocked ∧ job.state.kind ≠ .done) (idle : S.work = [])
      (own : result.outcome ≠ .dependencyFailed) :
      Move strict S { S with work := [(jid, result)] }
  /-- A result comes too late. -/
  | drop {jid : JobId} {result : Done} {work : Work} (waits : S.work = (jid, result) :: work)
      (late : ∀ job, S.exe.jobs[jid]? = some job → job.state.kind = .done) :
      Move strict S { S with work := work }
  /-- A job gets its result; its dependants are to be told. -/
  | settle {jid : JobId} {job : Job} {result : Done} {work : Work}
      (waits : S.work = (jid, result) :: work) (told : S.owed = []) (empty : S.hand = none)
      (found : S.exe.jobs[jid]? = some job) (live : job.state.kind ≠ .done) :
      Move strict S
        { S with
          exe := S.exe.finish jid result
          work := work
          owed := job.dependants.map fun dep => ⟨dep, jid, !result.succeeded⟩ }
  /-- A dependant that is not blocked is not told. -/
  | pass {owed : Owed} {rest : List Owed} (owes : S.owed = owed :: rest)
      (unblocked : ∀ job, S.exe.jobs[owed.dep]? = some job → job.state.kind ≠ .blocked) :
      Move strict S { S with owed := rest }
  /-- A dependant is told, and taken in hand if it waits for nothing more. -/
  | tell {owed : Owed} {rest : List Owed} {dnt : Job} {waiting : ℕ} (owes : S.owed = owed :: rest)
      (empty : S.hand = none) (found : S.exe.jobs[owed.dep]? = some dnt)
      (state_eq : dnt.state = .blocked waiting) :
      Move strict S
        { S with
          exe := { S.exe with
            jobs := S.exe.jobs.set owed.dep (tell owed.ended owed.failed dnt waiting) }
          owed := rest
          hand := if decr waiting = 0 then some owed.dep else none }
  /-- The job in hand becomes wantable. -/
  | unblock {jid : JobId} {job : Job} (holds : S.hand = some jid)
      (found : S.exe.jobs[jid]? = some job) (state_eq : job.state = .blocked 0)
      (sound : job.failedInput = none) (going : S.exe.stopping = false)
      (kept : S.exe.abandoned = false) :
      Move strict S
        { S with
          exe := { S.exe.toState jid .wantable with wantable := S.exe.wantable ++ [jid] }
          hand := none }
  /-- The result of the job in hand waits with the others. -/
  | hold {jid : JobId} {job : Job} {result : Done} (holds : S.hand = some jid)
      (found : S.exe.jobs[jid]? = some job) (state_eq : job.state = .blocked 0)
      (why : Ends S.exe job result) :
      Move strict S { S with work := (jid, result) :: S.work, hand := none }
  /-- Everything that has not started is cancelled. -/
  | stop (told : S.owed = []) (empty : S.hand = none) (strictly : S.exe.cfg.keepGoing = false) :
      Move strict S { S with exe := (S.exe.stopAll S.work).1, work := (S.exe.stopAll S.work).2 }
  /-- A job is added and taken in hand. -/
  | create (prio : ℚ) (told : S.owed = []) (empty : S.hand = none) (unused : S.work = []) :
      Move strict S
        { S with
          exe := S.exe.push prio
          hand := some S.exe.jobs.length }
  /-- A running job is taken in hand. -/
  | block {jid : JobId} {job : Job} (told : S.owed = []) (empty : S.hand = none) (unused : S.work = [])
      (found : S.exe.jobs[jid]? = some job) (running : job.state.kind = .running) :
      Move strict S { S with exe := S.exe.toState jid (.blocked 0), hand := some jid }
  /-- The job in hand waits for an input that is not done. -/
  | link {jid input : JobId} {job needed : Job} {waiting : ℕ} (holds : S.hand = some jid)
      (told : S.owed = [])
      (found : S.exe.jobs[jid]? = some job) (state_eq : job.state = .blocked waiting)
      (needs : S.exe.jobs[input]? = some needed) (live : needed.state.kind ≠ .done) :
      Move strict S
        { S with
          exe := { S.exe with
            jobs := (S.exe.jobs.modify input (Job.awaitedBy jid)).modify jid
              (Job.blockedBy (waiting + 1)) }
          named := S.named ++ [(jid, input)] }
  /-- The job in hand needs an input that is done. -/
  | meet {jid input : JobId} {job needed : Job} {result : Done} {waiting : ℕ} (holds : S.hand = some jid)
      (found : S.exe.jobs[jid]? = some job) (state_eq : job.state = .blocked waiting)
      (needs : S.exe.jobs[input]? = some needed) (ended : needed.state = .done result) :
      Move strict S
        { S with
          exe := { S.exe with
            jobs := S.exe.jobs.set jid
              { job with failedInput := if result.succeeded then job.failedInput else some input } }
          named := S.named ++ [(jid, input)] }
  /-- The scheduler is told that we do not follow the job in hand. -/
  | unfollow {jid : JobId} {job : Job} (holds : S.hand = some jid) (found : S.exe.jobs[jid]? = some job)
      (blocked : job.state.kind = .blocked) : Move strict S { S with exe := S.exe.unfollow jid }
  /-- The job in hand waits. -/
  | leave {jid : JobId} {job : Job} {waiting : ℕ} (holds : S.hand = some jid)
      (found : S.exe.jobs[jid]? = some job) (state_eq : job.state = .blocked (waiting + 1))
      (unfollowed : job.followed = false) : Move strict S { S with hand := none }
  /-- `add` throws on an input that names no job. -/
  | throw {jid : JobId} {job : Job} {waiting : ℕ} (more : List JobId) (holds : S.hand = some jid)
      (found : S.exe.jobs[jid]? = some job) (state_eq : job.state = .blocked waiting)
      (unfollowed : job.followed = false) (bounded : waiting ≤ maxSize) :
      Move strict S
        { S with
          exe := { S.exe with jobs := S.exe.jobs.set jid { job with state := .blocked 0 } }
          hand := none
          named := S.named ++ more.map fun input => (jid, input)
          thrown := jid :: S.thrown }

/-- A sequence of moves. -/
def Moves (strict : Prop) : Stage → Stage → Prop := Relation.ReflTransGen (Move strict)

/-- Where the moves of a call start: `abandon` raises its flag first. -/
def Call.start (exe : Executor) : Call → Executor
  | .abandon => { exe with abandoned := true }
  | _ => exe

/-- A point between two calls. -/
def between (exe : Executor) (named : List (JobId × JobId)) (thrown : List JobId) : Stage :=
  { exe := exe, named := named, thrown := thrown }

/-! ## The loop in `settle` -/

section Settle

variable {strict : Prop} {exe : Executor} {named : List (JobId × JobId)} {thrown : List JobId}
  {jid : JobId}

theorem releaseInto_moves (found : exe.jobs[jid]? = some job)
    (state_eq : job.state = .blocked 0) (work : Work) (owed : List Owed) :
    Moves strict ⟨exe, work, owed, some jid, named, thrown⟩
      ⟨(exe.releaseInto jid work).1, (exe.releaseInto jid work).2, owed, none, named, thrown⟩ := by
  obtain ⟨sound, going, kept, ran⟩ | ⟨result, ran, why⟩ := releaseInto_cases found work
  · rw [ran]
    exact .single (.unblock rfl found state_eq sound going kept)
  · rw [ran]
    exact .single (.hold rfl found state_eq why)

theorem releaseDependant_moves (jid : JobId) (failed : Bool) (stage : Executor × Work) (dep : JobId)
    (owed : List Owed) :
    Moves strict ⟨stage.1, stage.2, ⟨dep, jid, failed⟩ :: owed, none, named, thrown⟩
      ⟨(releaseDependant jid failed stage dep).1, (releaseDependant jid failed stage dep).2, owed, none,
        named, thrown⟩ := by
  obtain ⟨exe, work⟩ := stage
  cases found : exe.jobs[dep]? with
  | none =>
    simp only [releaseDependant, found]
    exact .single (.pass rfl (by simp [found]))
  | some dnt =>
    cases state_eq : dnt.state with
    | blocked waiting =>
      have bound : dep < exe.jobs.length := lt_length found
      simp only [releaseDependant, found, state_eq]
      refine Relation.ReflTransGen.head (.tell rfl rfl found state_eq) ?_
      split
      · rename_i last
        exact releaseInto_moves (getElem?_set_self bound) (by rw [Executor.tell, last]) work owed
      · exact .refl
    | _ =>
      simp only [releaseDependant, found, state_eq]
      refine .single (.pass rfl fun job found' => ?_)
      rw [← Option.some.inj (found.symm.trans found'), state_eq]
      simp

theorem foldl_releaseDependant_moves (jid : JobId) (failed : Bool) (deps : List JobId)
    (stage : Executor × Work) :
    Moves strict ⟨stage.1, stage.2, deps.map fun dep => ⟨dep, jid, failed⟩, none, named, thrown⟩
      ⟨(deps.foldl (releaseDependant jid failed) stage).1,
        (deps.foldl (releaseDependant jid failed) stage).2, [], none, named, thrown⟩ := by
  induction deps generalizing stage with
  | nil => exact .refl
  | cons dep deps ih =>
    exact (releaseDependant_moves jid failed stage dep _).trans (ih (releaseDependant jid failed stage dep))

section Results

variable (found : exe.jobs[jid]? = some job)
include found

theorem finish_found (result : Done) :
    (exe.finish jid result).jobs[jid]? = some { job with followed := false, state := .done result } := by
  rw [finish_eq found]
  exact getElem?_set_self (lt_length found)

/-- What follows in a round of the loop once the job has its result. -/
theorem ended_moves (result : Done) (work : Work) :
    Moves strict ⟨exe.finish jid result, work, job.dependants.map fun dep => ⟨dep, jid, !result.succeeded⟩,
        none, named, thrown⟩
      ⟨(exe.settleOne jid result work).1, (exe.settleOne jid result work).2, [], none, named, thrown⟩ := by
  have told := @foldl_releaseDependant_moves strict named thrown jid (!result.succeeded) job.dependants
    (exe.finish jid result, work)
  simp only [settleOne, releaseDependants, finish_found found result]
  generalize job.dependants.foldl (releaseDependant jid (!result.succeeded))
    (exe.finish jid result, work) = ended at told ⊢
  split
  · rename_i stops
    have strictly : ended.1.cfg.keepGoing = false := by simp_all
    exact told.tail (.stop rfl rfl strictly)
  · exact told

theorem settleOne_moves (live : job.state.kind ≠ .done) (result : Done) (work : Work) :
    Moves strict ⟨exe, (jid, result) :: work, [], none, named, thrown⟩
      ⟨(exe.settleOne jid result work).1, (exe.settleOne jid result work).2, [], none, named, thrown⟩ :=
  Relation.ReflTransGen.head (.settle rfl rfl rfl found live) (ended_moves found result work)

theorem settleLoop_live (live : job.state.kind ≠ .done) (result : Done) (work : Work) :
    exe.settleLoop ((jid, result) :: work) =
      (exe.settleOne jid result work).1.settleLoop (exe.settleOne jid result work).2 := by
  rw [settleLoop]
  split
  · rename_i missing
    cases missing.symm.trans found
  · rename_i job' found'
    cases found.symm.trans found'
    rw [dif_neg live]

end Results

theorem settleLoop_moves (exe : Executor) (work : Work) :
    Moves strict ⟨exe, work, [], none, named, thrown⟩ (between (exe.settleLoop work) named thrown) := by
  induction exe, work using settleLoop.induct with
  | case1 exe =>
    rw [settleLoop]
    exact .refl
  | case2 exe jid result work missing ih =>
    rw [settleLoop]
    split
    · exact Relation.ReflTransGen.head (.drop rfl (by simp [missing])) ih
    · rename_i found
      cases missing.symm.trans found
  | case3 exe jid result work job found ended ih =>
    rw [settleLoop]
    split
    · rename_i missing
      cases missing.symm.trans found
    · rename_i job' found'
      cases found.symm.trans found'
      rw [dif_pos ended]
      refine Relation.ReflTransGen.head (.drop rfl fun other found => ?_) ih
      rwa [← Option.some.inj (found'.symm.trans found)]
  | case4 exe jid result work job found live ih =>
    rw [settleLoop_live found live]
    exact (settleOne_moves found live result work).trans ih

/-- A job that is neither blocked nor done ends with a result of its own. -/
theorem settle_moves (found : exe.jobs[jid]? = some job)
    (free : job.state.kind ≠ .blocked ∧ job.state.kind ≠ .done) {result : Done}
    (own : result.outcome ≠ .dependencyFailed) :
    Moves strict (between exe named thrown) (between (exe.settle jid result) named thrown) :=
  Relation.ReflTransGen.head (.begin found free rfl own) (settleLoop_moves exe [(jid, result)])

theorem release_eq (exe : Executor) (jid : JobId) :
    exe.release jid = (exe.releaseInto jid []).1.settleLoop (exe.releaseInto jid []).2 := by
  rw [release, releaseInto]
  rcases exe.unblock jid with ⟨_ | result, exe'⟩
  · simp only [settleLoop]
  · rfl

/-- The job in hand is released. -/
theorem release_moves (found : exe.jobs[jid]? = some job) (state_eq : job.state = .blocked 0) :
    Moves strict ⟨exe, [], [], some jid, named, thrown⟩ (between (exe.release jid) named thrown) := by
  rw [release_eq]
  exact (releaseInto_moves found state_eq [] []).trans (settleLoop_moves _ _)

end Settle

/-! ## The calls -/

section Calls

variable {strict : Prop} {exe : Executor} {named : List (JobId × JobId)} {thrown : List JobId}
  {jid input : JobId}

theorem kindAt_of_found (found : exe.jobs[jid]? = some job) :
    exe.kindAt jid = some job.state.kind := by
  simp [kindAt, stateAt, found]

theorem exists_of_kindAt {kind : Kind} (kind_eq : exe.kindAt jid = some kind) :
    ∃ job, exe.jobs[jid]? = some job ∧ job.state.kind = kind := by
  simpa [kindAt, stateAt] using kind_eq

theorem exists_of_stateAt {state : JobState} (state_eq : exe.stateAt jid = some state) :
    ∃ job, exe.jobs[jid]? = some job ∧ job.state = state := by
  simpa [stateAt] using state_eq

theorem hushed_of_fields {job' : Job} (found : exe.jobs[jid]? = some job)
    (jobs_eq : exe'.jobs = exe.jobs.set jid job') (followed_eq : job'.followed = job.followed)
    (cancels_eq : exe'.cancels = exe.cancels) (rewant_eq : exe'.rewant = exe.rewant)
    (stream_eq : exe'.stream = exe.stream) : Hushed exe exe' where
  cancels_eq := cancels_eq
  rewant_eq := rewant_eq
  stream_eq := stream_eq
  followed_eq := by
    rw [jobs_eq]
    exact map_set_of_eq Job.followed found followed_eq

/-- A job that keeps its alternative. -/
theorem touch_turn (found : exe.jobs[jid]? = some job) {next : JobState}
    (same : next.kind = job.state.kind)
    (free : job.state.kind ≠ .blocked ∧ job.state.kind ≠ .done) :
    Turn strict exe { exe with jobs := exe.jobs.set jid { job with state := next } } jid job
      { job with state := next } where
  cfg_eq := rfl
  remaining_eq := rfl
  stopping_eq := rfl
  abandoned_eq := rfl
  found := found
  jobs_eq := rfl
  deps_eq := rfl
  failedInput_eq := rfl
  free := free
  free' := by
    rw [← same] at free
    exact free
  active_eq := .inl ⟨rfl, by rw [same]⟩
  active_lt := fun active => .inl (same ▸ active)
  wantable_eq := by simp [same]
  ready_eq := by simp [same]
  unplaced := by simp [same]
  hushed := fun _ => ⟨hushed_of_fields found rfl rfl rfl rfl rfl, fun active => same ▸ active⟩

/-- A job goes on by `toState`, and its lists with it. -/
theorem turn_toState (strict : Prop) (found : exe.jobs[jid]? = some job)
    (next : JobState) (wantable ready : List JobId) (progressed : UInt64)
    (free : job.state.kind ≠ .blocked ∧ job.state.kind ≠ .done)
    (free' : next.kind ≠ .blocked ∧ next.kind ≠ .done)
    (staysActive : next.kind.isActive = true → job.state.kind.isActive = true)
    (unplaced : next.kind = .wantable ∨ next.kind = .wanted →
      job.state.kind = .wantable ∨ job.state.kind = .wanted)
    (wantable_eq : ∀ other, wantable.count other +
        (if jid = other ∧ job.state.kind = .wantable then 1 else 0) =
      exe.wantable.count other + if jid = other ∧ next.kind = .wantable then 1 else 0)
    (ready_eq : ∀ other, ready.count other +
        (if jid = other ∧ job.state.kind = .assigned then 1 else 0) =
      exe.ready.count other + if jid = other ∧ next.kind = .assigned then 1 else 0) :
    Turn strict exe
      { exe.toState jid next with wantable := wantable, ready := ready, progressed := progressed }
      jid job { job with state := next } := by
  rw [toState_eq found]
  exact
    { cfg_eq := rfl
      remaining_eq := rfl
      stopping_eq := rfl
      abandoned_eq := rfl
      found := found
      jobs_eq := rfl
      deps_eq := rfl
      failedInput_eq := rfl
      free := free
      free' := free'
      active_eq := .inr rfl
      active_lt := fun active => .inl (staysActive active)
      wantable_eq := wantable_eq
      ready_eq := ready_eq
      unplaced := unplaced
      hushed := fun _ => ⟨hushed_of_fields found rfl rfl rfl rfl rfl, staysActive⟩ }

section Turns

variable (found : exe.jobs[jid]? = some job)
include found

/-- A Wanted job is to be Wanted again. -/
theorem requeue_turn (wanted : job.state.kind = .wanted) :
    Turn strict exe { exe.toState jid .wantable with wantable := exe.wantable ++ [jid] } jid job
      { job with state := .wantable } := by
  have turned := turn_toState strict found .wantable (exe.wantable ++ [jid]) exe.ready exe.progressed
    (by simp [wanted]) (by simp) (by simp) (by simp [wanted])
    (by simp [wanted, List.count_append, List.count_singleton]) (by simp [wanted])
  simpa [toState_eq found] using turned

/-- A Wanted job is placed, or a running one goes where it was placed later. -/
theorem place_turn (placed : job.state.kind = .wanted ∨ job.state.kind = .running)
    (placement : Placement) (progressed : UInt64) :
    Turn strict exe
      { { exe with progressed := progressed }.toState jid (.assigned placement) with
        ready := exe.ready ++ [jid] }
      jid job { job with state := .assigned placement } := by
  have active : job.state.kind.isActive = true := by
    rcases placed with wanted | running
    · rw [wanted]; rfl
    · rw [running]; rfl
  have turned := turn_toState strict found (.assigned placement) exe.wantable (exe.ready ++ [jid])
    progressed (by rcases placed with wanted | running <;> simp_all) (by simp) (fun _ => active)
    (by simp) (by rcases placed with wanted | running <;> simp_all)
    (by rcases placed with wanted | running <;> simp_all [List.count_append, List.count_singleton])
  have found' : { exe with progressed := progressed }.jobs[jid]? = some job := found
  simpa [toState_eq found, toState_eq found'] using turned

/-- An assigned job starts. -/
theorem start_turn {rest : List JobId}
    (assigned : job.state.kind = .assigned) (placement : Placement) :
    Turn strict { exe with ready := jid :: rest }
      ({ exe with ready := rest }.toState jid (.running placement none)) jid job
      { job with state := .running placement none } := by
  have found' : { exe with ready := jid :: rest }.jobs[jid]? = some job := found
  have turned := turn_toState strict found' (.running placement none) exe.wantable rest exe.progressed
    (by simp [assigned]) (by simp) (by simp [assigned]) (by simp) (by simp [assigned])
    (by simp [assigned, List.count_cons])
  have found'' : { exe with ready := rest }.jobs[jid]? = some job := found
  simpa [toState_eq found', toState_eq found''] using turned

/-- A wantable job is Wanted, if there is room for it. -/
theorem want_turn {rest : List JobId} (wantable : job.state.kind = .wantable)
    (room : exe.active < exe.cfg.threads) (first : exe.wantable = jid :: rest) :
    Turn False exe { exe.want jid with wantable := rest } jid job
      { job with state := .wanted none "", followed := true } := by
  have bound : jid < exe.jobs.length := lt_length found
  have jobs_eq : (exe.want jid).jobs =
      exe.jobs.set jid { job with state := .wanted none "", followed := true } := by
    simp [want, setFollowed, toState_eq found, List.modify_eq_set_getElem?, bound]
  exact
    { cfg_eq := by simp [want, setFollowed, toState_eq found]
      remaining_eq := by simp [want, setFollowed, toState_eq found]
      stopping_eq := by simp [want, setFollowed, toState_eq found]
      abandoned_eq := by simp [want, setFollowed, toState_eq found]
      found := found
      jobs_eq := jobs_eq
      deps_eq := rfl
      failedInput_eq := rfl
      free := by simp [wantable]
      free' := by simp
      active_eq := .inr (by simp [want, setFollowed, toState_eq found])
      active_lt := fun _ => .inr room
      wantable_eq := by
        intro other
        simp [first, wantable, List.count_cons]
      ready_eq := by simp [want, setFollowed, toState_eq found, wantable]
      unplaced := by simp [wantable]
      hushed := False.elim }

end Turns

theorem onAssigned_moves (jid : JobId) (placement : Placement) :
    Moves strict (between exe named thrown) (between (exe.onAssigned jid placement) named thrown) := by
  unfold onAssigned
  cases found : exe.jobs[jid]? with
  | none => exact .refl
  | some job =>
    by_cases nowhere : placement.addr = ""
    · simp only [nowhere, if_true]
      exact .refl
    · simp only [nowhere, if_false]
      cases state_eq : job.state with
      | running place redirect =>
        simp only
        split
        · exact .single (.turn (touch_turn found (by simp [state_eq]) (by simp [state_eq])))
        · exact .refl
      | assigned place =>
        exact .single (.turn (touch_turn found (by simp [state_eq]) (by simp [state_eq])))
      | wanted since reason =>
        exact .single (.turn (place_turn found (.inl (by simp [state_eq])) placement _))
      | _ => exact .refl

theorem onCached_moves (jid : JobId) :
    Moves strict (between exe named thrown) (between (exe.onCached jid) named thrown) := by
  unfold onCached
  split
  · rename_i wanted
    obtain ⟨job, found, kind_eq⟩ := exists_of_kindAt wanted
    exact settle_moves found (by simp [kind_eq]) (by simp)
  · exact .refl

theorem onUnplaceable_moves (jid : JobId) (reason : String) (now : Time) :
    Moves strict (between exe named thrown)
      (between (exe.onUnplaceable jid reason now).2 named thrown) := by
  unfold onUnplaceable
  cases found : exe.jobs[jid]? with
  | none => exact .refl
  | some job =>
    cases state_eq : job.state with
    | wanted since old =>
      simp only [state_eq]
      exact .single (.turn (touch_turn found (by simp [state_eq]) (by simp [state_eq])))
    | _ =>
      simp only [state_eq]
      exact .refl

theorem onPlaceable_moves (jid : JobId) :
    Moves strict (between exe named thrown) (between (exe.onPlaceable jid) named thrown) := by
  unfold onPlaceable
  cases found : exe.jobs[jid]? with
  | none => exact .refl
  | some job =>
    cases state_eq : job.state with
    | wanted since old =>
      simp only [state_eq]
      exact .single (.turn (touch_turn found (by simp [state_eq]) (by simp [state_eq])))
    | _ =>
      simp only [state_eq]
      exact .refl

/-- A loop over jobs is a sequence of moves if each round is. -/
theorem foldl_moves {α : Type} (view : α → Executor) {round : α → JobId → α}
    (moves : ∀ a jid, Moves strict (between (view a) named thrown) (between (view (round a jid)) named thrown))
    (ids : List JobId) (a : α) :
    Moves strict (between (view a) named thrown) (between (view (ids.foldl round a)) named thrown) := by
  induction ids generalizing a with
  | nil => exact .refl
  | cons jid ids ih => exact (moves a jid).trans (ih (round a jid))

theorem reap_moves (now grace : Time) :
    Moves strict (between exe named thrown) (between (exe.reap now grace).2 named thrown) := by
  refine foldl_moves Prod.snd (fun stage jid => ?_) _ (now + grace, exe)
  obtain ⟨wake, exe⟩ := stage
  simp only [reapOne]
  split
  · rename_i since reason state_eq
    obtain ⟨job, found, state_eq⟩ := exists_of_stateAt state_eq
    split
    · exact .refl
    · exact settle_moves found (by simp [state_eq]) (by simp)
  · exact .refl

theorem abandonOne_moves (exe : Executor) (jid : JobId) :
    Moves strict (between exe named thrown) (between (exe.abandonOne jid) named thrown) := by
  unfold abandonOne
  split
  · rename_i wantable
    obtain ⟨job, found, kind_eq⟩ := exists_of_kindAt wantable
    exact settle_moves found (by simp [kind_eq]) (by simp [lostDone])
  · rename_i wanted
    obtain ⟨job, found, kind_eq⟩ := exists_of_kindAt wanted
    exact settle_moves found (by simp [kind_eq]) (by simp [lostDone])
  · exact .refl

theorem abandon_moves :
    Moves strict (between { exe with abandoned := true } named thrown) (between exe.abandon named thrown) :=
  foldl_moves id abandonOne_moves _ { exe with abandoned := true }

theorem finished_moves (jid : JobId) (succeeded : Bool) :
    Moves strict (between exe named thrown) (between (exe.finished jid succeeded) named thrown) := by
  unfold finished
  split
  · rename_i running
    obtain ⟨job, found, kind_eq⟩ := exists_of_kindAt running
    exact settle_moves found (by simp [kind_eq]) (by simp)
  · exact .refl

/-- An id at the front of the ready list that is out of date is dropped. -/
theorem stale_idle (stale : exe.kindAt jid ≠ some .assigned) (ready : List JobId) :
    Idle strict { exe with ready := jid :: ready } { exe with ready := ready } where
  cfg_eq := rfl
  remaining_eq := rfl
  stopping_eq := rfl
  abandoned_eq := rfl
  jobs_eq := rfl
  active_eq := rfl
  wantable_le := fun _ => le_rfl
  wantable_eq := fun _ _ => rfl
  ready_le := fun other => List.count_le_count_cons
  ready_eq := by
    intro other assigned
    have differs : jid ≠ other := by
      rintro rfl
      exact stale assigned
    simp [differs]
  hushed := fun _ => ⟨rfl, rfl, rfl, rfl⟩

theorem nextReady_moves (exe : Executor) (ready : List JobId) :
    Moves strict (between { exe with ready := ready } named thrown)
      (between (exe.nextReady ready).2 named thrown) := by
  induction ready with
  | nil => exact .refl
  | cons jid ready ih =>
    simp only [nextReady]
    split
    · rename_i place state_eq
      obtain ⟨job, found, state_eq⟩ := exists_of_stateAt state_eq
      exact .single (.turn (start_turn found (by simp [state_eq]) place))
    · rename_i other
      have stale : exe.kindAt jid ≠ some .assigned := by
        intro assigned
        obtain ⟨job, found, kind_eq⟩ := exists_of_kindAt assigned
        cases state_eq : job.state with
        | assigned place => exact other place (by simp [stateAt, found, state_eq])
        | _ => simp [state_eq] at kind_eq
      exact Relation.ReflTransGen.head (.idle (stale_idle stale ready)) ih

theorem next_moves : Moves strict (between exe named thrown) (between exe.next.2 named thrown) :=
  nextReady_moves exe exe.ready

/-- Writing what no move looks at. -/
theorem quiet_idle {job' : Job} (found : exe.jobs[jid]? = some job)
    (same : job'.quiet = job.quiet) (followed_eq : strict → job'.followed = job.followed) :
    Idle strict exe { exe with jobs := exe.jobs.set jid job' } where
  cfg_eq := rfl
  remaining_eq := rfl
  stopping_eq := rfl
  abandoned_eq := rfl
  jobs_eq := map_set_of_eq Job.quiet found same
  active_eq := rfl
  wantable_le := fun _ => le_rfl
  wantable_eq := fun _ _ => rfl
  ready_le := fun _ => le_rfl
  ready_eq := fun _ _ => rfl
  hushed := fun strictly => hushed_of_fields found rfl (followed_eq strictly) rfl rfl rfl

theorem toState_found (found : exe.jobs[jid]? = some job) (next : JobState) :
    (exe.toState jid next).jobs[jid]? = some { job with state := next } := by
  rw [toState_eq found]
  exact getElem?_set_self (lt_length found)

/-- A running job that is to be placed again. -/
theorem block_moves (found : exe.jobs[jid]? = some job) (running : job.state.kind = .running) :
    Moves strict (between exe named thrown)
      (between ((exe.toState jid (.blocked 0)).release jid) named thrown) :=
  Relation.ReflTransGen.head (.block rfl rfl rfl found running) (release_moves (toState_found found _) rfl)

theorem bounced_moves (jid : JobId) :
    Moves strict (between exe named thrown) (between (exe.bounced jid) named thrown) := by
  unfold bounced
  cases found : exe.jobs[jid]? with
  | none => exact .refl
  | some job =>
    cases state_eq : job.state with
    | running place redirect =>
      cases redirect with
      | some placement =>
        simp only [state_eq]
        exact .single (.turn (place_turn found (.inr (by simp [state_eq])) placement exe.progressed))
      | none =>
        simp only [state_eq]
        rw [← state_eq]
        have counting : Idle strict exe
            { exe with jobs := exe.jobs.set jid { job with bounced := job.bounced + 1 } } :=
          quiet_idle found rfl fun _ => rfl
        have counted : { exe with
            jobs := exe.jobs.set jid { job with bounced := job.bounced + 1 } }.jobs[jid]? =
              some { job with bounced := job.bounced + 1 } :=
          getElem?_set_self (lt_length found)
        have running : job.state.kind = .running := by simp [state_eq]
        generalize { exe with
          jobs := exe.jobs.set jid { job with bounced := job.bounced + 1 } } = exe' at counting counted ⊢
        refine Relation.ReflTransGen.head (.idle counting) ?_
        split
        · exact settle_moves counted (by simp [running]) (by simp)
        · exact block_moves counted running
    | _ =>
      simp only [state_eq]
      exact .refl

/-! ## Naming inputs -/

/-- The inputs a call names, each with its job. -/
def Call.names (exe : Executor) : Call → List (JobId × JobId)
  | .add _ inputs => inputs.map fun input => (exe.jobs.length, input)
  | .blockOn jid input =>
    if exe.kindAt jid = some .running ∧ input < exe.jobs.length then [(jid, input)] else []
  | _ => []

section Waits

variable (found : exe.jobs[jid]? = some job)
include found

/-- A job after it was made to wait for an input, in both orders of writing. -/
theorem awaited_found (input : JobId) :
    ∃ deps, (exe.jobs.modify input (Job.awaitedBy jid))[jid]? = some { job with dependants := deps } ∧
      (((exe.toState jid (.blocked 0)).jobs.modify input (Job.awaitedBy jid)).modify jid
        (Job.blockedBy 1))[jid]? = some { job with state := .blocked 1, dependants := deps } := by
  have blocked := toState_found found (.blocked 0)
  by_cases self : input = jid
  · refine ⟨job.dependants ++ [jid], ?_, ?_⟩
    · simp [found, self, Job.awaitedBy]
    · simp [blocked, self, Job.awaitedBy, Job.blockedBy]
  · refine ⟨job.dependants, ?_, ?_⟩
    · simp [found, self]
    · simp [blocked, self, Job.blockedBy]

/-- Writing the input before or after the job that waits for it makes no difference. -/
theorem await_eq (input : JobId) :
    ({ exe with jobs := exe.jobs.modify input (Job.awaitedBy jid) }.unfollow jid).toState jid (.blocked 1) =
      { exe.toState jid (.blocked 0) with
        jobs := ((exe.toState jid (.blocked 0)).jobs.modify input (Job.awaitedBy jid)).modify jid
          (Job.blockedBy 1) }.unfollow jid := by
  have bound : jid < exe.jobs.length := lt_length found
  obtain ⟨deps, written, blocked⟩ := awaited_found found input
  have written' : { exe with jobs := exe.jobs.modify input (Job.awaitedBy jid) }.jobs[jid]? =
      some { job with dependants := deps } := written
  have cleared : ({ exe with jobs := exe.jobs.modify input (Job.awaitedBy jid) }.unfollow jid).jobs[jid]? =
      some { job with dependants := deps, followed := false } := by
    rw [unfollow_eq written']
    exact getElem?_set_self (by simpa using bound)
  have blocked' : { exe.toState jid (.blocked 0) with
      jobs := ((exe.toState jid (.blocked 0)).jobs.modify input (Job.awaitedBy jid)).modify jid
        (Job.blockedBy 1) }.jobs[jid]? = some { job with state := .blocked 1, dependants := deps } := blocked
  rw [toState_eq cleared, unfollow_eq written', unfollow_eq blocked', toState_eq found]
  simp only [Executor.mk.injEq, true_and, and_true, List.set_set]
  refine ⟨?_, by simp⟩
  apply List.ext_getElem?
  intro other
  by_cases same : other = jid
  · subst same
    rw [getElem?_set_self (by simpa using bound), getElem?_set_self (by simpa using bound)]
  · simp [List.getElem?_set_ne (Ne.symm same), List.getElem?_modify, Ne.symm same]

/-- A running job waits for an input that is not done. -/
theorem await_moves (running : job.state.kind = .running) (needs : exe.jobs[input]? = some needed)
    (live : needed.state.kind ≠ .done) :
    Moves strict (between exe named thrown)
      (between (({ exe with jobs := exe.jobs.modify input (Job.awaitedBy jid) }.unfollow jid).toState jid
        (.blocked 1)) (named ++ [(jid, input)]) thrown) := by
  have bound : jid < exe.jobs.length := lt_length found
  have blocked := toState_found found (.blocked 0)
  obtain ⟨needed', needs', live'⟩ : ∃ needed' : Job,
      (exe.toState jid (.blocked 0)).jobs[input]? = some needed' ∧ needed'.state.kind ≠ .done := by
    by_cases self : input = jid
    · subst self
      exact ⟨_, blocked, by simp⟩
    · refine ⟨needed, ?_, live⟩
      rw [toState_eq found]
      simpa [List.getElem?_set_ne (Ne.symm self)] using needs
  obtain ⟨deps, -, linked⟩ := awaited_found found input
  have linked' : { exe.toState jid (.blocked 0) with
      jobs := ((exe.toState jid (.blocked 0)).jobs.modify input (Job.awaitedBy jid)).modify jid
        (Job.blockedBy 1) }.jobs[jid]? = some { job with state := .blocked 1, dependants := deps } := linked
  have cleared : ({ exe.toState jid (.blocked 0) with
      jobs := ((exe.toState jid (.blocked 0)).jobs.modify input (Job.awaitedBy jid)).modify jid
        (Job.blockedBy 1) }.unfollow jid).jobs[jid]? =
      some { job with state := .blocked 1, dependants := deps, followed := false } := by
    rw [unfollow_eq linked']
    exact getElem?_set_self (by simpa [toState_eq found] using bound)
  refine Relation.ReflTransGen.head (.block rfl rfl rfl found running) ?_
  refine Relation.ReflTransGen.head (.link rfl rfl blocked rfl needs' live') ?_
  refine Relation.ReflTransGen.head (.unfollow rfl linked' rfl) ?_
  rw [await_eq found input]
  exact .single (.leave rfl cleared rfl rfl)

/-- A running job turns out to need an input that is done. -/
theorem meet_moves {result : Done} (running : job.state.kind = .running)
    (needs : exe.jobs[input]? = some needed) (ended : needed.state = .done result) :
    Moves strict (between exe named thrown)
      (between (((if result.succeeded then exe
          else { exe with jobs := exe.jobs.set jid { job with failedInput := some input } }).toState jid
            (.blocked 0)).release jid) (named ++ [(jid, input)]) thrown) := by
  have bound : jid < exe.jobs.length := lt_length found
  have differs : jid ≠ input := by
    rintro rfl
    rw [Option.some.inj (found.symm.trans needs), ended] at running
    simp at running
  have needs' : (exe.toState jid (.blocked 0)).jobs[input]? = some needed := by
    rw [toState_eq found]
    simpa [List.getElem?_set_ne differs] using needs
  have met : (if result.succeeded then exe
      else { exe with jobs := exe.jobs.set jid { job with failedInput := some input } }).toState jid
        (.blocked 0) =
      { exe.toState jid (.blocked 0) with
        jobs := (exe.toState jid (.blocked 0)).jobs.set jid { job with
          state := .blocked 0
          failedInput := if result.succeeded then job.failedInput else some input } } := by
    cases succeeded : result.succeeded with
    | true => simp [toState_eq found]
    | false =>
      have failed : { exe with
          jobs := exe.jobs.set jid { job with failedInput := some input } }.jobs[jid]? =
            some { job with failedInput := some input } := getElem?_set_self bound
      simp [toState_eq found, toState_eq failed]
  have met_found : ((exe.toState jid (.blocked 0)).jobs.set jid { job with
      state := .blocked 0
      failedInput := if result.succeeded then job.failedInput else some input })[jid]? =
      some { job with
        state := .blocked 0
        failedInput := if result.succeeded then job.failedInput else some input } :=
    getElem?_set_self (by simpa [toState_eq found] using bound)
  refine Relation.ReflTransGen.head (.block rfl rfl rfl found running) ?_
  refine Relation.ReflTransGen.head (.meet rfl (toState_found found _) rfl needs' ended) ?_
  rw [met]
  exact release_moves met_found rfl

end Waits

theorem blockOn_moves (jid input : JobId) :
    Moves strict (between exe named thrown)
      (between (exe.blockOn jid input) (named ++ (Call.blockOn jid input).names exe) thrown) := by
  cases found : exe.jobs[jid]? with
  | none =>
    simp only [blockOn, found, Call.names, kindAt, stateAt]
    simpa using .refl
  | some job =>
    cases needs : exe.jobs[input]? with
    | none =>
      have missing : ¬ input < exe.jobs.length := by simpa using needs
      simp only [blockOn, found, needs, Call.names, missing, and_false, if_false, List.append_nil]
      exact .refl
    | some needed =>
      have present : input < exe.jobs.length := lt_length needs
      cases state_eq : job.state with
      | running place redirect =>
        have running : job.state.kind = .running := by simp [state_eq]
        have names_eq : (Call.blockOn jid input).names exe = [(jid, input)] := by
          simp [Call.names, kindAt_of_found found, running, present]
        rw [names_eq]
        cases needed_eq : needed.state with
        | done result =>
          simp only [blockOn, found, needs, state_eq, needed_eq]
          rw [← state_eq]
          exact meet_moves found running needs needed_eq
        | _ =>
          simp only [blockOn, found, needs, state_eq, needed_eq]
          exact await_moves found running needs (by simp [needed_eq])
      | _ =>
        have names_eq : (Call.blockOn jid input).names exe = [] := by
          simp [Call.names, kindAt_of_found found, state_eq]
        simp only [blockOn, found, needs, state_eq, names_eq, List.append_nil]
        exact .refl

/-! ## Adding a job -/

/-- The executor inside `add`, with the inputs counted so far written to the new job at once. -/
def counting (exe : Executor) (jid : JobId) (waiting : ℕ) : Executor :=
  { exe with jobs := exe.jobs.modify jid (Job.blockedBy waiting) }

theorem counting_eq (found : exe.jobs[jid]? = some job) (waiting : ℕ) :
    counting exe jid waiting = { exe with jobs := exe.jobs.set jid (job.blockedBy waiting) } := by
  rw [counting, modify_eq_set _ found]

theorem counting_found (found : exe.jobs[jid]? = some job) (waiting : ℕ) :
    (counting exe jid waiting).jobs[jid]? = some (job.blockedBy waiting) := by
  rw [counting_eq found]
  exact getElem?_set_self (lt_length found)

/-- An input that is not done is counted. -/
theorem link_move (found : exe.jobs[jid]? = some job)
    (needs : exe.jobs[input]? = some needed) (live : needed.state.kind ≠ .done) (waiting : ℕ) :
    Move strict ⟨counting exe jid waiting, [], [], some jid, named, thrown⟩
      ⟨counting { exe with jobs := exe.jobs.modify input (Job.awaitedBy jid) } jid (waiting + 1), [], [],
        some jid, named ++ [(jid, input)], thrown⟩ := by
  obtain ⟨needed', needs', live'⟩ : ∃ needed' : Job,
      (counting exe jid waiting).jobs[input]? = some needed' ∧ needed'.state.kind ≠ .done := by
    by_cases self : input = jid
    · subst self
      exact ⟨_, counting_found found waiting, by simp [Job.blockedBy]⟩
    · refine ⟨needed, ?_, live⟩
      simpa [counting, Ne.symm self] using needs
  have moved := @Move.link strict ⟨counting exe jid waiting, [], [], some jid, named, thrown⟩ jid input _ _
    waiting rfl rfl (counting_found found waiting) rfl needs' live'
  have same : ((counting exe jid waiting).jobs.modify input (Job.awaitedBy jid)).modify jid
      (Job.blockedBy (waiting + 1)) =
      (exe.jobs.modify input (Job.awaitedBy jid)).modify jid (Job.blockedBy (waiting + 1)) := by
    apply List.ext_getElem?
    intro other
    by_cases this : jid = other
    · subst this
      by_cases self : input = jid
      · simp [counting, self, found, Job.blockedBy, Job.awaitedBy]
      · simp [counting, self, found, Job.blockedBy]
    · simp [counting, List.getElem?_modify, this]
  rw [same] at moved
  exact moved

/-- An input that is done is looked at. -/
theorem meet_move {result : Done}
    (found : exe.jobs[jid]? = some job) (blocked : job.state.kind = .blocked)
    (needs : exe.jobs[input]? = some needed) (ended : needed.state = .done result) (waiting : ℕ) :
    Move strict ⟨counting exe jid waiting, [], [], some jid, named, thrown⟩
      ⟨counting (if result.succeeded then exe
          else { exe with
            jobs := exe.jobs.modify jid fun added => { added with failedInput := some input } })
          jid waiting, [], [], some jid, named ++ [(jid, input)], thrown⟩ := by
  have differs : jid ≠ input := by
    rintro rfl
    rw [Option.some.inj (found.symm.trans needs), ended] at blocked
    simp at blocked
  have needs' : (counting exe jid waiting).jobs[input]? = some needed := by
    simpa [counting, differs] using needs
  have moved := @Move.meet strict ⟨counting exe jid waiting, [], [], some jid, named, thrown⟩ jid input _ _
    result waiting rfl (counting_found found waiting) rfl needs' ended
  have same : { counting exe jid waiting with
      jobs := (counting exe jid waiting).jobs.set jid { job.blockedBy waiting with
        failedInput := if result.succeeded then (job.blockedBy waiting).failedInput else some input } } =
      counting (if result.succeeded then exe
        else { exe with
          jobs := exe.jobs.modify jid fun added => { added with failedInput := some input } })
        jid waiting := by
    cases succeeded : result.succeeded with
    | true => simp [counting_eq found]
    | false =>
      have failed : { exe with
          jobs := exe.jobs.modify jid fun added => { added with failedInput := some input } }.jobs[jid]? =
            some { job with failedInput := some input } := by
        simp [found]
      simp only [Bool.false_eq_true, if_false]
      rw [counting_eq found, counting_eq failed]
      simp [modify_eq_set _ found, Job.blockedBy]
  rw [← same]
  exact moved

/-- An input that names no job makes `add` throw. -/
theorem throw_move (found : exe.jobs[jid]? = some job)
    (state_eq : job.state = .blocked 0) (unfollowed : job.followed = false) {waiting : ℕ}
    (bounded : waiting ≤ maxSize) (more : List JobId) :
    Move strict ⟨counting exe jid waiting, [], [], some jid, named, thrown⟩
      (between exe (named ++ more.map fun input => (jid, input)) (jid :: thrown)) := by
  have moved := @Move.throw strict ⟨counting exe jid waiting, [], [], some jid, named, thrown⟩ jid _ waiting
    more rfl (counting_found found waiting) rfl unfollowed bounded
  have same : { counting exe jid waiting with
      jobs := (counting exe jid waiting).jobs.set jid { job.blockedBy waiting with state := .blocked 0 } } =
      exe := by
    have restored : { job.blockedBy waiting with state := .blocked 0 } = job := by
      rw [← state_eq]
      rfl
    rw [restored, counting_eq found]
    simp [set_found found]
  rw [same] at moved
  exact moved

/-- What `link` does: it counts the inputs one by one, or throws on one that names no job. -/
def Links (strict : Prop) (jid : JobId) (inputs : List JobId) (waiting : ℕ) (exe : Executor)
    (named : List (JobId × JobId)) (thrown : List JobId) : Prop :=
  (∃ waiting' job', (link jid inputs waiting exe).1 = some waiting' ∧
    (link jid inputs waiting exe).2.jobs[jid]? = some job' ∧ job'.followed = false ∧
    Moves strict ⟨counting exe jid waiting, [], [], some jid, named, thrown⟩
      ⟨counting (link jid inputs waiting exe).2 jid waiting', [], [], some jid,
        named ++ inputs.map (fun input => (jid, input)), thrown⟩) ∨
  (link jid inputs waiting exe).1 = none ∧ (∃ input ∈ inputs, exe.jobs.length ≤ input) ∧
    Moves strict ⟨counting exe jid waiting, [], [], some jid, named, thrown⟩
      (between (link jid inputs waiting exe).2 (named ++ inputs.map fun input => (jid, input))
        (jid :: thrown))

/-- One input is one move, and the rest follow from the state it leaves. -/
theorem Links.cons {inputs : List JobId} {waiting waiting' : ℕ}
    (link_eq : link jid (input :: inputs) waiting exe = link jid inputs waiting' exe')
    (length_eq : exe'.jobs.length = exe.jobs.length)
    (moved : Move strict ⟨counting exe jid waiting, [], [], some jid, named, thrown⟩
      ⟨counting exe' jid waiting', [], [], some jid, named ++ [(jid, input)], thrown⟩)
    (links : Links strict jid inputs waiting' exe' (named ++ [(jid, input)]) thrown) :
    Links strict jid (input :: inputs) waiting exe named thrown := by
  have named_eq : named ++ (input :: inputs).map (fun input => (jid, input)) =
      named ++ [(jid, input)] ++ inputs.map fun input => (jid, input) := by
    simp
  rw [Links, link_eq, named_eq]
  obtain ⟨total, last, counted, last_found, last_unfollowed, moves⟩ | ⟨threw, missing, moves⟩ := links
  · exact .inl ⟨total, last, counted, last_found, last_unfollowed, Relation.ReflTransGen.head moved moves⟩
  · obtain ⟨bad, inside, outside⟩ := missing
    exact .inr ⟨threw, ⟨bad, by simp [inside], length_eq ▸ outside⟩, Relation.ReflTransGen.head moved moves⟩

theorem link_moves (inputs : List JobId) {waiting : ℕ} {exe : Executor}
    {named : List (JobId × JobId)} (found : exe.jobs[jid]? = some job)
    (state_eq : job.state = .blocked 0) (unfollowed : job.followed = false)
    (bounded : waiting + inputs.length ≤ maxSize) :
    Links strict jid inputs waiting exe named thrown := by
  induction inputs generalizing waiting exe named job with
  | nil => exact .inl ⟨waiting, job, rfl, found, unfollowed, by simpa [link] using .refl⟩
  | cons input inputs ih =>
    rw [List.length_cons] at bounded
    cases needs : exe.jobs[input]? with
    | none =>
      have missing : exe.jobs.length ≤ input := by simpa using needs
      refine .inr ⟨by simp [link, needs], ⟨input, by simp, missing⟩, ?_⟩
      simp only [link, needs]
      exact .single (throw_move found state_eq unfollowed (by omega) (input :: inputs))
    | some needed =>
      by_cases ends : ∃ result, needed.state = .done result
      · obtain ⟨result, ended⟩ := ends
        have moved := @meet_move job needed strict exe named thrown jid input result found
          (by simp [state_eq]) needs ended waiting
        cases succeeded : result.succeeded with
        | true =>
          rw [succeeded] at moved
          exact Links.cons (by simp [link, needs, ended, succeeded]) rfl moved
            (ih found state_eq unfollowed (by omega))
        | false =>
          rw [succeeded] at moved
          have failed : { exe with jobs := exe.jobs.modify jid fun added =>
              { added with failedInput := some input } }.jobs[jid]? =
                some { job with failedInput := some input } := by
            simp [found]
          exact Links.cons (by simp [link, needs, ended, succeeded]) (by simp) moved
            (ih failed state_eq unfollowed (by omega))
      · have live : needed.state.kind ≠ .done := by
          intro kind_eq
          cases needed_eq : needed.state with
          | done result => exact ends ⟨result, needed_eq⟩
          | _ => simp [needed_eq] at kind_eq
        have link_eq : link jid (input :: inputs) waiting exe =
            link jid inputs (waiting + 1) { exe with jobs := exe.jobs.modify input (Job.awaitedBy jid) } := by
          cases needed_eq : needed.state with
          | done result => exact absurd ⟨result, needed_eq⟩ ends
          | _ => simp [link, needs, needed_eq]
        obtain ⟨deps, written, -⟩ := awaited_found found input
        have written' : { exe with jobs := exe.jobs.modify input (Job.awaitedBy jid) }.jobs[jid]? =
            some { job with dependants := deps } := written
        exact Links.cons link_eq (by simp) (link_move found needs live waiting)
          (ih written' state_eq unfollowed (by omega))

/-- A job is added; if its inputs name jobs, nothing is thrown. -/
theorem add_moves (prio : ℚ) (inputs : List JobId) (bounded : inputs.length ≤ maxSize) :
    ∃ thrown', Moves strict (between exe named thrown)
        (between (exe.add prio inputs).2 (named ++ (Call.add prio inputs).names exe) thrown') ∧
      ((∀ input ∈ inputs, input < exe.jobs.length) → thrown' = thrown) := by
  have fresh : (exe.push prio).jobs[exe.jobs.length]? = some { state := .blocked 0, prio := prio } := by
    simp [push]
  have created : Move strict (between exe named thrown)
      ⟨counting (exe.push prio) exe.jobs.length 0, [], [], some exe.jobs.length, named, thrown⟩ := by
    have same : counting (exe.push prio) exe.jobs.length 0 = exe.push prio := by
      rw [counting_eq fresh, show Job.blockedBy 0 { state := .blocked 0, prio := prio } =
        { state := .blocked 0, prio := prio } from rfl, set_found fresh]
    rw [same]
    exact .create prio rfl rfl rfl
  obtain ⟨total, last, counted, last_found, last_unfollowed, moves⟩ | ⟨threw, missing, moves⟩ :=
    @link_moves _ strict thrown exe.jobs.length inputs 0 _ named fresh rfl rfl (by simpa using bounded)
  · refine ⟨thrown, Relation.ReflTransGen.head created (moves.trans ?_), fun _ => rfl⟩
    have last_counted := counting_found last_found total
    rcases linked : link exe.jobs.length inputs 0 (exe.push prio) with ⟨_ | waiting, exe'⟩
    · simp [linked] at counted
    · rw [linked] at counted last_counted
      obtain rfl : waiting = total := by simpa using counted
      simp only [add, linked, Call.names]
      split
      · rename_i zero
        exact release_moves last_counted (by simp [Job.blockedBy, zero])
      · rename_i positive
        obtain ⟨waiting, rfl⟩ := Nat.exists_eq_succ_of_ne_zero positive
        exact .single (.leave rfl last_counted rfl last_unfollowed)
  · refine ⟨exe.jobs.length :: thrown, ?_, ?_⟩
    · rcases linked : link exe.jobs.length inputs 0 (exe.push prio) with ⟨_ | waiting, exe'⟩
      · rw [linked] at moves
        simp only [add, linked, Call.names]
        exact Relation.ReflTransGen.head created moves
      · simp [linked] at threw
    · intro present
      obtain ⟨bad, inside, outside⟩ := missing
      simp only [push, List.length_append, List.length_singleton] at outside
      exact absurd (present bad inside) (Nat.not_lt.mpr (Nat.le_of_succ_le outside))

/-! ## The stream -/

/-- What is written outside the table of jobs and the two lists. -/
theorem aside_idle (kept : Kept exe exe')
    (jobs_eq : exe'.jobs.map Job.quiet = exe.jobs.map Job.quiet) (active_eq : exe'.active = exe.active)
    (wantable_eq : exe'.wantable = exe.wantable) (ready_eq : exe'.ready = exe.ready) :
    Idle False exe exe' :=
  ⟨kept, jobs_eq, active_eq, fun _ => by rw [wantable_eq], fun _ _ => by rw [wantable_eq],
    fun _ => by rw [ready_eq], fun _ _ => by rw [ready_eq], False.elim⟩

theorem setFollowed_idle (followed : Bool) (jid : JobId) : Idle False exe (exe.setFollowed followed jid) := by
  cases found : exe.jobs[jid]? with
  | none =>
    have same : exe.setFollowed followed jid = exe := by
      rw [setFollowed, List.modify_eq_set_getElem?, found]
      rfl
    rw [same]
    exact aside_idle ⟨rfl, rfl, rfl, rfl⟩ rfl rfl rfl rfl
  | some job =>
    rw [setFollowed, modify_eq_set _ found]
    exact quiet_idle found rfl False.elim

theorem unfollow_idle (jid : JobId) : Idle False exe (exe.unfollow jid) := by
  cases found : exe.jobs[jid]? with
  | none =>
    have same : exe.unfollow jid = exe := by simp [unfollow, found]
    rw [same]
    exact aside_idle ⟨rfl, rfl, rfl, rfl⟩ rfl rfl rfl rfl
  | some job =>
    rw [unfollow_eq found]
    exact aside_idle ⟨rfl, rfl, rfl, rfl⟩ (map_set_of_eq Job.quiet found rfl) rfl rfl rfl

theorem connected_moves : Moves False (between exe named thrown) (between exe.connected named thrown) := by
  have opened : Idle False exe { exe with stream := true } := aside_idle ⟨rfl, rfl, rfl, rfl⟩ rfl rfl rfl rfl
  refine Relation.ReflTransGen.head (.idle opened) ?_
  refine foldl_moves id (fun exe jid => ?_) _ { exe with stream := true }
  simp only [id, reconnect]
  split
  · rename_i wanted
    obtain ⟨job, found, kind_eq⟩ := exists_of_kindAt wanted
    exact .single (.turn (requeue_turn found kind_eq))
  · exact .single (.idle (aside_idle ⟨rfl, rfl, rfl, rfl⟩ rfl rfl rfl rfl))
  · exact .single (.idle (aside_idle ⟨rfl, rfl, rfl, rfl⟩ rfl rfl rfl rfl))
  · exact .refl

theorem disconnected_moves :
    Moves False (between exe named thrown) (between exe.disconnected named thrown) := by
  have closed : Idle False exe exe.disconnected :=
    aside_idle ⟨rfl, rfl, rfl, rfl⟩ (by simp [disconnected, Job.quiet, Function.comp_def]) rfl rfl rfl
  exact .single (.idle closed)

theorem takeCancels_moves : Moves False (between exe named thrown) (between exe.takeCancels.2 named thrown) :=
  .single (.idle (aside_idle ⟨rfl, rfl, rfl, rfl⟩ rfl rfl rfl rfl))

theorem unsent_moves (ids : List JobId) :
    Moves False (between exe named thrown) (between (exe.unsent ids) named thrown) := by
  induction ids generalizing exe with
  | nil => exact .refl
  | cons jid ids ih =>
    simp only [unsent]
    cases found : exe.jobs[jid]? with
    | none => exact .refl
    | some job =>
      simp only
      have cleared : (exe.setFollowed false jid).jobs[jid]? = some { job with followed := false } := by
        simp [setFollowed, found]
      refine Relation.ReflTransGen.head (.idle (setFollowed_idle false jid)) ?_
      split
      · rename_i wanted
        exact Relation.ReflTransGen.head (.turn (requeue_turn cleared wanted)) ih
      · exact ih

end Calls

end NixGrpcStore.Exec
