import NixGrpcStore.Lib.Tally

/-!
# The client's build run

`exec::Executor` of `src/client/executor.hh`, function by function.  The vector of jobs is a list
and ids are its positions.  `jobs.at` throws on an id that names no job: every call but `add` and
`unsent` does so before it writes anything, so the model leaves the state as it is.  What
`partial_sort` makes of the wantable list is not determined by its input; it is an argument of
`takeWants`, and `Executor.Arranges` says which results it may have.
-/

namespace NixGrpcStore.Exec

open Tally

/-- Position of a job. -/
abbrev JobId := ℕ

/-- Points and spans of the steady clock. -/
abbrev Time := ℤ

/-- A decrement of a `size_t`. -/
def decr : ℕ → ℕ
  | 0 => 2 ^ 64 - 1
  | count + 1 => count

/-- Where the scheduler placed a job. -/
structure Placement where
  addr : String
  assignId : UInt64 := 0
  /-- The worker's native one, empty from older schedulers. -/
  system : String := ""
  deriving DecidableEq

/-- How a job ended. -/
inductive Outcome
  /-- Or failed: the build's own result tells. -/
  | built
  | cached
  | dependencyFailed
  /-- The scheduler is gone for good. -/
  | lost
  /-- No worker could take it within the grace. -/
  | unplaceable
  /-- Bounced too often. -/
  | gaveUp
  /-- Another build failed and keep-going is off. -/
  | cancelled
  deriving DecidableEq

/-- The result of a job. -/
structure Done where
  outcome : Outcome
  succeeded : Bool
  message : String := ""
  deriving DecidableEq

/-- The states of a job. -/
inductive JobState
  /-- So many inputs are not done. -/
  | blocked (waiting : ℕ)
  | wantable
  | wanted (unplaceableSince : Option Time) (reason : String)
  | assigned (place : Placement)
  /-- A later Assigned elsewhere is followed when this worker bounces us. -/
  | running (place : Placement) (redirect : Option Placement)
  | done (result : Done)
  deriving DecidableEq

/-- The alternative a state holds. -/
inductive Kind
  | blocked
  | wantable
  | wanted
  | assigned
  | running
  | done
  deriving DecidableEq

/-- The alternative takes one of the build threads. -/
def Kind.isActive : Kind → Bool
  | .blocked | .wantable | .done => false
  | .wanted | .assigned | .running => true

@[simp] theorem Kind.isActive_blocked : Kind.blocked.isActive = false := rfl
@[simp] theorem Kind.isActive_wantable : Kind.wantable.isActive = false := rfl
@[simp] theorem Kind.isActive_wanted : Kind.wanted.isActive = true := rfl
@[simp] theorem Kind.isActive_assigned : Kind.assigned.isActive = true := rfl
@[simp] theorem Kind.isActive_running : Kind.running.isActive = true := rfl
@[simp] theorem Kind.isActive_done : Kind.done.isActive = false := rfl

namespace JobState

def kind : JobState → Kind
  | .blocked _ => .blocked
  | .wantable => .wantable
  | .wanted _ _ => .wanted
  | .assigned _ => .assigned
  | .running _ _ => .running
  | .done _ => .done

@[simp] theorem kind_blocked (waiting : ℕ) : (blocked waiting).kind = .blocked := rfl
@[simp] theorem kind_wantable : wantable.kind = .wantable := rfl
@[simp] theorem kind_wanted (since : Option Time) (reason : String) :
    (wanted since reason).kind = .wanted := rfl
@[simp] theorem kind_assigned (place : Placement) : (assigned place).kind = .assigned := rfl
@[simp] theorem kind_running (place : Placement) (redirect : Option Placement) :
    (running place redirect).kind = .running := rfl
@[simp] theorem kind_done (result : Done) : (done result).kind = .done := rfl

end JobState

structure Config where
  threads : ℕ := 1
  rescheduleRetries : UInt32 := 8
  keepGoing : Bool := true

structure Job where
  state : JobState
  prio : ℚ
  dependants : List JobId := []
  failedInput : Option JobId := none
  bounced : UInt32 := 0
  /-- We sent a Want and no Cancel since. -/
  followed : Bool := false
  deriving DecidableEq

/-- A job that another one waits for. -/
def Job.awaitedBy (jid : JobId) (job : Job) : Job :=
  { job with dependants := job.dependants ++ [jid] }

/-- A job that waits for so many inputs. -/
def Job.blockedBy (waiting : ℕ) (job : Job) : Job := { job with state := .blocked waiting }

structure Executor where
  cfg : Config := {}
  jobs : List Job := []
  wantable : List JobId := []
  rewant : List JobId := []
  cancels : List JobId := []
  ready : List JobId := []
  remaining : ℕ := 0
  /-- Wanted, Assigned or Running. -/
  active : ℕ := 0
  progressed : UInt64 := 0
  stream : Bool := false
  abandoned : Bool := false
  stopping : Bool := false

/-- Results that wait to be given to their jobs, the last one first. -/
abbrev Work := List (JobId × Done)

def lostDone : Done := ⟨.lost, false, "scheduler connection lost"⟩

def cancelledDone : Done := ⟨.cancelled, false, "cancelled: another build failed"⟩

def dependencyDone : Done := ⟨.dependencyFailed, false, "dependency failed"⟩

namespace Executor

variable (exe : Executor)

/-- The state of a job. -/
def stateAt (jid : JobId) : Option JobState := (exe.jobs[jid]?).map Job.state

/-- The alternative its state holds. -/
def kindAt (jid : JobId) : Option Kind := (exe.stateAt jid).map JobState.kind

/-- Why a job ended as `dependencyFailed`. -/
def failedInput (jid : JobId) : Option JobId := (exe.jobs[jid]?).bind Job.failedInput

/-! ## Moving jobs between states -/

/-- Put a job into its next state and keep the count of active ones. -/
def toState (jid : JobId) (next : JobState) : Executor :=
  match exe.jobs[jid]? with
  | none => exe
  | some job =>
    let active := if job.state.kind.isActive then decr exe.active else exe.active
    { exe with
      active := if next.kind.isActive then active + 1 else active
      jobs := exe.jobs.set jid { job with state := next } }

/-- Stop following a job; the scheduler is told. -/
def unfollow (jid : JobId) : Executor :=
  match exe.jobs[jid]? with
  | none => exe
  | some job =>
    if job.followed then
      { exe with
        jobs := exe.jobs.set jid { job with followed := false }
        cancels := exe.cancels ++ [jid] }
    else exe

/-- Write the flag of a job. -/
def setFollowed (followed : Bool) (jid : JobId) : Executor :=
  { exe with jobs := exe.jobs.modify jid fun job => { job with followed := followed } }

/-- A job whose inputs are done becomes wantable, or ends with the result returned. -/
def unblock (jid : JobId) : Option Done × Executor :=
  match exe.jobs[jid]? with
  | none => (none, exe)
  | some job =>
    if job.failedInput.isSome then (some dependencyDone, exe)
    else if exe.stopping then (some cancelledDone, exe)
    else if exe.abandoned then (some lostDone, exe)
    else (none, { exe.toState jid .wantable with wantable := exe.wantable ++ [jid] })

/-! ## Ending jobs -/

/-- Unblock a job; if it ends, its result waits with the others. -/
def releaseInto (jid : JobId) (work : Work) : Executor × Work :=
  match exe.unblock jid with
  | (some result, exe) => (exe, (jid, result) :: work)
  | (none, exe) => (exe, work)

/-- A dependant that is told that `jid` has ended. -/
def tell (jid : JobId) (failed : Bool) (dnt : Job) (waiting : ℕ) : Job :=
  { dnt with
    failedInput := if failed && dnt.failedInput.isNone then some jid else dnt.failedInput
    state := .blocked (decr waiting) }

/-- Tell one dependant that the job it waits for has ended. -/
def releaseDependant (jid : JobId) (failed : Bool) (stage : Executor × Work) (dep : JobId) :
    Executor × Work :=
  let (exe, work) := stage
  match exe.jobs[dep]? with
  | some dnt =>
    match dnt.state with
    | .blocked waiting =>
      let exe := { exe with jobs := exe.jobs.set dep (tell jid failed dnt waiting) }
      if decr waiting = 0 then exe.releaseInto dep work else (exe, work)
    | _ => (exe, work)
  | none => (exe, work)

def releaseDependants (jid : JobId) (failed : Bool) (work : Work) : Executor × Work :=
  match exe.jobs[jid]? with
  | none => (exe, work)
  | some job => job.dependants.foldl (releaseDependant jid failed) (exe, work)

/-- The jobs that have not started, the last one first. -/
def unstarted : List JobId :=
  ((List.range exe.jobs.length).filter fun other =>
    exe.kindAt other ≠ some .running && exe.kindAt other ≠ some .done).reverse

/-- Cancel every job that has not started. -/
def stopAll (work : Work) : Executor × Work :=
  ({ exe with stopping := true }, exe.unstarted.map (fun other => (other, cancelledDone)) ++ work)

/-- A job that has not ended gets its result. -/
def finish (jid : JobId) (result : Done) : Executor :=
  let exe := (exe.unfollow jid).toState jid (.done result)
  { exe with remaining := decr exe.remaining, progressed := exe.progressed + 1 }

/-- One round of the loop in `settle`, for a job that has not ended. -/
def settleOne (jid : JobId) (result : Done) (work : Work) : Executor × Work :=
  let (exe, work) := (exe.finish jid result).releaseDependants jid (!result.succeeded) work
  if !result.succeeded && !exe.cfg.keepGoing && !exe.stopping then exe.stopAll work
  else (exe, work)

variable {jid : JobId} {job : Job}

section Equations

variable {exe}

section Found

variable (found : exe.jobs[jid]? = some job)
include found

theorem toState_eq (next : JobState) :
    exe.toState jid next =
      { exe with
        active := (if job.state.kind.isActive then decr exe.active else exe.active) +
          if next.kind.isActive then 1 else 0
        jobs := exe.jobs.set jid { job with state := next } } := by
  cases active : next.kind.isActive with
  | true => simp [toState, found, active]
  | false => simp [toState, found, active]

theorem unblock_none
    (sound : job.failedInput = none) (going : exe.stopping = false) (kept : exe.abandoned = false) :
    exe.unblock jid = (none, { exe.toState jid .wantable with wantable := exe.wantable ++ [jid] }) := by
  simp [unblock, found, sound, going, kept]

theorem unblock_some (ends : job.failedInput.isSome ∨ exe.stopping = true ∨ exe.abandoned = true) :
    ∃ result, exe.unblock jid = (some result, exe) ∧
      (result = dependencyDone ∧ job.failedInput.isSome ∨
        result = cancelledDone ∧ exe.stopping = true ∨ result = lostDone ∧ exe.abandoned = true) := by
  unfold unblock
  rw [found]
  by_cases failed : job.failedInput.isSome = true
  · exact ⟨_, by simp [failed], .inl ⟨rfl, failed⟩⟩
  · by_cases stopped : exe.stopping = true
    · exact ⟨_, by simp [failed, stopped], .inr (.inl ⟨rfl, stopped⟩)⟩
    · have left : exe.abandoned = true := by simpa [failed, stopped] using ends
      exact ⟨_, by simp [failed, stopped, left], .inr (.inr ⟨rfl, left⟩)⟩

/-- A released job is wantable, or its result waits and nothing else changes. -/
theorem releaseInto_cases (work : Work) :
    job.failedInput = none ∧ exe.stopping = false ∧ exe.abandoned = false ∧
        exe.releaseInto jid work =
          ({ exe.toState jid .wantable with wantable := exe.wantable ++ [jid] }, work) ∨
      ∃ result, exe.releaseInto jid work = (exe, (jid, result) :: work) ∧
        (result = dependencyDone ∧ job.failedInput.isSome ∨ result = cancelledDone ∧ exe.stopping = true ∨
          result = lostDone ∧ exe.abandoned = true) := by
  by_cases ends : job.failedInput.isSome ∨ exe.stopping = true ∨ exe.abandoned = true
  · obtain ⟨result, ran, why⟩ := unblock_some found ends
    exact .inr ⟨result, by rw [releaseInto, ran], why⟩
  · push Not at ends
    have sound : job.failedInput = none := by simpa using ends.1
    have going : exe.stopping = false := by simpa using ends.2.1
    have kept : exe.abandoned = false := by simpa using ends.2.2
    exact .inl ⟨sound, going, kept, by rw [releaseInto, unblock_none found sound going kept]⟩

theorem unfollow_eq :
    exe.unfollow jid =
      { exe with
        jobs := exe.jobs.set jid { job with followed := false }
        cancels := if job.followed then exe.cancels ++ [jid] else exe.cancels } := by
  cases followed : job.followed with
  | true => simp [unfollow, found, followed]
  | false =>
    have same : { job with followed := false } = job := by rw [← followed]
    rw [same, set_found found]
    simp [unfollow, found, followed]

theorem finish_eq (result : Done) :
    exe.finish jid result =
      { exe with
        jobs := exe.jobs.set jid { job with followed := false, state := .done result }
        cancels := if job.followed then exe.cancels ++ [jid] else exe.cancels
        active := if job.state.kind.isActive then decr exe.active else exe.active
        remaining := decr exe.remaining
        progressed := exe.progressed + 1 } := by
  have written : (exe.unfollow jid).jobs[jid]? = some { job with followed := false } := by
    rw [unfollow_eq found]
    exact List.getElem?_set_self (lt_length found)
  unfold finish
  rw [toState_eq written, unfollow_eq found]
  simp

end Found

end Equations

/-! ## The loop ends -/

/-- What a job may still add to the results. -/
def weight (job : Job) : ℕ := if job.state.kind = .done then 0 else job.dependants.length

/-- How many results the loop in `settle` may still take. -/
def load (work : Work) : ℕ :=
  work.length + tally weight exe.jobs + if exe.stopping then 0 else exe.jobs.length

variable {exe}

theorem tally_weight_set {job' : Job} (found : exe.jobs[jid]? = some job)
    (live : job.state.kind ≠ .done) (live' : job'.state.kind ≠ .done)
    (deps_eq : job'.dependants = job.dependants) :
    tally weight (exe.jobs.set jid job') = tally weight exe.jobs := by
  have moved := tally_set weight found job'
  have same : weight job' = weight job := by simp [weight, live, live', deps_eq]
  omega

/-- Releasing a job takes none out of the load and adds at most one result. -/
theorem releaseInto_load (found : exe.jobs[jid]? = some job)
    (live : job.state.kind ≠ .done) (work : Work) :
    tally weight (exe.releaseInto jid work).1.jobs = tally weight exe.jobs ∧
      (exe.releaseInto jid work).1.jobs.length = exe.jobs.length ∧
      (exe.releaseInto jid work).1.stopping = exe.stopping ∧
      (exe.releaseInto jid work).2.length ≤ work.length + 1 := by
  obtain ⟨-, -, -, ran⟩ | ⟨result, ran, -⟩ := releaseInto_cases found work
  · rw [ran, toState_eq found]
    refine ⟨tally_weight_set found live ?_ rfl, ?_, rfl, ?_⟩
    · simp
    · simp
    · simp
  · simp [ran]

/-- Telling a dependant takes no job out of the load and adds at most one result. -/
theorem releaseDependant_load (jid : JobId) (failed : Bool) (stage : Executor × Work) (dep : JobId) :
    tally weight (releaseDependant jid failed stage dep).1.jobs = tally weight stage.1.jobs ∧
      (releaseDependant jid failed stage dep).1.jobs.length = stage.1.jobs.length ∧
      (releaseDependant jid failed stage dep).1.stopping = stage.1.stopping ∧
      (releaseDependant jid failed stage dep).2.length ≤ stage.2.length + 1 := by
  obtain ⟨exe, work⟩ := stage
  cases found : exe.jobs[dep]? with
  | none => simp [releaseDependant, found]
  | some dnt =>
    cases state_eq : dnt.state with
    | blocked waiting =>
      have bound : dep < exe.jobs.length := lt_length found
      have same : tally weight (exe.jobs.set dep (tell jid failed dnt waiting)) = tally weight exe.jobs :=
        tally_weight_set found (by simp [state_eq]) (by simp [tell]) rfl
      simp only [releaseDependant, found, state_eq]
      split
      · obtain ⟨tally_eq, length_eq, stopping_eq, length_le⟩ :=
          @releaseInto_load { exe with jobs := exe.jobs.set dep (tell jid failed dnt waiting) } dep _
            (List.getElem?_set_self bound) (by simp [tell]) work
        exact ⟨tally_eq.trans same, length_eq.trans (by simp), stopping_eq, length_le⟩
      · simp [same]
    | _ => simp [releaseDependant, found, state_eq]

theorem foldl_releaseDependant_load (jid : JobId) (failed : Bool) (deps : List JobId)
    (stage : Executor × Work) :
    tally weight (deps.foldl (releaseDependant jid failed) stage).1.jobs = tally weight stage.1.jobs ∧
      (deps.foldl (releaseDependant jid failed) stage).1.jobs.length = stage.1.jobs.length ∧
      (deps.foldl (releaseDependant jid failed) stage).1.stopping = stage.1.stopping ∧
      (deps.foldl (releaseDependant jid failed) stage).2.length ≤ stage.2.length + deps.length := by
  induction deps generalizing stage with
  | nil => simp
  | cons dep deps ih =>
    obtain ⟨tally_eq, length_eq, stopping_eq, length_le⟩ := ih (releaseDependant jid failed stage dep)
    obtain ⟨tally_eq', length_eq', stopping_eq', length_le'⟩ := releaseDependant_load jid failed stage dep
    refine ⟨tally_eq.trans tally_eq', length_eq.trans length_eq', stopping_eq.trans stopping_eq', ?_⟩
    simp only [List.foldl_cons, List.length_cons]
    omega

theorem length_unstarted_le : exe.unstarted.length ≤ exe.jobs.length := by
  rw [unstarted, List.length_reverse]
  exact (List.length_filter_le _ _).trans (by simp)

/-- Every round of the loop takes something off the load. -/
theorem settleOne_load (found : exe.jobs[jid]? = some job)
    (live : job.state.kind ≠ .done) (result : Done) (work : Work) :
    (exe.settleOne jid result work).1.load (exe.settleOne jid result work).2 <
      exe.load ((jid, result) :: work) := by
  have bound : jid < exe.jobs.length := lt_length found
  have ended := tally_set weight found { job with followed := false, state := .done result }
  have job_weight : weight job = job.dependants.length := by simp [weight, live]
  have ended_weight : weight { job with followed := false, state := .done result } = 0 := by
    simp [weight]
  have written : (exe.finish jid result).jobs[jid]? =
      some { job with followed := false, state := .done result } := by
    rw [finish_eq found]
    exact List.getElem?_set_self bound
  obtain ⟨tally_eq, length_eq, stopping_eq, length_le⟩ :=
    foldl_releaseDependant_load jid (!result.succeeded) job.dependants (exe.finish jid result, work)
  have finish_tally : tally weight (exe.finish jid result).jobs + job.dependants.length =
      tally weight exe.jobs := by
    rw [finish_eq found]
    simp only
    omega
  have finish_length : (exe.finish jid result).jobs.length = exe.jobs.length := by
    rw [finish_eq found]
    simp
  have finish_stopping : (exe.finish jid result).stopping = exe.stopping := by
    rw [finish_eq found]
  simp only [settleOne, releaseDependants, written]
  generalize job.dependants.foldl (releaseDependant jid (!result.succeeded))
    (exe.finish jid result, work) = told at tally_eq length_eq stopping_eq length_le ⊢
  obtain ⟨exe', work'⟩ := told
  simp only at tally_eq length_eq stopping_eq length_le
  have stopped := @length_unstarted_le exe'
  split
  · rename_i stops
    have going : exe'.stopping = false := by simp_all
    simp only [load, stopAll, List.length_append, List.length_map, List.length_cons, if_true]
    rw [stopping_eq, finish_stopping] at going
    simp only [going, Bool.false_eq_true, if_false]
    omega
  · simp only [load, List.length_cons, stopping_eq, finish_stopping, length_eq, finish_length]
    omega

/-- The loop in `settle`. -/
def settleLoop (exe : Executor) (work : Work) : Executor :=
  match work with
  | [] => exe
  | (jid, result) :: work =>
    match found : exe.jobs[jid]? with
    | none => settleLoop exe work
    | some job =>
      if live : job.state.kind = .done then settleLoop exe work
      else settleLoop (exe.settleOne jid result work).1 (exe.settleOne jid result work).2
termination_by exe.load work
decreasing_by
  · simp [load]
  · simp [load]
  · exact settleOne_load found live result work

variable (exe)

/-- Give a job its result, and the jobs that end with it theirs. -/
def settle (first : JobId) (result : Done) : Executor := exe.settleLoop [(first, result)]

def release (jid : JobId) : Executor :=
  match exe.unblock jid with
  | (some result, exe) => exe.settle jid result
  | (none, exe) => exe

/-! ## Adding jobs -/

/-- Register the inputs of a new job and count those that are not done; `none` stands for the
exception `jobs.at` throws on an unknown one. -/
def link (jid : JobId) : List JobId → ℕ → Executor → Option ℕ × Executor
  | [], waiting, exe => (some waiting, exe)
  | input :: inputs, waiting, exe =>
    match exe.jobs[input]? with
    | none => (none, exe)
    | some job =>
      match job.state with
      | .done result =>
        if result.succeeded then link jid inputs waiting exe
        else link jid inputs waiting
          { exe with jobs := exe.jobs.modify jid fun added => { added with failedInput := some input } }
      | _ =>
        link jid inputs (waiting + 1)
          { exe with jobs := exe.jobs.modify input (Job.awaitedBy jid) }

/-- A new job, with no inputs yet. -/
def push (prio : ℚ) : Executor :=
  { exe with
    jobs := exe.jobs ++ [{ state := .blocked 0, prio := prio }]
    remaining := exe.remaining + 1 }

/-- Inputs must be added first. -/
def add (prio : ℚ) (inputs : List JobId) : Option JobId × Executor :=
  let jid := exe.jobs.length
  match link jid inputs 0 (exe.push prio) with
  | (none, exe) => (none, exe)
  | (some waiting, exe) =>
    let exe := { exe with jobs := exe.jobs.modify jid (Job.blockedBy waiting) }
    (some jid, if waiting = 0 then exe.release jid else exe)

/-- A running job turns out to need another one. -/
def blockOn (jid input : JobId) : Executor :=
  match exe.jobs[jid]?, exe.jobs[input]? with
  | some job, some needed =>
    match job.state, needed.state with
    | .running _ _, .done result =>
      let exe := if result.succeeded then exe
        else { exe with jobs := exe.jobs.set jid { job with failedInput := some input } }
      (exe.toState jid (.blocked 0)).release jid
    | .running _ _, _ =>
      let exe := { exe with jobs := exe.jobs.modify input (Job.awaitedBy jid) }
      (exe.unfollow jid).toState jid (.blocked 1)
    | _, _ => exe
  | _, _ => exe

/-! ## The scheduler stream -/

/-- Ask for a job again after a reconnect. -/
def reconnect (exe : Executor) (jid : JobId) : Executor :=
  match exe.kindAt jid with
  | some .wanted => { exe.toState jid .wantable with wantable := exe.wantable ++ [jid] }
  | some .assigned | some .running => { exe with rewant := exe.rewant ++ [jid] }
  | _ => exe

/-- Placed jobs are Wanted again too, so the scheduler keeps their builds. -/
def connected : Executor :=
  (List.range exe.jobs.length).foldl reconnect { exe with stream := true }

/-- The scheduler drops a client's follows when its stream ends. -/
def disconnected : Executor :=
  { exe with stream := false, jobs := exe.jobs.map fun job => { job with followed := false } }

/-- The wantable list without what is not wantable any more. -/
def stillWantable : List JobId :=
  exe.wantable.filter fun jid => exe.kindAt jid = some .wantable

/-- How many more jobs may be Wanted. -/
def room : ℕ := min exe.stillWantable.length (exe.cfg.threads - exe.active)

def prioOf (jid : JobId) : ℚ := (exe.jobs[jid]?).elim 0 Job.prio

/-- What `partial_sort` may leave in the wantable list: the most urgent first, as far as there is
room for them. -/
def Arranges (arranged : List JobId) : Prop :=
  arranged.Perm exe.stillWantable ∧
    (arranged.take exe.room).Pairwise (fun lhs rhs => exe.prioOf rhs ≤ exe.prioOf lhs) ∧
    ∀ lhs ∈ arranged.take exe.room, ∀ rhs ∈ arranged.drop exe.room, exe.prioOf rhs ≤ exe.prioOf lhs

instance (arranged : List JobId) : Decidable (exe.Arranges arranged) := by
  unfold Arranges
  infer_instance

/-- Ask the scheduler for one job. -/
def want (exe : Executor) (jid : JobId) : Executor :=
  (exe.toState jid (.wanted none "")).setFollowed true jid

/-- Capped at the build threads, so the scheduler holds no slot we can't use. -/
def takeWants (arranged : List JobId) : List JobId × Executor :=
  if exe.stream then
    let again := exe.rewant
    let room := exe.room
    let exe := again.foldl (setFollowed · true) { exe with rewant := [] }
    let exe := (arranged.take room).foldl want exe
    (again ++ arranged.take room, { exe with wantable := arranged.drop room })
  else ([], exe)

/-- A write failed: these go out again after the next connect. -/
def unsent (exe : Executor) : List JobId → Executor
  | [] => exe
  | jid :: ids =>
    match exe.jobs[jid]? with
    | none => exe
    | some job =>
      let exe := exe.setFollowed false jid
      if job.state.kind = .wanted then
        unsent { exe.toState jid .wantable with wantable := exe.wantable ++ [jid] } ids
      else unsent exe ids

def takeCancels : List JobId × Executor := (exe.cancels, { exe with cancels := [] })

/-- The scheduler placed a job. -/
def onAssigned (jid : JobId) (placement : Placement) : Executor :=
  match exe.jobs[jid]? with
  | none => exe
  | some job =>
    if placement.addr = "" then exe
    else
      match job.state with
      | .running place _ =>
        if placement.addr ≠ place.addr then
          { exe with jobs := exe.jobs.set jid { job with state := .running place (some placement) } }
        else exe
      | .assigned _ => { exe with jobs := exe.jobs.set jid { job with state := .assigned placement } }
      | .wanted _ _ =>
        let exe := { exe with progressed := exe.progressed + 1 }
        { exe.toState jid (.assigned placement) with ready := exe.ready ++ [jid] }
      | _ => exe

/-- The cache has a job's outputs. -/
def onCached (jid : JobId) : Executor :=
  match exe.kindAt jid with
  | some .wanted => exe.settle jid ⟨.cached, true, ""⟩
  | _ => exe

/-- No worker can take a job. -/
def onUnplaceable (jid : JobId) (reason : String) (now : Time) : Bool × Executor :=
  match exe.jobs[jid]? with
  | none => (false, exe)
  | some job =>
    match job.state with
    | .wanted since _ =>
      (since.isNone,
        { exe with jobs := exe.jobs.set jid { job with state := .wanted (since.or (some now)) reason } })
    | _ => (false, exe)

def onPlaceable (jid : JobId) : Executor :=
  match exe.jobs[jid]? with
  | none => exe
  | some job =>
    match job.state with
    | .wanted _ reason =>
      { exe with jobs := exe.jobs.set jid { job with state := .wanted none reason } }
    | _ => exe

/-- Fail a job that stayed unplaceable, or say when to look again. -/
def reapOne (now grace : Time) (stage : Time × Executor) (jid : JobId) : Time × Executor :=
  let (wake, exe) := stage
  match exe.stateAt jid with
  | some (.wanted (some since) reason) =>
    if since + grace > now then (min wake (since + grace), exe)
    else (wake, exe.settle jid ⟨.unplaceable, false, reason⟩)
  | _ => (wake, exe)

/-- Fails what stayed unplaceable past `grace`. When to call again. -/
def reap (now grace : Time) : Time × Executor :=
  (List.range exe.jobs.length).foldl (reapOne now grace) (now + grace, exe)

/-! ## The build threads -/

/-- The first job of the ready list that is still assigned. -/
def nextReady (exe : Executor) : List JobId → Option (JobId × Placement) × Executor
  | [] => (none, { exe with ready := [] })
  | jid :: ready =>
    match exe.stateAt jid with
    | some (.assigned place) =>
      (some (jid, place), { exe with ready := ready }.toState jid (.running place none))
    | _ => nextReady exe ready

def next : Option (JobId × Placement) × Executor := exe.nextReady exe.ready

/-- A build ended. -/
def finished (jid : JobId) (succeeded : Bool) : Executor :=
  match exe.kindAt jid with
  | some .running => exe.settle jid ⟨.built, succeeded, ""⟩
  | _ => exe

/-- A worker did not take a build. -/
def bounced (jid : JobId) : Executor :=
  match exe.jobs[jid]? with
  | none => exe
  | some job =>
    match job.state with
    | .running _ (some placement) =>
      { exe.toState jid (.assigned placement) with ready := exe.ready ++ [jid] }
    | .running _ none =>
      let count := job.bounced + 1
      let exe := { exe with jobs := exe.jobs.set jid { job with bounced := count } }
      if count > exe.cfg.rescheduleRetries then
        exe.settle jid ⟨.gaveUp, false, "gave up after " ++ toString count ++ " reschedules"⟩
      else (exe.toState jid (.blocked 0)).release jid
    | _ => exe

/-- A job that is not placed fails as lost. -/
def abandonOne (exe : Executor) (jid : JobId) : Executor :=
  match exe.kindAt jid with
  | some .wantable | some .wanted => exe.settle jid lostDone
  | _ => exe

/-- No scheduler any more. Placed jobs still build; everything else, now or released later, fails
as lost. -/
def abandon : Executor :=
  (List.range exe.jobs.length).foldl abandonOne { exe with abandoned := true }

end Executor

/-- A call of the executor, with what it is given. -/
inductive Call
  | add (prio : ℚ) (inputs : List JobId)
  | blockOn (jid input : JobId)
  | connected
  | disconnected
  | takeWants (arranged : List JobId)
  | unsent (ids : List JobId)
  | takeCancels
  | onAssigned (jid : JobId) (placement : Placement)
  | onCached (jid : JobId)
  | onUnplaceable (jid : JobId) (reason : String) (now : Time)
  | onPlaceable (jid : JobId)
  | reap (now grace : Time)
  | next
  | finished (jid : JobId) (succeeded : Bool)
  | bounced (jid : JobId)
  | abandon

/-- The state a call leaves behind. -/
def Call.perform (exe : Executor) : Call → Executor
  | .add prio inputs => (exe.add prio inputs).2
  | .blockOn jid input => exe.blockOn jid input
  | .connected => exe.connected
  | .disconnected => exe.disconnected
  | .takeWants arranged => (exe.takeWants arranged).2
  | .unsent ids => exe.unsent ids
  | .takeCancels => exe.takeCancels.2
  | .onAssigned jid placement => exe.onAssigned jid placement
  | .onCached jid => exe.onCached jid
  | .onUnplaceable jid reason now => (exe.onUnplaceable jid reason now).2
  | .onPlaceable jid => exe.onPlaceable jid
  | .reap now grace => (exe.reap now grace).2
  | .next => exe.next.2
  | .finished jid succeeded => exe.finished jid succeeded
  | .bounced jid => exe.bounced jid
  | .abandon => exe.abandon

/-- The longest vector of ids there can be. -/
def maxSize : ℕ := 2 ^ 61 - 1

/-- What the surroundings grant: a vector has a longest length, and `partial_sort` sorts. -/
def Call.allowed (exe : Executor) : Call → Prop
  | .add _ inputs => inputs.length ≤ maxSize
  | .takeWants arranged => exe.stream = true → exe.Arranges arranged
  | _ => True

end NixGrpcStore.Exec
